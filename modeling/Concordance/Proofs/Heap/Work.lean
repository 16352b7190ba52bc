import Concordance.Proofs.Heap.Change
import Concordance.Proofs.Heap.Equality

/-!
# Work on the type graph

`Does h x Q` says that the work `x`, done on the sound heap `h`, is a row of changes after which `Q` holds of the
result.
-/

namespace Concordance

open Heap (Change Evolves)

variable {m w : TypeId} {ts ms : List TypeId} {h' : Heap}

/-- The work is a row of changes, and `Q` holds of what it gives and of the heap after it. -/
structure Does {α : Type} (h : Heap) (x : HeapM α) (Q : α → Heap → Prop) : Prop where
  run : h.IsSound → Evolves h (x.run h).2 ∧ Q (x.run h).1 (x.run h).2

namespace Does

variable {α : Type} {h : Heap}

theorem of_sound (hx : h.IsSound → Does h x Q) : Does h x Q := ⟨fun hs => (hx hs).run hs⟩

theorem pure (hq : Q a h) : Does h (Pure.pure a) Q := ⟨fun _ => ⟨.refl h, hq⟩⟩

theorem and {P : α → Heap → Prop} (hx : Does h x Q) (hp : P (x.run h).1 (x.run h).2) :
    Does h x fun a h' => Q a h' ∧ P a h' :=
  ⟨fun hs => ⟨(hx.run hs).1, (hx.run hs).2, hp⟩⟩

theorem mono (hx : Does h x Q) (hq : ∀ a h', Evolves h h' → Q a h' → R a h') : Does h x R :=
  ⟨fun hs => ⟨(hx.run hs).1, hq _ _ (hx.run hs).1 (hx.run hs).2⟩⟩

theorem bind (hx : Does h x Q) (hf : ∀ a h', Evolves h h' → Q a h' → Does h' (f a) R) : Does h (x >>= f) R := by
  refine ⟨fun hs => ?_⟩
  obtain ⟨he, hq⟩ := hx.run hs
  obtain ⟨he', hr⟩ := (hf _ _ he hq).run (he.isSound hs)
  exact ⟨he.trans he', hr⟩

theorem get_bind (hf : Does h (f h) Q) : Does h (get >>= f) Q := ⟨hf.run⟩

theorem change {Q : PUnit → Heap → Prop} (hc : Change h (g h)) (hq : Q ⟨⟩ (g h)) :
    Does h (modify g) Q := ⟨fun _ => ⟨.single hc, hq⟩⟩

theorem foldlM (xs : List β) (hf : ∀ x ∈ xs, ∀ acc h', Evolves h h' → I acc h' → Does h' (f acc x) I) (ha : I a h) :
    Does h (xs.foldlM f a) I := by
  induction xs generalizing a h with
  | nil => exact pure ha
  | cons x xs ih =>
    rw [List.foldlM_cons]
    refine bind (hf x (.head _) a h (.refl h) ha) fun b h' he hb => ?_
    exact ih (fun y hy acc h'' he' => hf y (.tail _ hy) acc h'' (he.trans he')) hb

end Does

section Unions

variable {h : Heap} {t u v : TypeId}

/-- Nothing has happened to a heap but that types were added. -/
structure Heap.OnlyTypes (h h' : Heap) : Prop where
  holds : h.HoldsTypes h'
  rest : h' = { h with types := h'.types }

theorem Heap.OnlyTypes.refl (h : Heap) : h.OnlyTypes h := ⟨.refl h, rfl⟩

theorem Heap.OnlyTypes.binding (ho : h.OnlyTypes h') (b : BindingId) : h'.binding b = h.binding b :=
  congrArg (fun x => x.binding b) ho.rest

theorem does_newType (ty : Ty) (fits : h.Fits ty) (plain : h.Admits ty) :
    Does h (newType ty) fun t h' => h'.ty t = ty ∧ h'.Has t ∧ h.OnlyTypes h' := by
  refine ⟨fun _ => ⟨.single (.newType ty fits plain), ?_, ?_, .push ty, rfl⟩⟩
  · exact Heap.ty_push.trans (if_pos rfl)
  · exact Nat.lt_of_lt_of_eq (Nat.lt_succ_self _) (Array.size_push _).symm

theorem newType_value (ty : Ty) (fits : h.Fits ty) (plain : h.Admits ty) (single : ∀ ms, ty ≠ .union ms) :
    Does h (newType ty) fun t h' => h'.IsValue t :=
  ⟨fun hs => ⟨.single (.newType ty fits plain), hs.isValue_push rfl single⟩⟩

theorem newList_value (hv : h.IsValue t) : Does h (newList t) fun t h' => h'.IsValue t :=
  newType_value _ ⟨hv, by simp⟩ trivial (by simp)

theorem newTuple_value (hv : ∀ t ∈ ts, h.IsValue t) :
    Does h (newTuple ts) fun t h' => h'.IsValue t :=
  newType_value _ hv trivial (by simp)

theorem newDict_value (hu : h.IsValue u) (hv : h.IsValue v) : Does h (newDict u v) fun t h' => h'.IsValue t :=
  newType_value _ ⟨hu, hv⟩ trivial (by simp)

namespace Heap

theorem mem_addAlternative (hm : m ∈ h.addAlternative ms t) : m ∈ ms ∨ m = t := by
  unfold addAlternative at hm
  grind

theorem isUnknown_iff : h.isUnknown m = true ↔ h.ty m = .unknown := by
  unfold isUnknown
  split
  · rename_i heq
    simp [heq]
  · rename_i hne
    simpa using hne

theorem mem_addAlternative_of_mem (hm : m ∈ ms) (hk : h.ty m ≠ .unknown) :
    m ∈ h.addAlternative ms t := by
  have hk : h.isUnknown m ≠ true := fun hu => hk (isUnknown_iff.1 hu)
  unfold addAlternative
  grind

theorem exists_equal_addAlternative (ms : List TypeId) (hk : h.ty t ≠ .unknown) :
    ∃ m ∈ h.addAlternative ms t, h.equal m t = true := by
  have hself : h.equal t t = true := h.equal_self t
  have hk : ¬ h.isUnknown t = true := fun hu => hk (isUnknown_iff.1 hu)
  unfold addAlternative
  rw [if_neg hk]
  split
  · grind
  · split
    · rename_i hany
      exact List.any_eq_true.1 hany
    · exact ⟨t, List.mem_append_right _ (List.mem_singleton.2 rfl), hself⟩

def Proper (h : Heap) (ms : List TypeId) : Prop := 2 ≤ ms.length → ∀ m ∈ ms, h.ty m ≠ .unknown

theorem Proper.addAlternative (hp : h.Proper ms) (t : TypeId) : h.Proper (h.addAlternative ms t) := by
  have hknown : ∀ m, h.isUnknown m = false → h.ty m ≠ .unknown := fun m hm hu => by
    rw [isUnknown_iff.2 hu] at hm
    cases hm
  unfold Heap.addAlternative
  split
  · split
    · exact fun hlen => absurd hlen (by simp)
    · exact hp
  · rename_i hut
    have hkt := hknown t (by simpa using hut)
    split
    · split
      · exact fun hlen => absurd hlen (by simp)
      · rename_i m hum
        split
        · exact fun hlen => absurd hlen (by simp)
        · intro _ x hx
          -- A second alternative joins a first that is known.
          simp only [List.mem_cons, List.not_mem_nil, or_false] at hx
          rcases hx with rfl | rfl
          · exact hknown _ (by simpa using hum)
          · exact hkt
    · rename_i hone
      split
      · exact hp
      · intro _ x hx
        rcases List.mem_append.1 hx with hx | hx
        · -- There are several alternatives already, for a single one is treated apart.
          refine hp ?_ x hx
          rcases ms with _ | ⟨m, _ | ⟨m', ms⟩⟩
          · cases hx
          · exact absurd rfl (hone m)
          · simp
        · exact List.mem_singleton.1 hx ▸ hkt

theorem mem_foldl_addAlternative (hm : m ∈ ts.foldl h.addAlternative ms) :
    m ∈ ms ∨ m ∈ ts := by
  induction ts generalizing ms with
  | nil => exact .inl hm
  | cons t ts ih =>
    rcases ih hm with hm | hm
    · rcases mem_addAlternative hm with hm | rfl
      · exact .inl hm
      · exact .inr (.head _)
    · exact .inr (.tail _ hm)

theorem mem_addMember (hm : m ∈ h.addMember ms t) : m ∈ ms ∨ m ∈ h.members t :=
  mem_foldl_addAlternative hm

theorem foldl_addAlternative_induction {P : List TypeId → Prop}
    (step : ∀ {ms}, P ms → ∀ t, P (h.addAlternative ms t)) (ts : List TypeId) (hms : P ms) :
    P (ts.foldl h.addAlternative ms) := by
  induction ts generalizing ms with
  | nil => exact hms
  | cons t ts ih => exact ih (step hms t)

theorem foldl_addMember_induction {P : List TypeId → Prop} (step : ∀ {ms}, P ms → ∀ t, P (h.addAlternative ms t))
    (ts : List TypeId) (hms : P ms) : P (ts.foldl h.addMember ms) := by
  induction ts generalizing ms with
  | nil => exact hms
  | cons t ts ih => exact ih (foldl_addAlternative_induction step (h.members t) hms)

theorem exists_equal_foldl_addAlternative (ms : List TypeId) (hm : m ∈ ts)
    (hk : h.ty m ≠ .unknown) : ∃ m' ∈ ts.foldl h.addAlternative ms, h.equal m' m = true := by
  induction ts generalizing ms with
  | nil => cases hm
  | cons t ts ih =>
    rcases List.mem_cons.1 hm with rfl | hm
    · obtain ⟨m', hm', heq⟩ := exists_equal_addAlternative ms hk
      -- What equals a known type is known, so it is not taken away again.
      refine ⟨m', ?_, heq⟩
      rw [List.foldl_cons]
      have hk' := known_of_equal heq hk
      exact foldl_addAlternative_induction (P := fun ms => m' ∈ ms) (fun hm _ => mem_addAlternative_of_mem hm hk') ts hm'
    · exact ih _ hm

theorem mem_foldl_addMember (hm : m ∈ ts.foldl h.addMember ms) :
    m ∈ ms ∨ ∃ t ∈ ts, m ∈ h.members t := by
  induction ts generalizing ms with
  | nil => exact .inl hm
  | cons t ts ih =>
    rcases ih hm with hm | ⟨u, hu, hm⟩
    · rcases mem_addMember hm with hm | hm
      · exact .inl hm
      · exact .inr ⟨t, .head _, hm⟩
    · exact .inr ⟨u, .tail _ hu, hm⟩

theorem mem_unionMembers (hm : m ∈ h.unionMembers ts) :
    ∃ t ∈ ts, m ∈ h.members t :=
  (mem_foldl_addMember hm).resolve_left List.not_mem_nil

theorem exists_equal_unionMembers (ht : t ∈ ts) (hm : m ∈ h.members t)
    (hk : h.ty m ≠ .unknown) : ∃ m' ∈ h.unionMembers ts, h.equal m' m = true := by
  unfold unionMembers
  generalize ([] : List TypeId) = ms
  induction ts generalizing ms with
  | nil => cases ht
  | cons u ts ih =>
    rcases List.mem_cons.1 ht with rfl | ht
    · obtain ⟨m', hm', heq⟩ := exists_equal_foldl_addAlternative ms hm hk
      refine ⟨m', ?_, heq⟩
      rw [List.foldl_cons]
      have hk' := known_of_equal heq hk
      exact foldl_addMember_induction (P := fun ms => m' ∈ ms) (fun hm _ => mem_addAlternative_of_mem hm hk') ts hm'
    · exact ih ht _

theorem proper_unionMembers (ts : List TypeId) : h.Proper (h.unionMembers ts) :=
  foldl_addMember_induction Proper.addAlternative ts fun hlen => absurd hlen (by simp)

theorem pairwise_addAlternative (hp : ms.Pairwise fun a b => h.equal a b = false) (t : TypeId) :
    (h.addAlternative ms t).Pairwise fun a b => h.equal a b = false := by
  unfold addAlternative
  split
  · split
    · exact List.pairwise_singleton ..
    · exact hp
  · split
    · split
      · exact List.pairwise_singleton ..
      · grind
    · split
      · exact hp
      · rename_i hany
        refine List.pairwise_append.2 ⟨hp, List.pairwise_singleton .., fun m hm u hu => ?_⟩
        rw [List.mem_singleton.1 hu]
        simpa using fun heq => hany (List.any_eq_true.2 ⟨m, hm, heq⟩)

theorem pairwise_unionMembers (h : Heap) (ts : List TypeId) :
    (h.unionMembers ts).Pairwise fun a b => h.equal a b = false :=
  foldl_addMember_induction pairwise_addAlternative ts List.Pairwise.nil

theorem nodup_unionMembers (ts : List TypeId) : (h.unionMembers ts).Nodup := by
  refine (h.pairwise_unionMembers ts).imp fun {a b} hne heq => ?_
  rw [heq, h.equal_self] at hne
  cases hne

theorem addAlternative_ne_nil (ms : List TypeId) (t : TypeId) : h.addAlternative ms t ≠ [] := by
  by_cases hk : h.ty t = .unknown
  · unfold addAlternative
    rw [if_pos (isUnknown_iff.2 hk)]
    cases ms <;> simp
  · obtain ⟨m, hm, _⟩ := exists_equal_addAlternative ms hk
    exact List.ne_nil_of_mem hm

theorem addMember_ne_nil (hs : h.IsSound) (ms : List TypeId) (t : TypeId) : h.addMember ms t ≠ [] := by
  unfold addMember
  cases hmembers : h.members t with
  | nil => exact absurd hmembers (hs.members_ne_nil t)
  | cons m rest =>
    exact foldl_addAlternative_induction (P := (· ≠ [])) (fun _ u => addAlternative_ne_nil _ u) rest
      (addAlternative_ne_nil ms m)

theorem unionMembers_ne_nil (hs : h.IsSound) (hts : ts ≠ []) : h.unionMembers ts ≠ [] := by
  obtain ⟨t, rest, rfl⟩ := List.exists_cons_of_ne_nil hts
  exact foldl_addMember_induction (P := (· ≠ [])) (fun _ u => addAlternative_ne_nil _ u) rest (addMember_ne_nil hs [] t)

/-- A type that holds what is known in some types, up to equality, and nothing else. -/
structure Gathers (h : Heap) (ts : List TypeId) (w : TypeId) (h' : Heap) : Prop where
  has : h'.Has w
  only : h.OnlyTypes h'
  within : ∀ m ∈ h'.members w, ts = [] ∧ m = .unknown ∨ ∃ t ∈ ts, m ∈ h.members t
  kept : ∀ t ∈ ts, ∀ m ∈ h.members t, h.ty m ≠ .unknown → ∃ m' ∈ h'.members w, h.equal m' m = true

/-- A type that holds what is known in two types, up to equality, and nothing else; but only what is in the first one
if the two are taken to be equal. -/
structure Merges (h : Heap) (u v : TypeId) (w : TypeId) (h' : Heap) : Prop where
  has : h'.Has w
  only : h.OnlyTypes h'
  within : ∀ m ∈ h'.members w, m ∈ h.members u ∨ m ∈ h.members v ∧ h.equal u v = false
  left : ∀ m ∈ h.members u, h.ty m ≠ .unknown → ∃ m' ∈ h'.members w, h.equal m' m = true
  right : ∀ m ∈ h.members v, h.ty m ≠ .unknown → h.equal u v = false → ∃ m' ∈ h'.members w, h.equal m' m = true

theorem Gathers.continues_iff (hg : h.Gathers ts w h') (hs : h.IsSound) :
    .continues ∈ h'.members w ↔ ∃ t ∈ ts, .continues ∈ h.members t := by
  refine ⟨fun hm => (hg.within _ hm).resolve_left fun h => absurd h.2 (by decide), fun ⟨t, ht, hm⟩ => ?_⟩
  obtain ⟨m, hm', heq⟩ := hg.kept t ht _ hm (by simp [hs.ty_continues])
  exact hs.equal_continues.1 heq ▸ hm'

theorem Merges.continues_iff (hm : h.Merges u v w h') (hs : h.IsSound) :
    .continues ∈ h'.members w ↔
      .continues ∈ h.members u ∨ .continues ∈ h.members v ∧ h.equal u v = false := by
  have hknown : h.ty .continues ≠ .unknown := by simp [hs.ty_continues]
  refine ⟨hm.within _, ?_⟩
  rintro (hc | ⟨hc, hne⟩)
  · obtain ⟨m, hm', heq⟩ := hm.left _ hc hknown
    exact hs.equal_continues.1 heq ▸ hm'
  · obtain ⟨m, hm', heq⟩ := hm.right _ hc hknown hne
    exact hs.equal_continues.1 heq ▸ hm'

theorem Merges.isValue (hm : h.Merges u v w h') (hu : h.IsValue u) (hv : h.IsValue v) :
    h'.IsValue w := by
  refine ⟨hm.has, fun hc => ?_⟩
  rcases hm.within _ hc with hc | ⟨hc, _⟩
  · exact hu.unmarked hc
  · exact hv.unmarked hc

theorem Merges.has_member (hm : h.Merges u v w h') (hs : h.IsSound) (hu : h.Has u)
    (hv : h.Has v) (hmem : m ∈ h'.members w) : h.Has m := by
  rcases hm.within m hmem with hmem | ⟨hmem, _⟩
  · exact (hs.has_of_mem_members hu hmem).1
  · exact (hs.has_of_mem_members hv hmem).1

theorem Merges.keeps (hm : h.Merges u v w h') (hs : h.IsSound) (he : Evolves h h')
    (hu : h.Has u) (hv : h.Has v) : h'.Keeps u w := by
  intro m hmem hk
  rw [he.toExtends.members hu] at hmem
  obtain ⟨hhas, _⟩ := hs.has_of_mem_members hu hmem
  rw [hm.only.holds.types m hhas] at hk
  obtain ⟨m', hmem', heq⟩ := hm.left m hmem hk
  refine ⟨m', hmem', ?_⟩
  rw [hm.only.holds.equal hs he.toExtends.size_le (hm.has_member hs hu hv hmem') hhas, heq]

end Heap

theorem run_union (h : Heap) (u v : TypeId) : (union u v).run h =
    if h.equal u v = true then (u, h) else if h.isUnknown u = true then (v, h)
    else if h.isUnknown v = true then (u, h) else (unionOf [u, v]).run h := by
  show StateT.run (if h.equal u v = true then _ else if h.isUnknown u = true then _ else
    if h.isUnknown v = true then _ else unionOf [u, v] : HeapM TypeId) h = _
  split
  · rfl
  · split
    · rfl
    · split <;> rfl

theorem run_unionOf (h : Heap) (ts : List TypeId) : (unionOf ts).run h =
    match h.unionMembers ts with
    | [] => (.unknown, h)
    | [t] => (t, h)
    | ms => (⟨h.types.size⟩, { h with types := h.types.push (.union ms) }) := by
  show StateT.run (match h.unionMembers ts with
    | [] => _ | [t] => _ | ms => newType (.union ms) : HeapM TypeId) h = _
  split <;> rfl

theorem does_unionOf (ts : List TypeId) (hts : ∀ t ∈ ts, h.Has t) : Does h (unionOf ts) (h.Gathers ts) := by
  refine .of_sound fun hs => .get_bind ?_
  have hmem : ∀ m ∈ h.unionMembers ts, h.Has m ∧ ∀ ns, h.ty m ≠ .union ns := by
    intro m hm
    obtain ⟨t, ht, hm⟩ := Heap.mem_unionMembers hm
    exact hs.has_of_mem_members (hts t ht) hm
  have hkept : ∀ t ∈ ts, ∀ m ∈ h.members t, h.ty m ≠ .unknown → ∃ m' ∈ h.unionMembers ts, h.equal m' m = true :=
    fun t ht m hm hk => Heap.exists_equal_unionMembers ht hm hk
  split
  · rename_i hnil
    -- Without alternatives there were no types at all.
    have hts : ts = [] := by
      by_contra hts
      exact Heap.unionMembers_ne_nil hs hts hnil
    refine .pure ⟨hs.isValue_unknown.has, .refl h, fun m hm => .inl ⟨hts, ?_⟩, by simp [hts]⟩
    rw [Heap.members_of_not_union (by simp [hs.ty_unknown])] at hm
    exact List.mem_singleton.1 hm
  · rename_i w hone
    rw [hone] at hmem hkept
    -- A single alternative stands for itself.
    obtain ⟨hhas, hu⟩ := hmem w (List.mem_singleton.2 rfl)
    have hmembers : h.members w = [w] := Heap.members_of_not_union hu
    refine .pure ⟨hhas, .refl h, fun m hm => .inr ?_, fun t ht m hm hk => hmembers ▸ hkept t ht m hm hk⟩
    exact Heap.mem_unionMembers (hone ▸ hmembers ▸ hm)
  · rename_i hnil hone
    -- Several alternatives are put together in a new union.
    have hlen : 2 ≤ (h.unionMembers ts).length := by
      rcases hms : h.unionMembers ts with _ | ⟨m, _ | ⟨m', ms⟩⟩
      · exact absurd hms hnil
      · exact absurd hms (hone m)
      · simp
    have hfits : h.Fits (.union (h.unionMembers ts)) :=
      ⟨hlen, Heap.nodup_unionMembers ts, fun m hm => ⟨(hmem m hm).1, Heap.proper_unionMembers ts hlen m hm, (hmem m hm).2⟩⟩
    refine (does_newType _ hfits (h.pairwise_unionMembers ts)).mono fun w h' _ ⟨hty, hhas, honly⟩ => ?_
    have hmembers : h'.members w = h.unionMembers ts := Heap.members_of_union hty
    refine ⟨hhas, honly, fun m hm => .inr (Heap.mem_unionMembers (hmembers ▸ hm)), fun t ht m hm hk => ?_⟩
    rw [hmembers]
    exact hkept t ht m hm hk

theorem does_union (hu : h.Has u) (hv : h.Has v) : Does h (union u v) (h.Merges u v) := by
  refine .of_sound fun hs => .get_bind ?_
  have hunknown : ∀ {t}, h.isUnknown t = true → ∀ m ∈ h.members t, h.ty m = .unknown := by
    intro t ht m hm
    have hty := Heap.isUnknown_iff.1 ht
    rw [Heap.members_of_not_union (by simp [hty]), List.mem_singleton] at hm
    exact hm ▸ hty
  have hself : ∀ t, ∀ m ∈ h.members t, h.ty m ≠ .unknown → ∃ m' ∈ h.members t, h.equal m' m = true :=
    fun t m hm _ => ⟨m, hm, h.equal_self m⟩
  split
  · rename_i heq
    -- The first type stands for both, whatever alternatives the second has.
    exact .pure ⟨hu, .refl h, fun _ => .inl, hself u, fun m _ _ hne => by simp [heq] at hne⟩
  rename_i hne
  have hne : h.equal u v = false := by simpa using hne
  split
  · rename_i hun
    -- Nothing is known of the first type.
    exact .pure ⟨hv, .refl h, fun _ hm => .inr ⟨hm, hne⟩, fun m hm hk => absurd (hunknown hun m hm) hk,
      fun m hm hk _ => hself v m hm hk⟩
  split
  · rename_i hvn
    -- Nothing is known of the second type.
    exact .pure ⟨hu, .refl h, fun _ => .inl, hself u, fun m hm hk => absurd (hunknown hvn m hm) hk⟩
  · rename_i hun hvn
    refine (does_unionOf [u, v] (by simp [hu, hv])).mono fun w h' _ hg => ⟨hg.has, hg.only, fun m hm => ?_, ?_, ?_⟩
    · obtain ⟨t, ht, hm⟩ := (hg.within m hm).resolve_left fun hnil => List.cons_ne_nil _ _ hnil.1
      simp only [List.mem_cons, List.not_mem_nil, or_false] at ht
      rcases ht with rfl | rfl
      · exact .inl hm
      · exact .inr ⟨hm, hne⟩
    · exact hg.kept u (.head _)
    · exact fun m hm hk _ => hg.kept v (.tail _ (List.mem_singleton.2 rfl)) m hm hk

theorem unionOf_value (hts : ∀ t ∈ ts, h.IsValue t) :
    Does h (unionOf ts) fun w h' => h'.IsValue w :=
  .of_sound fun hs => (does_unionOf ts fun t ht => (hts t ht).has).mono fun _ _ _ hg => ⟨hg.has, fun hc => by
    obtain ⟨t, ht, hc⟩ := (hg.continues_iff hs).1 hc
    exact (hts t ht).unmarked hc⟩

theorem union_value (hu : h.IsValue u) (hv : h.IsValue v) : Does h (union u v) fun w h' => h'.IsValue w :=
  (does_union hu.has hv.has).mono fun _ _ _ hm => hm.isValue hu hv

theorem unionAll_value (hts : ∀ t ∈ ts, h.IsValue t) :
    Does h (unionAll ts) fun w h' => h'.IsValue w :=
  .of_sound fun hs => .foldlM (I := fun w h' => h'.IsValue w) ts
    (fun t ht _ _ he ha => union_value ha (he.isValue (hts t ht))) hs.isValue_unknown

theorem stripContinues_value (ht : h.Has t) (hv : h.IsValue v) :
    Does h (stripContinues t v) fun w h' => h'.IsValue w := by
  refine .of_sound fun hs => .get_bind ?_
  split
  · exact .pure hv
  rename_i hne
  have hne : t ≠ .continues := fun heq => hne (hs.equal_continues.2 heq)
  split
  · rename_i ms hty
    split
    · -- The alternatives are put together anew, with the given type in place of the marker.
      refine .foldlM (I := fun w h' => h'.IsValue w) ms (fun m hm acc h' he ha => ?_) hs.isValue_unknown
      refine .of_sound fun hs' => .get_bind ?_
      split
      · exact union_value ha (he.isValue hv)
      · rename_i hcm
        have hcm : m ≠ .continues := fun heq => hcm (hs'.equal_continues.2 heq)
        obtain ⟨hhas, hu⟩ := hs.has_of_mem_members ht (Heap.members_of_union hty ▸ hm)
        refine union_value ha (he.isValue ⟨hhas, ?_⟩)
        rw [Heap.members_of_not_union hu]
        simpa using hcm.symm
    · rename_i hm
      refine .pure ⟨ht, fun hc => hm ?_⟩
      rw [Heap.members_of_union hty] at hc
      exact List.any_eq_true.2 ⟨_, hc, hs.equal_continues.2 rfl⟩
  · rename_i hu
    refine .pure ⟨ht, ?_⟩
    rw [Heap.members_of_not_union hu]
    simpa using hne.symm

end Unions

end Concordance
