import Concordance.Proofs.Heap.Bisimulation
import Concordance.Proofs.Heap.Operations

/-!
# Merging two types

The union of two types has no alternatives but theirs. It keeps each of them, up to what comparisons take to be equal;
but those of the second type only if the two are not taken to be equal.
-/

namespace Concordance

namespace Heap

variable {h : Heap} {a b u v m : TypeId}

def merged (h : Heap) (u v : TypeId) : List TypeId := ((union u v).run h).2.members ((union u v).run h).1

def JudgesRightly (h : Heap) (ts : List TypeId) : Prop := ∀ a ∈ ts, ∀ b ∈ ts, h.equal a b = true → h.Same a b

/-- The types that are compared when two types are merged: themselves and their alternatives. -/
def compared (h : Heap) (u v : TypeId) : List TypeId := u :: v :: (h.members u ++ h.members v)

theorem mem_compared : a ∈ h.compared u v ↔ a = u ∨ a = v ∨ a ∈ h.members u ∨ a ∈ h.members v := by
  simp [compared]

theorem JudgesRightly.swap (hr : h.JudgesRightly (h.compared u v)) : h.JudgesRightly (h.compared v u) := by
  have hmem : ∀ {a}, a ∈ h.compared v u → a ∈ h.compared u v := by
    intro a ha
    rw [mem_compared] at ha ⊢
    tauto
  exact fun a ha b hb => hr a (hmem ha) b (hmem hb)

theorem run_union_of_equal (heq : h.equal u v = true) : (union u v).run h = (u, h) := by
  rw [run_union, if_pos heq]

theorem judgesRightly_of_unionFree (hfree : ∀ m, m ∈ h.members u ∨ m ∈ h.members v → h.UnionFree m)
    (hunions : ∀ ms ns, h.ty u = .union ms → h.ty v = .union ns → h.equal u v = false ∧ h.equal v u = false) :
    h.JudgesRightly (h.compared u v) := by
  have hsingle : ∀ m, m ∈ h.members u ∨ m ∈ h.members v → ∀ ms, h.ty m ≠ .union ms := fun m hm => hfree m hm m .refl
  have hmember : ∀ {t}, (∀ ms, h.ty t ≠ .union ms) → t ∈ h.members t := fun ht =>
    members_of_not_union ht ▸ List.mem_singleton.2 rfl
  intro a ha b hb heq
  by_cases hab : a = b
  · exact hab ▸ .refl h a
  by_cases hunion : ∃ ms, h.ty a = .union ms
  · -- Only one of the two types can be a union, and only the other one can be taken to be equal to it.
    obtain ⟨ms, hms⟩ := hunion
    have hb' : ∃ ns, h.ty b = .union ns := by
      by_contra hno
      exact not_union_of_equal heq hab (fun ns hns => hno ⟨ns, hns⟩) ms hms
    obtain ⟨ns, hns⟩ := hb'
    -- Of the types that are compared only the two parts themselves can be unions.
    have hends : ∀ t, t ∈ h.compared u v → (∃ ms, h.ty t = .union ms) → t = u ∨ t = v := by
      rintro t ht ⟨ms, hms⟩
      rcases mem_compared.1 ht with rfl | rfl | hm
      · exact .inl rfl
      · exact .inr rfl
      · exact absurd hms (hsingle t hm ms)
    rcases hends a ha ⟨ms, hms⟩ with rfl | rfl <;> rcases hends b hb ⟨ns, hns⟩ with rfl | rfl
    · exact absurd rfl hab
    · simp [(hunions ms ns hms hns).1] at heq
    · simp [(hunions ns ms hns hms).2] at heq
    · exact absurd rfl hab
  · have hnot : ∀ ms, h.ty a ≠ .union ms := fun ms hms => hunion ⟨ms, hms⟩
    refine (hfree a ?_).same heq
    rcases mem_compared.1 ha with rfl | rfl | hm
    · exact .inl (hmember hnot)
    · exact .inr (hmember hnot)
    · exact hm

section Merged

variable (hs : h.IsSound) (hu : h.Has u) (hv : h.Has v)
include hs hu hv

theorem merges_merged : h.Merges u v ((union u v).run h).1 ((union u v).run h).2 := ((does_union hu hv).run hs).2

theorem mem_of_mem_merged (hm : m ∈ h.merged u v) : m ∈ h.members u ∨ m ∈ h.members v :=
  ((merges_merged hs hu hv).within m hm).imp_right And.left

theorem exists_same_merged (hr : h.JudgesRightly (h.compared u v)) (hm : m ∈ h.members u ∨ m ∈ h.members v)
    (hk : h.ty m ≠ .unknown) : ∃ m' ∈ h.merged u v, h.Same m' m := by
  have hmerges := merges_merged hs hu hv
  have hsame : ∀ m' ∈ h.merged u v, h.equal m' m = true → h.Same m' m := by
    intro m' hm' heq
    refine hr m' (mem_compared.2 ?_) m (mem_compared.2 (.inr (.inr hm))) heq
    exact .inr (.inr (mem_of_mem_merged hs hu hv hm'))
  by_cases heq : h.equal u v = true
  · -- The union is the first type, which has the alternatives of the second if the two are the same.
    have hmerged : h.merged u v = h.members u := by rw [merged, run_union_of_equal heq]
    rw [hmerged]
    rcases hm with hm | hm
    · exact ⟨m, hm, .refl h m⟩
    · exact (hr u (mem_compared.2 (.inl rfl)) v (mem_compared.2 (.inr (.inl rfl))) heq).exists_of_mem hm
  · obtain ⟨m', hm', heq'⟩ : ∃ m' ∈ h.merged u v, h.equal m' m = true := by
      rcases hm with hm | hm
      · exact hmerges.left m hm hk
      · exact hmerges.right m hm hk (by simpa using heq)
    exact ⟨m', hm', hsame m' hm' heq'⟩

theorem merged_ne_nil : h.merged u v ≠ [] := (((does_union hu hv).run hs).1.isSound hs).members_ne_nil _

theorem unknown_of_mem_merged (hm : m ∈ h.merged u v) (hunknown : h.ty m = .unknown) :
    ∀ n, n ∈ h.members u ∨ n ∈ h.members v → h.ty n = .unknown := by
  have hmerges := merges_merged hs hu hv
  have hs' := ((does_union hu hv).run hs).1.isSound hs
  -- In a sound heap the alternatives of the union are known if the union is.
  have hall : ∀ n ∈ h.merged u v, h.ty n = .unknown := by
    intro n hn
    by_contra hk
    have hty : ∀ x ∈ h.merged u v, ((union u v).run h).2.ty x = h.ty x := fun x hx =>
      hmerges.only.holds.types x (hmerges.has_member hs hu hv hx)
    have hwhole : ((union u v).run h).2.ty ((union u v).run h).1 ≠ .unknown := by
      intro hw
      have hsingle := members_of_not_union (h := ((union u v).run h).2) (t := ((union u v).run h).1) (by simp [hw])
      have hn' : n ∈ [((union u v).run h).1] := hsingle ▸ hn
      rw [List.mem_singleton] at hn'
      exact hk (hty n hn ▸ hn' ▸ hw)
    exact hs'.known_of_mem_members hwhole hm (hty m hm ▸ hunknown)
  have hjudged : ∀ {n m'}, m' ∈ h.merged u v → h.equal m' n = true → h.ty n = .unknown := by
    intro n m' hm' heq
    by_contra hk
    exact known_of_equal heq hk (hall m' hm')
  have hleft : ∀ n ∈ h.members u, h.ty n = .unknown := by
    intro n hn
    by_contra hk
    obtain ⟨m', hm', heq⟩ := hmerges.left n hn hk
    exact hk (hjudged hm' heq)
  rintro n (hn | hn)
  · exact hleft n hn
  · by_contra hk
    -- If the two were taken to be equal, the first would be known as the second is.
    have hne : h.equal u v = false := by
      by_contra heq
      have hkv : h.ty v ≠ .unknown := by
        intro hv'
        rw [members_of_not_union (by simp [hv']), List.mem_singleton] at hn
        exact hk (hn ▸ hv')
      have hku : h.ty u ≠ .unknown := known_of_equal (by simpa using heq) hkv
      obtain ⟨x, hx⟩ := List.exists_mem_of_ne_nil _ (hs.members_ne_nil u)
      exact hs.known_of_mem_members hku hx (hleft x hx)
    obtain ⟨m', hm', heq⟩ := hmerges.right n hn hk hne
    exact hk (hjudged hm' heq)

theorem exists_same_swapped (hr : h.JudgesRightly (h.compared u v)) (hm : m ∈ h.merged u v) :
    ∃ m' ∈ h.merged v u, h.Same m' m := by
  have hmem := mem_of_mem_merged hs hu hv hm
  by_cases hk : h.ty m = .unknown
  · obtain ⟨m', hm'⟩ := List.exists_mem_of_ne_nil _ (merged_ne_nil hs hv hu)
    have hunknown := unknown_of_mem_merged hs hu hv hm hk m' (mem_of_mem_merged hs hv hu hm').symm
    exact ⟨m', hm', same_of_unknown hunknown hk⟩
  · exact exists_same_merged hs hv hu hr.swap hmem.symm hk

end Merged

end Heap

open Heap in
/-- The alternatives of a union are those of its parts. Those of the first part are kept up to what is taken to be equal,
and those of the second, too, unless the two parts are taken to be equal. Where comparisons judge rightly, all of
them are kept, and the union is the same the other way round. Comparisons judge rightly where there are no unions
inside and the two parts are not unions that are taken to be equal. -/
theorem union_exact {h : Heap} {u v : TypeId} (hs : h.IsSound) (hu : h.Has u) (hv : h.Has v) :
    (∀ m ∈ h.merged u v, m ∈ h.members u ∨ m ∈ h.members v) ∧
    (∀ m ∈ h.members u, h.ty m ≠ .unknown → ∃ m' ∈ h.merged u v, h.equal m' m = true) ∧
    (h.equal u v = false → ∀ m ∈ h.members v, h.ty m ≠ .unknown → ∃ m' ∈ h.merged u v, h.equal m' m = true) ∧
    (h.JudgesRightly (h.compared u v) →
      (∀ m, m ∈ h.members u ∨ m ∈ h.members v → h.ty m ≠ .unknown → ∃ m' ∈ h.merged u v, h.Same m' m) ∧
      (∀ m ∈ h.merged u v, ∃ m' ∈ h.merged v u, h.Same m' m) ∧
      ∀ m ∈ h.merged v u, ∃ m' ∈ h.merged u v, h.Same m' m) ∧
    ((∀ m, m ∈ h.members u ∨ m ∈ h.members v → h.UnionFree m) →
      (∀ ms ns, h.ty u = .union ms → h.ty v = .union ns → h.equal u v = false ∧ h.equal v u = false) →
      h.JudgesRightly (h.compared u v)) := by
  have hmerges := merges_merged hs hu hv
  refine ⟨fun m => mem_of_mem_merged hs hu hv, hmerges.left, fun hne m hm hk => hmerges.right m hm hk hne,
    fun hr => ⟨fun m => exists_same_merged hs hu hv hr, fun m => exists_same_swapped hs hu hv hr,
      fun m => exists_same_swapped hs hv hu hr.swap⟩, judgesRightly_of_unionFree⟩

section Examples

def Heap.withTypes (r s : Recipe) : Heap := ((buildAll [r, s]).run Heap.initial).2

theorem Heap.withTypes_isSound (hr : r.Plain) (hs : s.Plain) : (Heap.withTypes r s).IsSound :=
  ((buildAll_value [r, s] ⟨hr, hs, trivial⟩).run Heap.initial_isSound).1.isSound Heap.initial_isSound

/-- Two unions: a list of numbers or a text, and a text or a tuple with a number. -/
def overlapping : Heap :=
  .withTypes (.union [.list (.existing .int), .existing .str]) (.union [.existing .str, .tuple [.existing .int]])

theorem union_exact_overlapping : overlapping.IsSound ∧ overlapping.Has ⟨10⟩ ∧ overlapping.Has ⟨12⟩ ∧
    (∀ m ∈ overlapping.members ⟨12⟩, ∃ m' ∈ overlapping.merged ⟨10⟩ ⟨12⟩, overlapping.Same m' m) ∧
    ∀ m ∈ overlapping.merged ⟨12⟩ ⟨10⟩, ∃ m' ∈ overlapping.merged ⟨10⟩ ⟨12⟩, overlapping.Same m' m := by
  have hs : overlapping.IsSound := Heap.withTypes_isSound (by simp [Recipe.Plain, Recipe.AllPlain]; decide)
    (by simp [Recipe.Plain, Recipe.AllPlain]; decide)
  have hu : overlapping.Has ⟨10⟩ := show 10 < overlapping.types.size by decide
  have hv : overlapping.Has ⟨12⟩ := show 12 < overlapping.types.size by decide
  have hinside : ∀ m ∈ overlapping.members ⟨10⟩ ++ overlapping.members ⟨12⟩, m ∈ [⟨9⟩, .str, ⟨11⟩, .int] := by decide
  have hfree : ∀ m, m ∈ overlapping.members ⟨10⟩ ∨ m ∈ overlapping.members ⟨12⟩ → overlapping.UnionFree m :=
    fun m hm => hs.unionFree (by decide) (by decide) (hinside m (List.mem_append.2 hm))
  obtain ⟨_, _, _, hexact, hright⟩ := union_exact hs hu hv
  obtain ⟨hkept, _, hswapped⟩ := hexact (hright hfree fun _ _ _ _ => by decide)
  have hknown : ∀ m ∈ overlapping.members ⟨12⟩, overlapping.ty m ≠ .unknown := by decide
  exact ⟨hs, hu, hv, fun m hm => hkept m (.inr hm) (hknown m hm), hswapped⟩

/-- Two unions, each of two lists and a tuple. They differ in what the tuple holds. -/
def crossed : Heap :=
  .withTypes (.union [.list (.existing .int), .tuple [.existing .int], .list (.existing .str)])
    (.union [.list (.existing .str), .list (.existing .int), .tuple [.existing .str]])

theorem crossed_types : crossed.types.size = 17 ∧ crossed.ty .int = .scalar "int" ∧ crossed.ty .str = .scalar "str" ∧
    crossed.ty ⟨9⟩ = .list .int none ∧ crossed.ty ⟨10⟩ = .tuple [.int] ∧ crossed.ty ⟨11⟩ = .list .str none ∧
    crossed.ty ⟨15⟩ = .tuple [.str] ∧ crossed.members ⟨16⟩ = [⟨13⟩, ⟨14⟩, ⟨15⟩] ∧
    crossed.merged ⟨12⟩ ⟨16⟩ = [⟨9⟩, ⟨10⟩, ⟨11⟩] := by decide +kernel

/-- The tuple of the second union is lost. A number and a text are compared for the lists; when they are met again for
the tuples they are taken to be equal. -/
theorem union_loses_alternative : ∃ (h : Heap) (u v m : TypeId), h.IsSound ∧ h.Has u ∧ h.Has v ∧ m ∈ h.members v ∧
    h.ty m ≠ .unknown ∧ ∀ m' ∈ h.merged u v, ¬ h.Same m' m := by
  obtain ⟨hsize, hint, hstr, hlist, htuple, hlist', htuple', hmembers, hmerged⟩ := crossed_types
  have hs : crossed.IsSound := Heap.withTypes_isSound (by simp [Recipe.Plain, Recipe.AllPlain]; decide)
    (by simp [Recipe.Plain, Recipe.AllPlain]; decide)
  generalize crossed = h at *
  have hscalar : ¬ h.Same .int .str := fun hsame => by
    rcases hsame.alike (by simp [hint]) (by simp [hstr]) with heq | hbuilt
    · exact absurd heq (by decide)
    · rw [hint, hstr] at hbuilt
      exact absurd (show "int" = "str" from hbuilt) (by decide)
  have hbuilt : ∀ {m'}, h.Same m' ⟨15⟩ → m' ≠ ⟨15⟩ → (∀ ms, h.ty m' ≠ .union ms) →
      h.BuiltAlike h.Same (h.ty m') (.tuple [.str]) := fun hsame hne hnot =>
    htuple' ▸ (hsame.alike hnot (by simp [htuple'])).resolve_left hne
  refine ⟨h, ⟨12⟩, ⟨16⟩, ⟨15⟩, hs, by simp [Heap.Has, hsize], by simp [Heap.Has, hsize], by simp [hmembers],
    by simp [htuple'], fun m' hm' hsame => ?_⟩
  rw [hmerged] at hm'
  simp only [List.mem_cons, List.not_mem_nil, or_false] at hm'
  rcases hm' with rfl | rfl | rfl
  · have hlists := hbuilt hsame (by decide) (by simp [hlist])
    rwa [hlist] at hlists
  · have htuples := hbuilt hsame (by decide) (by simp [htuple])
    rw [htuple] at htuples
    exact hscalar (List.forall₂_cons.1 htuples).1
  · have hlists := hbuilt hsame (by decide) (by simp [hlist'])
    rwa [hlist'] at hlists

end Examples

end Concordance
