import Concordance.Proofs.Heap.Equality

/-!
# Types that are the same

Two types are the same if no way of looking at them tells them apart: they have the same alternatives, and these are
built alike from types that are the same.
-/

namespace Concordance

namespace Heap

variable {h : Heap} {R : TypeId → TypeId → Prop} {a b m n : TypeId} {t : Ty}

/-- Two alternatives cannot be told apart, given what cannot be told apart among their parts. -/
def Alike (h : Heap) (R : TypeId → TypeId → Prop) (m n : TypeId) : Prop := m = n ∨ h.BuiltAlike R (h.ty m) (h.ty n)

/-- A relation between types that have the same alternatives, up to the relation itself. -/
def IsBisimulation (h : Heap) (R : TypeId → TypeId → Prop) : Prop := ∀ a b, R a b →
  (∀ m ∈ h.members a, ∃ n ∈ h.members b, h.Alike R m n) ∧ ∀ n ∈ h.members b, ∃ m ∈ h.members a, h.Alike R m n

def Same (h : Heap) (a b : TypeId) : Prop := ∃ R, h.IsBisimulation R ∧ R a b

theorem BuiltAlike.not_union (hst : h.BuiltAlike R s t) : (∀ ms, s ≠ .union ms) ∧ ∀ ms, t ≠ .union ms := by
  cases s <;> cases t <;> first | exact hst.elim | exact ⟨by simp, by simp⟩

theorem BuiltAlike.matches (hmn : h.BuiltAlike R (h.ty m) (h.ty n)) :
    (∀ x ∈ h.members m, ∃ y ∈ h.members n, h.Alike R x y) ∧ ∀ y ∈ h.members n, ∃ x ∈ h.members m, h.Alike R x y := by
  obtain ⟨hm, hn⟩ := hmn.not_union
  simp only [members_of_not_union hm, members_of_not_union hn, List.mem_singleton, exists_eq_left, forall_eq]
  exact ⟨.inr hmn, .inr hmn⟩

theorem matches_self (a : TypeId) :
    (∀ m ∈ h.members a, ∃ n ∈ h.members a, h.Alike R m n) ∧ ∀ n ∈ h.members a, ∃ m ∈ h.members a, h.Alike R m n :=
  ⟨fun m hm => ⟨m, hm, .inl rfl⟩, fun n hn => ⟨n, hn, .inl rfl⟩⟩

theorem Same.refl (h : Heap) (a : TypeId) : h.Same a a := by
  refine ⟨Eq, ?_, rfl⟩
  rintro a _ rfl
  exact matches_self a

theorem Bisimilar.same (hab : h.Bisimilar a b) : h.Same a b := by
  refine ⟨h.Bisimilar, fun x y hxy => ?_, hab⟩
  rcases hxy.corresponds with rfl | ⟨_, hbuilt⟩
  · exact matches_self x
  · exact hbuilt.matches

theorem IsBisimulation.same (hR : h.IsBisimulation R) (hmn : h.BuiltAlike R (h.ty m) (h.ty n)) : h.Same m n := by
  -- The pair itself is added to the relation.
  have hmono : ∀ x y, R x y → R x y ∨ x = m ∧ y = n := fun _ _ => .inl
  have hlift : ∀ x y, h.Alike R x y → h.Alike (fun x y => R x y ∨ x = m ∧ y = n) x y := fun _ _ =>
    Or.imp_right (BuiltAlike.mono hmono)
  refine ⟨fun x y => R x y ∨ x = m ∧ y = n, ?_, .inr ⟨rfl, rfl⟩⟩
  rintro x y (hxy | ⟨rfl, rfl⟩)
  · obtain ⟨hleft, hright⟩ := hR x y hxy
    refine ⟨fun c hc => ?_, fun d hd => ?_⟩
    · obtain ⟨d, hd, hcd⟩ := hleft c hc
      exact ⟨d, hd, hlift c d hcd⟩
    · obtain ⟨c, hc, hcd⟩ := hright d hd
      exact ⟨c, hc, hlift c d hcd⟩
  · exact (hmn.mono hmono).matches

theorem Same.exists_of_mem (hab : h.Same a b) (hn : n ∈ h.members b) : ∃ m ∈ h.members a, h.Same m n := by
  obtain ⟨R, hR, hab⟩ := hab
  obtain ⟨m, hm, heq | hbuilt⟩ := (hR a b hab).2 n hn
  · exact ⟨m, hm, heq ▸ .refl h m⟩
  · exact ⟨m, hm, hR.same hbuilt⟩

theorem Same.alike (hab : h.Same a b) (ha : ∀ ms, h.ty a ≠ .union ms) (hb : ∀ ms, h.ty b ≠ .union ms) :
    h.Alike h.Same a b := by
  obtain ⟨R, hR, hab⟩ := hab
  have hmatch := (hR a b hab).1
  simp only [members_of_not_union ha, members_of_not_union hb, List.mem_singleton, exists_eq_left, forall_eq] at hmatch
  exact hmatch.imp_right (BuiltAlike.mono fun _ _ hxy => ⟨R, hR, hxy⟩)

theorem same_of_unknown (ha : h.ty a = .unknown) (hb : h.ty b = .unknown) : h.Same a b := by
  have hR : h.IsBisimulation fun _ _ => False := fun _ _ hab => hab.elim
  refine hR.same ?_
  rw [ha, hb]
  trivial

section Comparisons

/-- Two types that a comparison takes to be equal: they are identical, or it has met them. -/
def Met (met : MetPairs) (a b : TypeId) : Prop := a = b ∨ (a, b) ∈ met

/-- A comparison without unions that finds no difference: it has met what `Q` says, and every pair that it has met
corresponds. -/
structure Finds (h : Heap) (x : StateM MetPairs Bool) (Q : MetPairs → Prop) : Prop where
  run : ∀ met, (x.run met).1 = true → met ⊆ (x.run met).2 ∧ Q (x.run met).2 ∧
    ∀ p ∈ (x.run met).2, p ∈ met ∨ h.Corresponds (Met (x.run met).2) p.1 p.2

theorem Met.mono (hsub : met ⊆ met') (hab : Met met a b) : Met met' a b := hab.imp_right (hsub ·)

namespace Finds

variable {x : StateM MetPairs Bool}

theorem verdict (hQ : c = true → ∀ met, Q met) : Finds h (Pure.pure c) Q :=
  ⟨fun met hc => ⟨fun _ hp => hp, hQ hc met, fun _ hp => .inl hp⟩⟩

theorem mono (hx : Finds h x P) (hPQ : ∀ met, P met → Q met) : Finds h x Q := by
  refine ⟨fun met hc => ?_⟩
  obtain ⟨hsub, hP, hpairs⟩ := hx.run met hc
  exact ⟨hsub, hPQ _ hP, hpairs⟩

theorem bind (hx : Finds h x P) (hf : Finds h (f true) Q)
    (hfalse : f false = Pure.pure false) (hP : ∀ {met met'}, met ⊆ met' → P met → P met') :
    Finds h (x >>= f) fun met => P met ∧ Q met := by
  refine ⟨fun met hc => ?_⟩
  have hbind : (x >>= f).run met = (f (x.run met).1).run (x.run met).2 := rfl
  rw [hbind] at hc ⊢
  cases hverdict : (x.run met).1 with
  | false =>
    rw [hverdict, hfalse] at hc
    cases hc
  | true =>
    rw [hverdict] at hc
    obtain ⟨hsub, hp, hpairs⟩ := hx.run met hverdict
    obtain ⟨hsub', hq, hpairs'⟩ := hf.run _ hc
    refine ⟨fun p hp => hsub' (hsub hp), ⟨hP hsub' hp, hq⟩, fun p hp => ?_⟩
    -- What corresponds does so when more pairs are met.
    rcases hpairs' p hp with hp | hpair
    · exact (hpairs p hp).imp_right (Corresponds.mono fun _ _ => Met.mono hsub')
    · exact .inr hpair

theorem allM {α : Type} {f : α → StateM MetPairs Bool} {P : α → MetPairs → Prop} (xs : List α)
    (hf : ∀ x ∈ xs, Finds h (f x) (P x)) (hP : ∀ x {met met'}, met ⊆ met' → P x met → P x met') :
    Finds h (xs.allM f) fun met => ∀ x ∈ xs, P x met := by
  induction xs with
  | nil => exact verdict fun _ _ => by simp
  | cons x xs ih =>
    have hrest := ih fun y hy => hf y (.tail _ hy)
    let next : Bool → StateM MetPairs Bool := fun b => match b with
      | true => xs.allM f
      | false => Pure.pure false
    have hboth : Finds h (f x >>= next) _ := (hf x (.head _)).bind hrest rfl (hP x)
    exact hboth.mono fun _ hall => List.forall_mem_cons.2 hall

end Finds

theorem compareParts_finds (hs : ∀ ms, s ≠ .union ms) (hsub : ∀ a ∈ s.parts, ∀ b, Finds h (sub a b) (Met · a b)) :
    Finds h (h.compareParts sub s t) fun met => (∀ c, s ≠ .classObject c) ∧ h.BuiltAlike (Met met) s t := by
  have hmono : ∀ a b {met met' : MetPairs}, met ⊆ met' → Met met a b → Met met' a b := fun _ _ _ _ => Met.mono
  unfold compareParts
  split
  case h_1 | h_2 => exact .verdict fun _ _ => ⟨by simp, trivial⟩
  case h_3 => exact .verdict fun h _ => ⟨by simp, beq_iff_eq.1 h⟩
  case h_4 => exact (hsub _ (List.mem_singleton.2 rfl) _).mono fun _ hmet => ⟨by simp, hmet⟩
  case h_5 es fs =>
    split
    · rename_i hlen
      refine (Finds.allM (P := fun p met => Met met p.1 p.2) _ (fun p hp => ?_) fun p => hmono p.1 p.2).mono fun met hall => ?_
      · exact hsub p.1 (List.of_mem_zip hp).1 p.2
      · exact ⟨by simp, List.forall₂_iff_zip.2 ⟨hlen, fun {a b} hab => hall (a, b) hab⟩⟩
    · exact .verdict nofun
  case h_6 k v l w =>
    have hk := hsub k (.head _) l
    have hv := hsub v (.tail _ (List.mem_singleton.2 rfl)) w
    refine Finds.mono (P := fun met => Met met k l ∧ Met met v w) ?_ fun _ hmet => ⟨by simp, hmet⟩
    exact hk.bind hv rfl (hmono k l)
  case h_7 | h_9 => exact .verdict fun h _ => ⟨by simp, h⟩
  case h_8 => exact .verdict fun h _ => ⟨by simp, beq_iff_eq.1 h⟩
  case h_10 es fs => exact absurd rfl (hs es)
  all_goals exact .verdict nofun

def UnionFree (h : Heap) (a : TypeId) : Prop :=
  ∀ b, Relation.ReflTransGen (fun x y => y ∈ (h.ty x).parts) a b → ∀ ms, h.ty b ≠ .union ms

theorem UnionFree.part (ha : h.UnionFree a) (hb : b ∈ (h.ty a).parts) : h.UnionFree b :=
  fun c hc => ha c (.head hb hc)

theorem unionFree_of_closed {ts : List TypeId} (closed : ∀ x ∈ ts, ∀ y ∈ (h.ty x).parts, y ∈ ts)
    (single : ∀ x ∈ ts, ∀ ms, h.ty x ≠ .union ms) (ha : a ∈ ts) : h.UnionFree a := by
  intro b hb
  refine single b ?_
  induction hb with
  | refl => exact ha
  | tail _ hpart ih => exact closed _ ih _ hpart

theorem IsSound.unionFree (hs : h.IsSound) {ts : List TypeId} (closed : ∀ x ∈ ts, ∀ y ∈ (h.ty x).parts, y ∈ ts)
    (single : ∀ x ∈ ts, h.members x = [x]) (ha : a ∈ ts) : h.UnionFree a :=
  unionFree_of_closed closed (fun x hx => hs.not_union_of_members (single x hx)) ha

theorem compare_finds (fuel : Nat) (ha : h.UnionFree a) (b : TypeId) : Finds h (h.compare fuel a b) (Met · a b) := by
  induction fuel generalizing a b with
  | zero => exact .verdict nofun
  | succ fuel ih =>
    refine ⟨fun met hc => ?_⟩
    rw [compare_succ] at hc ⊢
    by_cases hmet : a = b ∨ (a, b) ∈ met
    · rw [if_pos hmet]
      exact ⟨fun _ hp => hp, hmet, fun _ hp => .inl hp⟩
    · rw [if_neg hmet] at hc ⊢
      -- The pair counts as met while its parts are compared; once they are, it is built alike.
      have hparts := compareParts_finds (t := h.ty b) (ha a .refl) fun c hc d => ih (ha.part hc) d
      obtain ⟨hsub, hbuilt, hpairs⟩ := hparts.run _ hc
      refine ⟨fun p hp => hsub (.tail _ hp), .inr (hsub (.head _)), fun p hp => ?_⟩
      rcases hpairs p hp with hp | hpair
      · rcases List.mem_cons.1 hp with rfl | hp
        · exact .inr (.inr hbuilt)
        · exact .inl hp
      · exact .inr hpair

theorem not_union_of_equal (heq : h.equal a b = true) (hne : a ≠ b) (hb : ∀ ms, h.ty b ≠ .union ms) (ms : List TypeId) :
    h.ty a ≠ .union ms := by
  intro ha
  have hrun : ((h.compare h.compareFuel a b).run []).1 = true := by simpa [equal, hne] using heq
  rw [compareFuel, compare_succ, if_neg (by simp [hne]), ha] at hrun
  cases hty : h.ty b with
  | union ns => exact hb ns hty
  | _ =>
    rw [hty] at hrun
    cases hrun

theorem UnionFree.bisimilar (ha : h.UnionFree a) (heq : h.equal a b = true) : h.Bisimilar a b := by
  by_cases hab : a = b
  · exact hab ▸ .refl h a
  have hc : ((h.compare h.compareFuel a b).run []).1 = true := by simpa [equal, hab] using heq
  obtain ⟨_, hmet, hpairs⟩ := (compare_finds h.compareFuel ha b).run [] hc
  -- The pairs that were met, with those of a type and itself, are the bisimulation.
  refine bisimilar_of_corresponds ?_ hmet
  rintro x y (rfl | hxy)
  · exact .inl rfl
  · exact (hpairs (x, y) hxy).resolve_left List.not_mem_nil

theorem UnionFree.same (ha : h.UnionFree a) (heq : h.equal a b = true) : h.Same a b := (ha.bisimilar heq).same

/-- A comparison ends: with any more fuel than it is given it does the same. Between types without unions inside it tells
exactly whether they are bisimilar, hence there it is an equivalence. -/
theorem equal_decides_bisimilarity (h : Heap) :
    (∀ a b fuel, h.compareFuel ≤ fuel → (h.compare fuel a b).run [] = (h.compare h.compareFuel a b).run []) ∧
      (∀ a b, h.UnionFree a → h.UnionFree b → (h.equal a b = true ↔ h.Bisimilar a b)) ∧
      Equivalence fun a b : { t // h.UnionFree t } => h.equal a b = true := by
  have hiff : ∀ a b, h.UnionFree a → (h.equal a b = true ↔ h.Bisimilar a b) := fun _ _ ha =>
    ⟨ha.bisimilar, Bisimilar.equal⟩
  refine ⟨fun a b fuel hfuel => compare_of_le hfuel a b, fun a b ha _ => hiff a b ha, ⟨?_, ?_, ?_⟩⟩
  · exact fun a => equal_self h a
  · intro a b hab
    have hsim : h.Bisimilar a b := (hiff a b a.2).1 hab
    exact hsim.symm.equal
  · intro a b c hab hbc
    have hsim : h.Bisimilar a c := ((hiff a b a.2).1 hab).trans ((hiff b c b.2).1 hbc)
    exact hsim.equal

/-- Two lists that hold each other, a list that holds itself, and a list of a dictionary that holds the list. -/
def knotted : Heap :=
  { Heap.initial with
    types := Heap.initial.types ++
      #[.list ⟨10⟩ none, .list ⟨9⟩ none, .list ⟨11⟩ none, .list ⟨13⟩ none, .dict ⟨12⟩ ⟨12⟩] }

/-- The lists of lists are bisimilar. The list of a dictionary is told apart from them by its element. -/
theorem equal_decides_bisimilarity_knotted :
    (∀ t ∈ [⟨9⟩, ⟨10⟩, ⟨11⟩, ⟨12⟩, ⟨13⟩], knotted.UnionFree t) ∧ knotted.Bisimilar ⟨9⟩ ⟨11⟩ ∧
      knotted.Bisimilar ⟨9⟩ ⟨10⟩ ∧ ¬ knotted.Bisimilar ⟨9⟩ ⟨12⟩ := by
  have hfree : ∀ t ∈ [⟨9⟩, ⟨10⟩, ⟨11⟩, ⟨12⟩, ⟨13⟩], knotted.UnionFree t := by
    have hwide : ∀ t ∈ [⟨9⟩, ⟨10⟩, ⟨11⟩, ⟨12⟩, ⟨13⟩], (knotted.ty t).isWidenable = true := by decide
    refine fun t ht => unionFree_of_closed (by decide) (fun x hx ms hms => ?_) ht
    have hx := hwide x hx
    rw [hms] at hx
    cases hx
  obtain ⟨_, hiff, _⟩ := equal_decides_bisimilarity knotted
  refine ⟨hfree, (hiff _ _ (hfree _ ?_) (hfree _ ?_)).1 ?_, (hiff _ _ (hfree _ ?_) (hfree _ ?_)).1 ?_, fun hsim => ?_⟩
  case refine_7 => exact absurd ((hiff _ _ (hfree _ (by decide)) (hfree _ (by decide))).2 hsim) (by decide +kernel)
  all_goals decide +kernel

end Comparisons

end Heap

end Concordance
