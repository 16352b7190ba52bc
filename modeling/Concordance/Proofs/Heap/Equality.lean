import Mathlib.Data.Finset.Prod
import Concordance.Proofs.Heap.Bisimilarity

/-!
# Comparisons

A comparison meets every pair of types at most once, so the fuel that it is given is never used up. Hence it finds no
difference between bisimilar types.
-/

namespace Concordance

variable {a b : TypeId} {s t : Ty}

namespace Ty

def parts : Ty → List TypeId
  | .list e _ => [e]
  | .tuple es => es
  | .dict k v => [k, v]
  | .union ms => ms
  | _ => []

def isWidenable : Ty → Bool
  | .list .. | .dict .. => true
  | _ => false

end Ty

namespace Heap

variable {h h' : Heap}

def compareParts (h : Heap) (sub : TypeId → TypeId → StateM MetPairs Bool) : Ty → Ty → StateM MetPairs Bool
  | .unknown, .unknown | .continues, .continues => return true
  | .scalar m, .scalar n => return m == n
  | .list e _, .list f _ => sub e f
  | .tuple es, .tuple fs => if es.length = fs.length then (es.zip fs).allM fun p => sub p.1 p.2 else return false
  | .dict k v, .dict l w => do if ← sub k l then sub v w else return false
  | .function f _, .function g _ => return h.sameFunction f g
  | .object c _, .object d _ => return c == d
  | .module m, .module n => return h.sameFile m n
  | .union es, .union fs =>
    if es.length = fs.length then es.allM fun e => fs.anyM fun f => sub e f else return false
  | _, _ => return false

theorem compare_succ (fuel : Nat) (a b : TypeId) (met : MetPairs) : (h.compare (fuel + 1) a b).run met =
    if a = b ∨ (a, b) ∈ met then (true, met)
    else (h.compareParts (h.compare fuel) (h.ty a) (h.ty b)).run ((a, b) :: met) := by
  by_cases hab : a = b
  · simp [compare, hab]
    rfl
  · by_cases hmet : (a, b) ∈ met
    · simp [compare, hab, hmet]
      rfl
    · simp only [hab, hmet, or_self, if_false]
      -- The state is unfolded as far as the list of the pairs met.
      show (h.compare (fuel + 1) a b) met = _
      simp only [compare, hab, if_false]
      show (if (a, b) ∈ met then _ else _ : StateM MetPairs Bool) met = _
      rw [if_neg hmet]
      unfold compareParts
      cases h.ty a <;> cases h.ty b <;> rfl

def existing (h : Heap) (met : MetPairs) : MetPairs :=
  met.filter fun p => p.1.index < h.types.size && p.2.index < h.types.size

theorem length_existing_le (hm : met.Nodup) : (h.existing met).length ≤ h.types.size * h.types.size := by
  let place : TypeId × TypeId → Nat × Nat := fun p => (p.1.index, p.2.index)
  have hinj : Function.Injective place := by
    rintro ⟨⟨a⟩, ⟨b⟩⟩ ⟨⟨c⟩, ⟨d⟩⟩ heq
    simpa [place] using heq
  have hsub : ((h.existing met).map place).toFinset ⊆ Finset.range h.types.size ×ˢ Finset.range h.types.size := by
    intro q hq
    obtain ⟨p, hp, rfl⟩ := List.mem_map.1 (List.mem_toFinset.1 hq)
    have hboth := (List.mem_filter.1 hp).2
    rw [Bool.and_eq_true, decide_eq_true_iff, decide_eq_true_iff] at hboth
    exact Finset.mem_product.2 ⟨Finset.mem_range.2 hboth.1, Finset.mem_range.2 hboth.2⟩
  calc (h.existing met).length = ((h.existing met).map place).toFinset.card := by
        rw [existing, List.toFinset_card_of_nodup ((hm.filter _).map hinj), List.length_map]
    _ ≤ (Finset.range h.types.size ×ˢ Finset.range h.types.size).card := Finset.card_le_card hsub
    _ = h.types.size * h.types.size := by rw [Finset.card_product, Finset.card_range]

theorem has_of_mem_parts (hx : x ∈ (h.ty a).parts) : h.Has a := by
  refine has_of_ty_ne fun ha => ?_
  rw [ha] at hx
  cases hx

/-- Two comparisons do the same where at least `k` pairs of types that exist have been met, and meet no pair twice. -/
structure SameFrom (h : Heap) (k : Nat) (x y : StateM MetPairs Bool) (Q : Prop) : Prop where
  run : ∀ met : MetPairs, met.Nodup → k ≤ (h.existing met).length → y.run met = x.run met ∧ (x.run met).2.Nodup ∧
    (h.existing met).length ≤ (h.existing (x.run met).2).length ∧ (Q → (x.run met).1 = true)

namespace SameFrom

variable {x : StateM MetPairs Bool}

theorem pure (b : Bool) : SameFrom h k (Pure.pure b) (Pure.pure b) (b = true) :=
  ⟨fun _ hm _ => ⟨rfl, hm, Nat.le_refl _, id⟩⟩

theorem mono (hx : SameFrom h k x y P) (hQP : Q → P) : SameFrom h k x y Q := by
  refine ⟨fun met hm hk => ?_⟩
  obtain ⟨heq, hm', hlen, htrue⟩ := hx.run met hm hk
  exact ⟨heq, hm', hlen, fun hq => htrue (hQP hq)⟩

theorem bind {Q : Bool → Prop} (hx : SameFrom h k x y P)
    (hf : ∀ b, SameFrom h k (f b) (g b) (Q b)) : SameFrom h k (x >>= f) (y >>= g) (P ∧ Q true) := by
  refine ⟨fun met hm hk => ?_⟩
  obtain ⟨heq, hm', hlen, htrue⟩ := hx.run met hm hk
  obtain ⟨heq', hm'', hlen', htrue'⟩ := (hf (x.run met).1).run (x.run met).2 hm' (Nat.le_trans hk hlen)
  have hbind : ∀ (z : StateM MetPairs Bool) (w : Bool → StateM MetPairs Bool),
      (z >>= w).run met = (w (z.run met).1).run (z.run met).2 := fun _ _ => rfl
  rw [hbind, hbind, heq]
  refine ⟨heq', hm'', Nat.le_trans hlen hlen', fun hq => htrue' ?_⟩
  rw [htrue hq.1]
  exact hq.2

theorem andThen (hx : SameFrom h k x y P) (hf : SameFrom h k (f true) (g true) Q)
    (hffalse : f false = Pure.pure false) (hgfalse : g false = Pure.pure false) :
    SameFrom h k (x >>= f) (y >>= g) (P ∧ Q) := by
  refine (hx.bind (Q := fun b => b = true ∧ Q) fun b => ?_).mono fun hq => ⟨hq.1, rfl, hq.2⟩
  cases b with
  | true => exact hf.mono And.right
  | false =>
    rw [hffalse, hgfalse]
    exact (pure false).mono And.left

theorem allM {P : α → Prop} (xs : List α)
    (hf : ∀ x ∈ xs, SameFrom h k (f x) (g x) (P x)) : SameFrom h k (xs.allM f) (xs.allM g) (∀ x ∈ xs, P x) := by
  induction xs with
  | nil => exact (pure true).mono fun _ => rfl
  | cons x xs ih =>
    have hrest := ih fun y hy => hf y (.tail _ hy)
    have hboth : SameFrom h k ((x :: xs).allM f) ((x :: xs).allM g) (P x ∧ ∀ y ∈ xs, P y) :=
      (hf x (.head _)).andThen hrest rfl rfl
    exact hboth.mono List.forall_mem_cons.1

theorem anyM {P : α → Prop} (xs : List α)
    (hf : ∀ x ∈ xs, SameFrom h k (f x) (g x) (P x)) : SameFrom h k (xs.anyM f) (xs.anyM g) False := by
  induction xs with
  | nil => exact (pure false).mono False.elim
  | cons x xs ih =>
    refine ((hf x (.head _)).bind (Q := fun _ => False) fun b => ?_).mono False.elim
    cases b with
    | true => exact (pure true).mono False.elim
    | false => exact ih fun y hy => hf y (.tail _ hy)

end SameFrom

/-- In two heaps the pairs of types that are related look alike: either both types of a pair are the same and so are the
pairs of their parts, or the two are told apart at first sight. -/
structure LooksAlike (h h' : Heap) (P : TypeId → TypeId → Prop) : Prop where
  parts : ∀ {a b}, P a b →
    (h'.ty a = h.ty a ∧ h'.ty b = h.ty b ∧ ∀ x ∈ (h.ty a).parts, ∀ y ∈ (h.ty b).parts, P x y) ∨
      (h.ty a).isWidenable ≠ (h.ty b).isWidenable ∧ (h'.ty a).isWidenable ≠ (h'.ty b).isWidenable
  functions : ∀ f g, h'.sameFunction f g = h.sameFunction f g
  files : ∀ {a b m n}, P a b → h.ty a = .module m → h.ty b = .module n → h'.sameFile m n = h.sameFile m n

theorem BuiltAlike.isWidenable (hst : h.BuiltAlike R s t) : s.isWidenable = t.isWidenable := by
  cases s <;> cases t <;> first | rfl | exact hst.elim

theorem compareParts_of_ne (hne : s.isWidenable ≠ t.isWidenable) : h.compareParts sub s t = Pure.pure false := by
  cases s <;> cases t <;> first | rfl | exact absurd rfl hne

theorem compareParts_congr (hsub : ∀ x ∈ s.parts, ∀ y ∈ t.parts, SameFrom h k (sub x y) (sub' x y) (R x y))
    (hfunction : ∀ f g, h'.sameFunction f g = h.sameFunction f g)
    (hfile : ∀ m n, s = .module m → t = .module n → h'.sameFile m n = h.sameFile m n) :
    SameFrom h k (h.compareParts sub s t) (h'.compareParts sub' s t)
      ((∀ c, s ≠ .classObject c) ∧ h.BuiltAlike R s t) := by
  unfold compareParts
  split
  case h_1 | h_2 => exact (SameFrom.pure true).mono fun _ => rfl
  case h_3 m n => exact (SameFrom.pure (m == n)).mono fun hst => beq_iff_eq.2 hst.2
  case h_4 e _ f _ => exact (hsub e (List.mem_singleton.2 rfl) f (List.mem_singleton.2 rfl)).mono And.right
  case h_5 es fs =>
    split
    · refine (SameFrom.allM (P := fun p => R p.1 p.2) _ fun p hp => ?_).mono fun hst => ?_
      · exact hsub p.1 (List.of_mem_zip hp).1 p.2 (List.of_mem_zip hp).2
      · exact fun p hp => List.forall₂_zip hst.2 hp
    · rename_i hlen
      exact (SameFrom.pure false).mono fun hst => absurd (List.Forall₂.length_eq hst.2) hlen
  case h_6 k v l w =>
    have hk := hsub k (List.mem_pair.2 (.inl rfl)) l (List.mem_pair.2 (.inl rfl))
    have hv := hsub v (List.mem_pair.2 (.inr rfl)) w (List.mem_pair.2 (.inr rfl))
    refine SameFrom.mono (P := R k l ∧ R v w) ?_ And.right
    exact hk.andThen hv rfl rfl
  case h_7 f _ g _ =>
    rw [hfunction]
    exact (SameFrom.pure _).mono And.right
  case h_8 c _ d _ => exact (SameFrom.pure (c == d)).mono fun hst => beq_iff_eq.2 hst.2
  case h_9 m n =>
    rw [hfile m n rfl rfl]
    exact (SameFrom.pure _).mono And.right
  case h_10 es fs =>
    split
    · refine (SameFrom.allM (P := fun _ => False) es fun e he => ?_).mono fun hst => hst.2.elim
      exact .anyM fs fun f hf => hsub e he f hf
    · exact (SameFrom.pure false).mono fun hst => hst.2.elim
  case h_11 =>
    refine (SameFrom.pure false).mono fun hst => ?_
    obtain ⟨hclass, hbuilt⟩ := hst
    clear hsub
    cases s <;> cases t <;> first | exact hbuilt.elim | exact absurd rfl (hclass _) | grind

section Locality

variable {P : TypeId → TypeId → Prop} (alike : LooksAlike h h' P)
include alike

theorem LooksAlike.compare (fuel fuel' k : Nat) (hfuel : h.types.size * h.types.size < k + fuel)
    (hfuel' : h.types.size * h.types.size < k + fuel') (hab : P a b) :
    SameFrom h k (h.compare fuel a b) (h'.compare fuel' a b) (h.Bisimilar a b) := by
  induction fuel generalizing fuel' k a b with
  | zero =>
    refine ⟨fun met hm hk => ?_⟩
    have hle := length_existing_le (h := h) hm
    omega
  | succ fuel ih =>
    refine ⟨fun met hm hk => ?_⟩
    cases fuel' with
    | zero =>
      have hle := length_existing_le (h := h) hm
      omega
    | succ fuel' =>
      rw [compare_succ, compare_succ]
      split
      · exact ⟨rfl, hm, Nat.le_refl _, fun _ => rfl⟩
      · rename_i hnew
        rw [not_or] at hnew
        have hm' : ((a, b) :: met).Nodup := List.nodup_cons.2 ⟨hnew.2, hm⟩
        have hle : (h.existing met).length ≤ (h.existing ((a, b) :: met)).length :=
          ((List.sublist_cons_self (a, b) met).filter _).length_le
        -- The pair is met now. If the two types exist that is one more pair, and one unit of fuel less; else there are
        -- no parts to go into.
        obtain ⟨k', hk', hsub⟩ : ∃ k' ≤ (h.existing ((a, b) :: met)).length,
            ∀ x ∈ (h.ty a).parts, ∀ y ∈ (h.ty b).parts, P x y →
              SameFrom h k' (h.compare fuel x y) (h'.compare fuel' x y) (h.Bisimilar x y) := by
          by_cases hhas : h.Has a ∧ h.Has b
          · have hlen : (h.existing ((a, b) :: met)).length = (h.existing met).length + 1 :=
              congrArg List.length (List.filter_cons_of_pos (by simpa [Has] using hhas))
            exact ⟨k + 1, by omega, fun x _ y _ hxy => ih fuel' (k + 1) (by omega) (by omega) hxy⟩
          · refine ⟨k, Nat.le_trans hk hle, fun x hx y hy => absurd ⟨?_, ?_⟩ hhas⟩
            · exact has_of_mem_parts hx
            · exact has_of_mem_parts hy
        have hparts : SameFrom h k' (h.compareParts (h.compare fuel) (h.ty a) (h.ty b))
            (h'.compareParts (h'.compare fuel') (h'.ty a) (h'.ty b))
            ((∀ c, h.ty a ≠ .classObject c) ∧ h.BuiltAlike h.Bisimilar (h.ty a) (h.ty b)) := by
          rcases alike.parts hab with ⟨ha, hb, hrest⟩ | ⟨hne, hne'⟩
          · rw [ha, hb]
            exact compareParts_congr (fun x hx y hy => hsub x hx y hy (hrest x hx y hy)) alike.functions
              fun m n hm hn => alike.files hab hm hn
          · rw [compareParts_of_ne hne, compareParts_of_ne hne']
            exact (SameFrom.pure false).mono fun hst => absurd hst.2.isWidenable hne
        obtain ⟨heq, hnodup, hlen, htrue⟩ := hparts.run _ hm' hk'
        exact ⟨heq, hnodup, Nat.le_trans hle hlen, fun hq => htrue (hq.corresponds.resolve_left hnew.1)⟩

theorem LooksAlike.equal (hsize : h.types.size ≤ h'.types.size) (hab : P a b) :
    h'.equal a b = h.equal a b := by
  have hfuel' : h.types.size * h.types.size < 0 + h'.compareFuel := by
    have := Nat.mul_le_mul hsize hsize
    simp only [compareFuel]
    omega
  have hrun := (alike.compare h.compareFuel h'.compareFuel 0 (by simp [compareFuel]) hfuel' hab).run []
    List.nodup_nil (Nat.zero_le _)
  rw [Heap.equal, Heap.equal, hrun.1]

end Locality

theorem LooksAlike.refl (h : Heap) : LooksAlike h h fun _ _ => True :=
  ⟨fun _ => .inl ⟨rfl, rfl, fun _ _ _ _ => trivial⟩, fun _ _ => rfl, fun _ _ _ => rfl⟩

theorem compare_of_le (hfuel : h.compareFuel ≤ fuel) (a b : TypeId) :
    (h.compare fuel a b).run [] = (h.compare h.compareFuel a b).run [] := by
  have hsame := (LooksAlike.refl h).compare (a := a) (b := b) h.compareFuel fuel 0 (by simp [compareFuel])
    (by rw [compareFuel] at hfuel; omega) trivial
  exact (hsame.run [] List.nodup_nil (Nat.zero_le _)).1

theorem Bisimilar.equal (hab : h.Bisimilar a b) : h.equal a b = true := by
  have hfuel : h.types.size * h.types.size < 0 + h.compareFuel := by simp [compareFuel]
  have hsame := (LooksAlike.refl h).compare (a := a) (b := b) h.compareFuel h.compareFuel 0 hfuel hfuel trivial
  rw [Heap.equal, (hsame.run [] List.nodup_nil (Nat.zero_le _)).2.2.2 hab, Bool.or_true]

theorem IsSound.has_part (hs : h.IsSound) {t : TypeId} (hx : x ∈ (h.ty t).parts) : h.Has x := by
  have hfits := hs.types t
  revert hx hfits
  cases h.ty t with
  | list e shape => exact fun hx hfits => List.mem_singleton.1 hx ▸ hfits.1.has
  | tuple es => exact fun hx hfits => (hfits x hx).has
  | dict k v =>
    intro hx hfits
    rcases List.mem_pair.1 hx with rfl | rfl
    · exact hfits.1.has
    · exact hfits.2.has
  | union ms => exact fun hx hfits => (hfits.2.2 x hx).1
  | _ => exact fun hx => nomatch hx

/-- A heap that has the types of another one, unchanged, and perhaps more. -/
structure HoldsTypes (h h' : Heap) : Prop where
  types : ∀ t, h.Has t → h'.ty t = h.ty t
  codes : ∀ f, (h'.function f).code = (h.function f).code
  files : ∀ m, (h'.module m).file = (h.module m).file

theorem HoldsTypes.equal (same : HoldsTypes h h') (hs : h.IsSound) (hsize : h.types.size ≤ h'.types.size)
    (ha : h.Has a) (hb : h.Has b) : h'.equal a b = h.equal a b := by
  have halike : LooksAlike h h' fun a b => h.Has a ∧ h.Has b := by
    refine ⟨fun hab => .inl ?_, fun f g => ?_, fun _ _ _ => ?_⟩
    · exact ⟨same.types _ hab.1, same.types _ hab.2, fun x hx y hy => ⟨hs.has_part hx, hs.has_part hy⟩⟩
    · simp only [sameFunction, same.codes]
    · simp only [sameFile, same.files]
  exact halike.equal hsize ⟨ha, hb⟩

theorem HoldsTypes.refl (h : Heap) : HoldsTypes h h := ⟨fun _ _ => rfl, fun _ => rfl, fun _ => rfl⟩

theorem HoldsTypes.push (ty : Ty) : HoldsTypes h { h with types := h.types.push ty } where
  types t ht := by
    have hne : t.index ≠ h.types.size := Nat.ne_of_lt ht
    simp only [Heap.ty, Array.getD_eq_getD_getElem?, Array.getElem?_push, hne, if_false]
  codes _ := rfl
  files _ := rfl

@[simp] theorem equal_self (h : Heap) (t : TypeId) : h.equal t t = true := by simp [Heap.equal]

theorem known_of_equal (heq : h.equal a b = true) (hb : h.ty b ≠ .unknown) : h.ty a ≠ .unknown := by
  intro ha
  have hne : a ≠ b := by
    rintro rfl
    exact hb ha
  have hrun : ((h.compare h.compareFuel a b).run []).1 = true := by simpa [Heap.equal, hne] using heq
  rw [compareFuel, compare_succ, if_neg (by simp [hne]), ha] at hrun
  cases hty : h.ty b with
  | unknown => exact hb hty
  | _ =>
    rw [hty] at hrun
    cases hrun

end Heap

end Concordance
