import Mathlib.Data.List.Forall2
import Mathlib.Logic.Relation
import Concordance.Proofs.Heap.Value

/-!
# Bisimilar types

Two types are bisimilar if they are related by some relation between counterparts: lists by their elements, dictionaries
by their keys and values, tuples one by one, scalars by name, objects by their class, modules by their file, functions
by their definition.
-/

namespace Concordance

namespace Heap

variable {h : Heap} {R : TypeId → TypeId → Prop} {a b c : TypeId}

theorem sameFunction_iff : h.sameFunction f g = true ↔
    f = g ∨ ∃ c d, (h.function f).code = some c ∧ (h.function g).code = some d ∧ c.ref = d.ref := by
  unfold sameFunction
  by_cases hfg : f = g
  · subst hfg
    cases (h.function f).code <;> simp
  · cases (h.function f).code <;> cases (h.function g).code <;> simp [hfg]

theorem sameFile_iff : h.sameFile m n = true ↔
    ∃ path, (h.module m).file = some path ∧ (h.module n).file = some path := by
  rw [sameFile, Bool.and_eq_true, beq_iff_eq, Option.isSome_iff_exists]
  constructor
  · rintro ⟨⟨path, hpath⟩, heq⟩
    exact ⟨path, hpath, heq ▸ hpath⟩
  · rintro ⟨path, hm, hn⟩
    exact ⟨⟨path, hm⟩, hm.trans hn.symm⟩

/-- Two alternatives are built alike from parts that are related. -/
def BuiltAlike (h : Heap) (R : TypeId → TypeId → Prop) : Ty → Ty → Prop
  | .unknown, .unknown | .continues, .continues => True
  | .scalar m, .scalar n => m = n
  | .list e _, .list f _ => R e f
  | .tuple es, .tuple fs => List.Forall₂ R es fs
  | .dict k v, .dict l w => R k l ∧ R v w
  | .function f _, .function g _ => h.sameFunction f g = true
  | .classObject c, .classObject d => c = d
  | .object c _, .object d _ => c = d
  | .module m, .module n => h.sameFile m n = true
  | _, _ => False

theorem BuiltAlike.mono (hRS : ∀ a b, R a b → S a b) (hst : h.BuiltAlike R s t) : h.BuiltAlike S s t := by
  unfold BuiltAlike at hst ⊢
  split at hst
  case h_4 => exact hRS _ _ hst
  case h_5 => exact hst.imp hRS
  case h_6 => exact ⟨hRS _ _ hst.1, hRS _ _ hst.2⟩
  all_goals exact hst

/-- Two types correspond: they are identical, or built alike from parts that are related. A class corresponds to itself
only. -/
def Corresponds (h : Heap) (R : TypeId → TypeId → Prop) (a b : TypeId) : Prop :=
  a = b ∨ (∀ c, h.ty a ≠ .classObject c) ∧ h.BuiltAlike R (h.ty a) (h.ty b)

theorem Corresponds.mono (hRS : ∀ a b, R a b → S a b) (hab : h.Corresponds R a b) : h.Corresponds S a b :=
  hab.imp_right (And.imp_right (BuiltAlike.mono hRS))

/-- Two types are counterparts of each other if their parts are related. -/
inductive Counterpart (h : Heap) (R : TypeId → TypeId → Prop) (a b : TypeId) : Prop
  | itself (hab : a = b)
  | unknown (ha : h.ty a = .unknown) (hb : h.ty b = .unknown)
  | continues (ha : h.ty a = .continues) (hb : h.ty b = .continues)
  | scalar {name : String} (ha : h.ty a = .scalar name) (hb : h.ty b = .scalar name)
  | list {e f : TypeId} {shape shape' : Option (List TypeId)} (ha : h.ty a = .list e shape) (hb : h.ty b = .list f shape')
      (hef : R e f)
  | tuple {es fs : List TypeId} (ha : h.ty a = .tuple es) (hb : h.ty b = .tuple fs) (hes : List.Forall₂ R es fs)
  | dict {k v l w : TypeId} (ha : h.ty a = .dict k v) (hb : h.ty b = .dict l w) (hkl : R k l) (hvw : R v w)
  /-- Two bound methods of one function, whatever their receivers. -/
  | function {f : FunctionId} {receiver receiver' : Option TypeId} (ha : h.ty a = .function f receiver)
      (hb : h.ty b = .function f receiver')
  /-- Two functions of one definition in the source. -/
  | definition {f g : FunctionId} {receiver receiver' : Option TypeId} {c d : Code} (ha : h.ty a = .function f receiver)
      (hb : h.ty b = .function g receiver') (hf : (h.function f).code = some c) (hg : (h.function g).code = some d)
      (hcd : c.ref = d.ref)
  | object {c : ClassId} {table table' : ScopeId} (ha : h.ty a = .object c table) (hb : h.ty b = .object c table')
  | module {m n : ModuleId} {path : String} (ha : h.ty a = .module m) (hb : h.ty b = .module n)
      (hm : (h.module m).file = some path) (hn : (h.module n).file = some path)

/-- Two types are bisimilar if some relation between counterparts relates them. -/
def Bisimilar (h : Heap) (a b : TypeId) : Prop := ∃ R, (∀ x y, R x y → h.Counterpart R x y) ∧ R a b

theorem Counterpart.corresponds (hab : h.Counterpart R a b) : h.Corresponds R a b := by
  cases hab with
  | itself hab => exact .inl hab
  | function ha hb | definition ha hb _ _ _ =>
    refine .inr ⟨by simp [ha], ?_⟩
    rw [ha, hb]
    exact sameFunction_iff.2 (by grind)
  | module ha hb hm hn =>
    refine .inr ⟨by simp [ha], ?_⟩
    rw [ha, hb]
    exact sameFile_iff.2 ⟨_, hm, hn⟩
  | _ => exact .inr ⟨by simp [*], by simp_all [BuiltAlike]⟩

theorem Corresponds.counterpart (hab : h.Corresponds R a b) : h.Counterpart R a b := by
  rcases hab with hab | ⟨hclass, hbuilt⟩
  · exact .itself hab
  generalize ha : h.ty a = s at hclass hbuilt
  generalize hb : h.ty b = t at hbuilt
  cases s <;> cases t <;> first | exact hbuilt.elim | exact absurd rfl (hclass _) | skip
  case unknown => exact .unknown ha hb
  case continues => exact .continues ha hb
  case scalar =>
    obtain rfl : _ = _ := hbuilt
    exact .scalar ha hb
  case list => exact .list ha hb hbuilt
  case tuple => exact .tuple ha hb hbuilt
  case dict => exact .dict ha hb hbuilt.1 hbuilt.2
  case function =>
    rcases sameFunction_iff.1 hbuilt with rfl | ⟨c, d, hf, hg, hcd⟩
    · exact .function ha hb
    · exact .definition ha hb hf hg hcd
  case object =>
    obtain rfl : _ = _ := hbuilt
    exact .object ha hb
  case module =>
    obtain ⟨path, hm, hn⟩ := sameFile_iff.1 hbuilt
    exact .module ha hb hm hn

theorem Bisimilar.refl (h : Heap) (a : TypeId) : h.Bisimilar a a := ⟨Eq, fun _ _ hab => .itself hab, rfl⟩

theorem Bisimilar.corresponds (hab : h.Bisimilar a b) : h.Corresponds h.Bisimilar a b := by
  obtain ⟨R, hR, hab⟩ := hab
  exact (hR a b hab).corresponds.mono fun x y hxy => ⟨R, hR, hxy⟩

theorem bisimilar_of_corresponds (hR : ∀ x y, R x y → h.Corresponds R x y) (hab : R a b) : h.Bisimilar a b :=
  ⟨R, fun x y hxy => (hR x y hxy).counterpart, hab⟩

theorem BuiltAlike.symm (hst : h.BuiltAlike R s t) : h.BuiltAlike (fun x y => R y x) t s := by
  unfold BuiltAlike at hst
  split at hst
  case h_1 | h_2 => trivial
  case h_3 | h_8 | h_9 => exact Eq.symm hst
  case h_4 | h_6 => exact hst
  case h_5 => exact List.Forall₂.flip hst
  case h_7 f _ g _ =>
    show h.sameFunction g f = true
    rw [sameFunction_iff] at hst ⊢
    grind
  case h_10 m n =>
    show h.sameFile n m = true
    rw [sameFile_iff] at hst ⊢
    grind
  case h_11 => exact hst.elim

theorem BuiltAlike.not_class (hst : h.BuiltAlike R s t) (hs : ∀ c, s ≠ .classObject c) (c : ClassId) :
    t ≠ .classObject c := by
  rintro rfl
  cases s <;> first | exact hst.elim | exact hs _ rfl

theorem Bisimilar.symm (hab : h.Bisimilar a b) : h.Bisimilar b a := by
  refine bisimilar_of_corresponds (R := fun x y => h.Bisimilar y x) (fun x y hyx => ?_) hab
  rcases hyx.corresponds with rfl | ⟨hclass, hbuilt⟩
  · exact .inl rfl
  · exact .inr ⟨hbuilt.not_class hclass, hbuilt.symm⟩

theorem BuiltAlike.trans (hst : h.BuiltAlike R s t) (htu : h.BuiltAlike S t u) :
    h.BuiltAlike (Relation.Comp R S) s u := by
  cases s <;> cases t <;> first | exact hst.elim | skip
  all_goals cases u <;> first | exact htu.elim | skip
  case unknown | continues => trivial
  case scalar | classObject | object => exact Eq.trans hst htu
  case list => exact ⟨_, hst, htu⟩
  case tuple es fs gs =>
    show List.Forall₂ _ es gs
    have hes : List.Forall₂ R es fs := hst
    have hfs : List.Forall₂ S fs gs := htu
    clear hst htu
    induction hes generalizing gs with
    | nil =>
      cases hfs
      exact .nil
    | cons hxy _ ih =>
      cases hfs with
      | cons hyz hfs => exact .cons ⟨_, hxy, hyz⟩ (ih _ hfs)
  case dict => exact ⟨⟨_, hst.1, htu.1⟩, _, hst.2, htu.2⟩
  case function f _ g _ i _ =>
    show h.sameFunction f i = true
    have hfg : h.sameFunction f g = true := hst
    have hgi : h.sameFunction g i = true := htu
    rw [sameFunction_iff] at hfg hgi ⊢
    grind
  case module m n o =>
    show h.sameFile m o = true
    have hmn : h.sameFile m n = true := hst
    have hno : h.sameFile n o = true := htu
    rw [sameFile_iff] at hmn hno ⊢
    grind

theorem Bisimilar.trans (hab : h.Bisimilar a b) (hbc : h.Bisimilar b c) : h.Bisimilar a c := by
  refine bisimilar_of_corresponds (R := Relation.Comp h.Bisimilar h.Bisimilar) ?_ ⟨b, hab, hbc⟩
  rintro x z ⟨y, hxy, hyz⟩
  rcases hxy.corresponds with rfl | ⟨hclass, hbuilt⟩
  · exact hyz.corresponds.mono fun _ q hq => ⟨_, .refl h _, hq⟩
  rcases hyz.corresponds with rfl | ⟨_, hbuilt'⟩
  · exact .inr ⟨hclass, hbuilt.mono fun _ q hq => ⟨_, hq, .refl h _⟩⟩
  · exact .inr ⟨hclass, hbuilt.trans hbuilt'⟩

end Heap

end Concordance
