import Mathlib.Logic.Relation
import Concordance.Proofs.Heap.Operations

/-!
# Members that are told apart

When a union is made, each of its members has been compared with those before it and equals none of them. Later on a
list or a dictionary may be widened, and members that were different may come to be equal.
-/

namespace Concordance

namespace Heap

/-- A type is reached from another one: it is the type itself or one that it is built from, at any depth. -/
def Reaches (h : Heap) (t u : TypeId) : Prop := Relation.ReflTransGen (fun a b => b ∈ (h.ty a).parts) t u

def IsFixed (h : Heap) (t : TypeId) : Prop := ∀ u, h.Reaches t u → (h.ty u).isWidenable = false

def Untouched (h h' : Heap) (t : TypeId) : Prop := ∀ u, h.Reaches t u → h'.ty u = h.ty u

/-- A list or a dictionary that is reached from the given type has been widened. -/
def Widened (h h' : Heap) (t : TypeId) : Prop :=
  ∃ u, h.Reaches t u ∧ (h.ty u).isWidenable = true ∧ h'.ty u ≠ h.ty u

/-- A later heap in which functions and modules are told apart as before. -/
structure Follows (h h' : Heap) : Prop where
  types : Extends h h'
  functions : ∀ f g, h'.sameFunction f g = h.sameFunction f g
  modules : ∀ m : ModuleId, m.index < h.modules.size →
    m.index < h'.modules.size ∧ (h'.module m).file = (h.module m).file

/-- What is known of the members of unions, by the comparisons that were made: if a member equals a later one, then a
list or a dictionary is reached from each of the two. -/
def Distinct (h : Heap) : Prop :=
  ∀ t ms, h.ty t = .union ms → ms.Pairwise fun a b => h.equal a b = true → ¬ h.IsFixed a ∧ ¬ h.IsFixed b

/-- A heap whose types have been compared: those of modules lead to modules that exist, and the members of unions are told
apart. -/
structure Compared (h : Heap) : Prop where
  placed : ∀ t m, h.ty t = .module m → m.index < h.modules.size
  distinct : h.Distinct

variable {h h' : Heap} {a b t : TypeId}

theorem Reaches.refl (h : Heap) (t : TypeId) : h.Reaches t t := Relation.ReflTransGen.refl

theorem Reaches.part (ht : h.Reaches t a) (hb : b ∈ (h.ty a).parts) : h.Reaches t b := ht.tail hb

theorem Reaches.has (hs : h.IsSound) (ht : h.Has t) (hu : h.Reaches t u) : h.Has u := by
  induction hu with
  | refl => exact ht
  | tail _ hpart _ => exact hs.has_part hpart

section Extends

theorem Extends.isWidenable (he : Extends h h') (ht : h.Has t) : (h'.ty t).isWidenable = (h.ty t).isWidenable := by
  have halike := he.alike t ht
  revert halike
  cases h.ty t <;> cases h'.ty t <;> simp [Widens, Ty.isWidenable]

theorem Extends.ty_eq (he : Extends h h') (ht : h.Has t) (hw : (h.ty t).isWidenable = false) : h'.ty t = h.ty t := by
  refine (he.alike t ht).resolve_right fun hwidens => ?_
  revert hwidens hw
  cases h.ty t <;> cases h'.ty t <;> simp [Widens, Ty.isWidenable]

theorem Extends.reaches_of_isFixed (he : Extends h h') (hs : h.IsSound) (ht : h.Has t) (hfix : h'.IsFixed t)
    (hu : h.Reaches t u) : h'.Reaches t u := by
  induction hu with
  | refl => exact .refl h' t
  | @tail c d hc hd ih =>
    -- What has been reached so far cannot be widened now, so it could not be before.
    have hhas : h.Has c := Reaches.has hs ht hc
    have hw := hfix c ih
    rw [he.isWidenable hhas] at hw
    refine ih.part ?_
    rw [he.ty_eq hhas hw]
    exact hd

theorem Extends.isFixed (he : Extends h h') (hs : h.IsSound) (ht : h.Has t) (hfix : h'.IsFixed t) : h.IsFixed t := by
  intro u hu
  rw [← he.isWidenable (Reaches.has hs ht hu)]
  exact hfix u (he.reaches_of_isFixed hs ht hfix hu)

theorem Extends.untouched_or_widened (he : Extends h h') (hs : h.IsSound) (ht : h.Has t) :
    Untouched h h' t ∨ Widened h h' t := by
  by_cases hall : Untouched h h' t
  · exact .inl hall
  · simp only [Untouched, not_forall] at hall
    obtain ⟨u, hu, hne⟩ := hall
    refine .inr ⟨u, hu, ?_, hne⟩
    by_contra hw
    exact hne (he.ty_eq (Reaches.has hs ht hu) (by simpa using hw))

end Extends

namespace Follows

theorem refl (h : Heap) : Follows h h := ⟨.refl h, fun _ _ => rfl, fun _ hm => ⟨hm, rfl⟩⟩

theorem trans (hf : Follows h h') (hf' : Follows h' h'') : Follows h h'' where
  types := hf.types.trans hf'.types
  functions f g := (hf'.functions f g).trans (hf.functions f g)
  modules m hm := by
    obtain ⟨hm', hfile⟩ := hf.modules m hm
    obtain ⟨hm'', hfile'⟩ := hf'.modules m hm'
    exact ⟨hm'', hfile'.trans hfile⟩

theorem of_codes (types : Extends h h') (codes : ∀ f, (h'.function f).code = (h.function f).code)
    (modules : h'.modules = h.modules) : Follows h h' where
  types := types
  functions f g := by rw [sameFunction, sameFunction, codes, codes]
  modules m hm := by
    rw [Heap.module, Heap.module, modules]
    exact ⟨hm, rfl⟩

section Comparisons

variable (hf : Follows h h') (hc : h.Compared)
include hf hc

theorem looksAlike (has : ∀ {x y}, P x y → h.Has x ∧ h.Has y) (parts : ∀ {x y}, P x y →
      (h'.ty x = h.ty x ∧ h'.ty y = h.ty y ∧ ∀ c ∈ (h.ty x).parts, ∀ d ∈ (h.ty y).parts, P c d) ∨
        (h.ty x).isWidenable ≠ (h.ty y).isWidenable) : LooksAlike h h' P where
  parts {x y} hxy := by
    refine (parts hxy).imp_right fun hne => ⟨hne, ?_⟩
    rwa [hf.types.isWidenable (has hxy).1, hf.types.isWidenable (has hxy).2]
  functions := hf.functions
  files {x y m n} _ hm hn := by
    rw [sameFile, sameFile, (hf.modules m (hc.placed x m hm)).2, (hf.modules n (hc.placed y n hn)).2]

variable (hs : h.IsSound) (ha : h.Has a) (hb : h.Has b)
include hs ha hb

theorem equal_of_untouched (hua : Untouched h h' a) (hub : Untouched h h' b) : h'.equal a b = h.equal a b := by
  have halike : LooksAlike h h' fun x y => h.Reaches a x ∧ h.Reaches b y :=
    hf.looksAlike hc (fun hxy => ⟨hxy.1.has hs ha, hxy.2.has hs hb⟩) fun hxy => .inl
      ⟨hua _ hxy.1, hub _ hxy.2, fun c hc d hd => ⟨hxy.1.part hc, hxy.2.part hd⟩⟩
  exact halike.equal hf.types.size_le ⟨.refl h a, .refl h b⟩

/-- The verdict on two types stands for ever if one of them cannot be widened: where the other one was widened, the two
differ in kind. -/
theorem equal_of_isFixed (hfix : h.IsFixed a ∨ h.IsFixed b) : h'.equal a b = h.equal a b := by
  have hside : ∀ {x y}, h.Has x → h.Has y → (h.ty x).isWidenable = false →
      h'.ty x = h.ty x ∧ (h'.ty y = h.ty y ∨ (h.ty y).isWidenable = true) := by
    intro x y hx hy hw
    refine ⟨hf.types.ty_eq hx hw, ?_⟩
    by_cases hwy : (h.ty y).isWidenable = true
    · exact .inr hwy
    · exact .inl (hf.types.ty_eq hy (by simpa using hwy))
  rcases hfix with hfix | hfix
  · have halike : LooksAlike h h' fun x y => h.Reaches a x ∧ h.Has y := by
      refine hf.looksAlike hc (fun hxy => ⟨hxy.1.has hs ha, hxy.2⟩) fun {x y} hxy => ?_
      obtain ⟨hx, hy | hy⟩ := hside (hxy.1.has hs ha) hxy.2 (hfix x hxy.1)
      · exact .inl ⟨hx, hy, fun c hc d hd => ⟨hxy.1.part hc, hs.has_part hd⟩⟩
      · exact .inr (by rw [hfix x hxy.1, hy]; simp)
    exact halike.equal hf.types.size_le ⟨.refl h a, hb⟩
  · have halike : LooksAlike h h' fun x y => h.Has x ∧ h.Reaches b y := by
      refine hf.looksAlike hc (fun hxy => ⟨hxy.1, hxy.2.has hs hb⟩) fun {x y} hxy => ?_
      obtain ⟨hy, hx | hx⟩ := hside (hxy.2.has hs hb) hxy.1 (hfix y hxy.2)
      · exact .inl ⟨hx, hy, fun c hc d hd => ⟨hs.has_part hc, hxy.2.part hd⟩⟩
      · exact .inr (by rw [hfix y hxy.2, hx]; simp)
    exact halike.equal hf.types.size_le ⟨ha, .refl h b⟩

end Comparisons

section Members

variable (hf : Follows h h') (hc : h.Compared) (hs : h.IsSound) {ms : List TypeId} (hms : h.ty t = .union ms)
include hf hc hs hms

/-- Members that have come to be equal have been changed: some list or dictionary that is reached from them was
widened. -/
theorem widened_of_equal :
    ms.Pairwise fun a b => h'.equal a b = true → h.equal a b = true ∨ Widened h h' a ∨ Widened h h' b := by
  have hfits : h.Fits (.union ms) := hms ▸ hs.types t
  refine hfits.2.1.imp_of_mem fun {a b} ha hb _ heq => ?_
  have hha := (hfits.2.2 a ha).1
  have hhb := (hfits.2.2 b hb).1
  rcases hf.types.untouched_or_widened hs hha with hua | hwa
  · rcases hf.types.untouched_or_widened hs hhb with hub | hwb
    · rw [hf.equal_of_untouched hc hs hha hhb hua hub] at heq
      exact .inl heq
    · exact .inr (.inr hwb)
  · exact .inr (.inl hwa)

theorem distinct : ms.Pairwise fun a b => h'.equal a b = true → ¬ h'.IsFixed a ∧ ¬ h'.IsFixed b := by
  have hfits : h.Fits (.union ms) := hms ▸ hs.types t
  refine (hc.distinct t ms hms).imp_of_mem fun {a b} ha hb hold heq => ?_
  have hha := (hfits.2.2 a ha).1
  have hhb := (hfits.2.2 b hb).1
  refine ⟨fun hfix => ?_, fun hfix => ?_⟩
  · have hfix' := hf.types.isFixed hs hha hfix
    rw [hf.equal_of_isFixed hc hs hha hhb (.inl hfix')] at heq
    exact (hold heq).1 hfix'
  · have hfix' := hf.types.isFixed hs hhb hfix
    rw [hf.equal_of_isFixed hc hs hha hhb (.inr hfix')] at heq
    exact (hold heq).2 hfix'

end Members

theorem compared (hf : Follows h h') (hs : h.IsSound) (hc : h.Compared) (types : h'.types = h.types) :
    h'.Compared := by
  have hty : ∀ t, h'.ty t = h.ty t := fun t => by rw [Heap.ty, Heap.ty, types]
  refine ⟨fun t m hm => ?_, fun t ms hms => ?_⟩
  · exact (hf.modules m (hc.placed t m (hty t ▸ hm))).1
  · exact hf.distinct hc hs (hty t ▸ hms)

end Follows

section Changes

theorem Change.follows (hch : Change h h') : Follows h h' := by
  cases hch with
  | newModule m type =>
    refine ⟨.of_push rfl, fun _ _ => rfl, fun n hn => ⟨Nat.lt_of_lt_of_le hn (by simp), ?_⟩⟩
    rw [Heap.module, getD_push, if_neg (Nat.ne_of_lt hn)]
    rfl
  | changeReturns f returns value =>
    refine .of_codes (.of_types_eq rfl) (fun g => ?_) rfl
    rw [Heap.function, getD_modify]
    split <;> rfl
  | newType ty fits plain => exact .of_codes (Change.newType ty fits plain).toExtends (fun _ => rfl) rfl
  | widen t ty fits like => exact .of_codes (Change.widen t ty fits like).toExtends (fun _ => rfl) rfl
  | _ => exact .of_codes (.of_types_eq rfl) (fun _ => rfl) rfl

theorem Change.compared (hch : Change h h') (hs : h.IsSound) (hc : h.Compared) : h'.Compared := by
  have hf := hch.follows
  cases hch with
  | newType ty fits plain =>
    refine ⟨fun t m hm => ?_, fun t ms hms => ?_⟩
    · rw [ty_push] at hm
      split at hm
      · rw [hm] at plain
        exact plain.elim
      · exact hc.placed t m hm
    · rw [ty_push] at hms
      split at hms
      · -- The members were there before, so they are compared as before.
        subst hms
        refine List.Pairwise.imp_of_mem (fun {a b} ha hb hne heq => ?_) plain
        rw [(HoldsTypes.push _).equal hs (by simp) (fits.2.2 a ha).1 (fits.2.2 b hb).1, hne] at heq
        cases heq
      · exact hf.distinct hc hs hms
  | widen u ty fits like =>
    refine ⟨fun t m hm => ?_, fun t ms hms => ?_⟩
    · rw [ty_set] at hm
      split at hm
      · rw [hm] at like
        revert like
        cases h.ty u <;> simp [Widens]
      · exact hc.placed t m hm
    · rw [ty_set] at hms
      split at hms
      · rw [hms] at like
        revert like
        cases h.ty u <;> simp [Widens]
      · exact hf.distinct hc hs hms
  | newModule m type =>
    refine ⟨fun t n hn => ?_, fun t ms hms => ?_⟩
    · rw [ty_of_push rfl] at hn
      split at hn
      · cases hn
        simp
      · exact (hf.modules n (hc.placed t n hn)).1
    · rw [ty_of_push rfl] at hms
      split at hms
      · cases hms
      · exact hf.distinct hc hs hms
  | _ => exact hf.compared hs hc rfl

theorem Evolves.compared (he : Evolves h h') (hs : h.IsSound) (hc : h.Compared) : Follows h h' ∧ h'.Compared := by
  induction he with
  | refl => exact ⟨.refl h, hc⟩
  | tail he hch ih => exact ⟨ih.1.trans hch.follows, hch.compared (Evolves.isSound he hs) ih.2⟩

theorem initial_compared : Heap.initial.Compared := by
  have hplain : ∀ t, (∀ m, Heap.initial.ty t ≠ .module m) ∧ ∀ ms, Heap.initial.ty t ≠ .union ms := by
    rintro ⟨i⟩
    by_cases hi : i < 9
    · interval_cases i <;> simp [Heap.ty, Heap.initial, scalarNames]
    · have hty : Heap.initial.ty ⟨i⟩ = .unknown := by
        rw [Heap.ty, Array.getD_eq_getD_getElem?, Array.getElem?_eq_none (Nat.le_of_not_lt hi), Option.getD_none]
      simp [hty]
  exact ⟨fun t m hm => absurd hm ((hplain t).1 m), fun t ms hms => absurd hms ((hplain t).2 ms)⟩

end Changes

end Heap

end Concordance
