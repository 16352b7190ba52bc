import Mathlib.Logic.Relation
import Mathlib.Tactic.Common
import Mathlib.Tactic.IntervalCases
import Concordance.Graph.Objects

/-!
# Values in the type graph

A type that a value can have exists in the heap and does not hold the marker that control goes on; the marker belongs to
statements only.
-/

namespace Concordance

namespace Heap

def Has (h : Heap) (t : TypeId) : Prop := t.index < h.types.size

/-- A type that a value can have. -/
structure IsValue (h : Heap) (t : TypeId) : Prop where
  has : h.Has t
  unmarked : TypeId.continues ∉ h.members t

def HasBinding (h : Heap) (b : BindingId) : Prop := b.index < h.bindings.size

/-- A type whose parts are in order: those of containers and the receivers of methods are types of values. -/
def Fits (h : Heap) : Ty → Prop
  | .list e shape => h.IsValue e ∧ ∀ x ∈ shape.getD [], h.IsValue x
  | .tuple es => ∀ e ∈ es, h.IsValue e
  | .dict k v => h.IsValue k ∧ h.IsValue v
  | .function _ receiver => ∀ r ∈ receiver, h.IsValue r
  | .union ms => 2 ≤ ms.length ∧ ms.Nodup ∧ ∀ m ∈ ms, h.Has m ∧ h.ty m ≠ .unknown ∧ ∀ ns, h.ty m ≠ .union ns
  | _ => True

end Heap

mutual

/-- A recipe of types of values that exist once, without unions of fewer than two members. -/
def Recipe.Plain : Recipe → Prop
  | .existing t => t.index < Heap.initial.types.size ∧ t ≠ .continues
  | .list e => e.Plain
  | .tuple es => Recipe.AllPlain es
  | .dict k v => k.Plain ∧ v.Plain
  | .union ms => Recipe.AllPlain ms
  | .rawUnion _ => False

def Recipe.AllPlain : List Recipe → Prop
  | [] => True
  | r :: rs => r.Plain ∧ Recipe.AllPlain rs

end

/-- Whatever a function refers to is a type of a value. -/
structure Function.IsSound (h : Heap) (f : Function) : Prop where
  type : h.IsValue f.type
  returns : h.IsValue f.returns
  yields : ∀ t ∈ f.yields, h.IsValue t
  defaults : ∀ t ∈ f.defaults.values, h.IsValue t
  arrows : ∀ a ∈ f.arrows, h.IsValue a.1 ∧ h.IsValue a.2
  native : ∀ r ∈ f.native, r.Plain

def Scope.IsSound (h : Heap) (s : Scope) : Prop := ∀ bs ∈ s.table.values, ∀ b ∈ bs, h.HasBinding b

/-- Whatever a class refers to is a type of a value. -/
structure ClassInfo.IsSound (h : Heap) (c : ClassInfo) : Prop where
  type : h.IsValue c.type
  canon : ∀ t ∈ c.canon, h.IsValue t
  factory : ∀ r ∈ c.factory, r.Plain

namespace Heap

/-- A heap in which everything refers to what it should. -/
structure IsSound (h : Heap) : Prop where
  singletons : ∀ i < Heap.initial.types.size, h.types[i]? = Heap.initial.types[i]?
  marker : ∀ t, h.ty t = .continues → t = .continues
  types : ∀ t, h.Fits (h.ty t)
  bindings : ∀ b, h.IsValue (h.binding b).type
  functions : ∀ f, (h.function f).IsSound h
  classes : ∀ c, (h.cls c).IsSound h
  modules : ∀ m, h.IsValue (h.module m).type
  scopes : ∀ s, (h.scope s).IsSound h

section Members

variable {h : Heap}

theorem has_of_ty_ne (ht : h.ty t ≠ .unknown) : h.Has t := by
  by_contra hlt
  refine ht ?_
  rw [ty, Array.getD_eq_getD_getElem?, Array.getElem?_eq_none (Nat.le_of_not_lt hlt), Option.getD_none]

theorem members_of_union (ht : h.ty t = .union ms) : h.members t = ms := by
  simp only [members, ht]

theorem members_of_not_union (ht : ∀ ms, h.ty t ≠ .union ms) : h.members t = [t] := by
  unfold members
  split
  · rename_i ms heq
    exact absurd heq (ht ms)
  · rfl

end Members

namespace IsSound

variable {h : Heap} (hs : h.IsSound)

include hs

theorem size_le : Heap.initial.types.size ≤ h.types.size := by
  by_contra hlt
  have hlast := hs.singletons (Heap.initial.types.size - 1) (by decide)
  rw [Array.getElem?_eq_none (by omega), Array.getElem?_eq_getElem (by decide)] at hlast
  exact absurd hlast (by simp)

theorem ty_singleton (ht : t.index < Heap.initial.types.size) : h.ty t = Heap.initial.ty t := by
  simp only [ty, Array.getD_eq_getD_getElem?, hs.singletons _ ht]

@[simp] theorem ty_unknown : h.ty .unknown = .unknown := hs.ty_singleton (by decide)

@[simp] theorem ty_continues : h.ty .continues = .continues := hs.ty_singleton (by decide)

theorem isValue_singleton (ht : t.index < Heap.initial.types.size) (hc : t ≠ .continues) : h.IsValue t := by
  refine ⟨Nat.lt_of_lt_of_le ht hs.size_le, ?_⟩
  have hu : ∀ ms, h.ty t ≠ .union ms := by
    intro ms heq
    rw [hs.ty_singleton ht] at heq
    obtain ⟨i⟩ := t
    have : ∀ i < 9, ∀ ms, Heap.initial.ty ⟨i⟩ ≠ .union ms := by
      intro i hi
      interval_cases i <;> simp [Heap.ty, Heap.initial, scalarNames]
    exact this i ht ms heq
  rw [members_of_not_union hu]
  simpa using hc.symm

theorem isValue_unknown : h.IsValue .unknown := hs.isValue_singleton (by decide) (by decide)

theorem has_continues : h.Has .continues := Nat.lt_of_lt_of_le (by decide) hs.size_le

theorem has_of_mem_members (ht : h.Has t) (hm : m ∈ h.members t) : h.Has m ∧ ∀ ns, h.ty m ≠ .union ns := by
  have hfits := hs.types t
  cases heq : h.ty t with
  | union ms =>
    rw [members_of_union heq] at hm
    rw [heq] at hfits
    exact ⟨(hfits.2.2 m hm).1, (hfits.2.2 m hm).2.2⟩
  | _ =>
    have hu : ∀ ms, h.ty t ≠ .union ms := fun ms => by simp [heq]
    rw [members_of_not_union hu, List.mem_singleton] at hm
    exact hm ▸ ⟨ht, hu⟩

theorem known_of_mem_members (ht : h.ty t ≠ .unknown) (hm : m ∈ h.members t) : h.ty m ≠ .unknown := by
  have hfits := hs.types t
  cases heq : h.ty t with
  | union ms =>
    rw [members_of_union heq] at hm
    rw [heq] at hfits
    exact (hfits.2.2 m hm).2.1
  | _ =>
    rw [members_of_not_union fun ms => by simp [heq], List.mem_singleton] at hm
    exact hm ▸ ht

theorem members_ne_nil (t : TypeId) : h.members t ≠ [] := by
  have hfits := hs.types t
  cases heq : h.ty t with
  | union ms =>
    rw [heq] at hfits
    rw [members_of_union heq]
    exact List.ne_nil_of_length_pos (Nat.lt_of_lt_of_le Nat.zero_lt_two hfits.1)
  | _ =>
    rw [members_of_not_union fun ms => by simp [heq]]
    exact List.cons_ne_nil _ _

theorem not_union_of_members (ht : h.members t = [t]) (ms : List TypeId) : h.ty t ≠ .union ms := by
  intro hms
  have hfits : h.Fits (.union ms) := hms ▸ hs.types t
  rw [members_of_union hms] at ht
  rw [ht] at hfits
  exact absurd hfits.1 (by simp)

theorem isValue_of_mem_members (ht : h.IsValue t) (hm : m ∈ h.members t) : h.IsValue m := by
  obtain ⟨hhas, hu⟩ := hs.has_of_mem_members ht.has hm
  refine ⟨hhas, ?_⟩
  rw [members_of_not_union hu, List.mem_singleton]
  intro heq
  exact ht.unmarked (heq ▸ hm)

theorem equal_continues : h.equal t .continues = true ↔ t = .continues := by
  refine ⟨fun heq => ?_, fun heq => by simp [equal, heq]⟩
  by_contra hne
  have hty : h.ty t ≠ .continues := fun hty => hne (hs.marker t hty)
  have hc : h.ty .continues = .continues := hs.ty_continues
  simp only [equal, compareFuel, Bool.or_eq_true, beq_iff_eq, hne, false_or] at heq
  rw [compare] at heq
  simp only [hne, if_false, bind, StateT.bind, get, getThe, MonadStateOf.get, StateT.get, pure, StateT.run,
    List.not_mem_nil, modify, modifyGet, MonadStateOf.modifyGet, StateT.modifyGet, hc] at heq
  cases hty' : h.ty t with
  | continues => exact hty hty'
  | _ => rw [hty'] at heq; cases heq

theorem mayContinue_iff : h.mayContinue t = true ↔ TypeId.continues ∈ h.members t := by
  cases hty : h.ty t with
  | union ms =>
    have hne : t ≠ .continues := by
      intro heq
      rw [heq, hs.ty_continues] at hty
      cases hty
    simp only [mayContinue, hty, members_of_union hty, hasMember, Bool.or_eq_true, hs.equal_continues, hne,
      false_or, List.any_eq_true]
    exact ⟨fun ⟨m, hm, heq⟩ => heq ▸ hm, fun hm => ⟨_, hm, rfl⟩⟩
  | _ =>
    rw [members_of_not_union (fun ms => by simp [hty])]
    simp only [mayContinue, hty, Bool.or_false, hs.equal_continues, List.mem_singleton]
    exact eq_comm

end IsSound

theorem initial_ty (t : TypeId) : (Heap.initial.ty t = .continues → t = .continues) ∧
    Heap.initial.Fits (Heap.initial.ty t) := by
  obtain ⟨i⟩ := t
  by_cases hi : i < 9
  · interval_cases i <;> simp [Heap.ty, Heap.initial, scalarNames, Heap.Fits, TypeId.continues]
  · have hty : Heap.initial.ty ⟨i⟩ = .unknown := by
      rw [Heap.ty, Array.getD_eq_getD_getElem?, Array.getElem?_eq_none (Nat.le_of_not_lt hi), Option.getD_none]
    rw [hty]
    exact ⟨by simp, trivial⟩

theorem initial_isSound : Heap.initial.IsSound := by
  have hvalue : Heap.initial.IsValue .unknown := ⟨show 0 < 9 by decide, by decide⟩
  exact
    { singletons := fun _ _ => rfl
      marker := fun t => (initial_ty t).1
      types := fun t => (initial_ty t).2
      bindings := fun _ => hvalue
      functions := fun _ => ⟨hvalue, hvalue, fun _ h => (nomatch h), fun _ h => (nomatch h), fun _ h => (nomatch h),
        fun _ h => (nomatch h)⟩
      classes := fun _ => ⟨hvalue, fun _ h => (nomatch h), fun _ h => (nomatch h)⟩
      modules := fun _ => hvalue
      scopes := fun _ _ h => (nomatch h) }

end Heap

end Concordance
