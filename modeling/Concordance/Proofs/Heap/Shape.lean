import Mathlib.Data.List.Cycle
import Concordance.Proofs.Heap.Operations

/-!
# The shape of the type graph

A type is made of others: a list of its elements, a function of what it is applied to and gives back, a union of its
members.
-/

namespace Concordance

/-- The types that a function is made of: what it gives back, has yielded, takes by default and was applied to. -/
def Function.parts (f : Function) : List TypeId :=
  f.returns :: (f.yields.toList ++ f.defaults.values ++ f.arrows.flatMap fun a => [a.1, a.2])

def Ty.isMutable : Ty → Bool
  | .list .. | .dict .. | .function .. => true
  | _ => false

/-- The members of a union and the elements of a tuple, which never change. -/
def Ty.fixedParts : Ty → List TypeId
  | .tuple elements => elements
  | .union members => members
  | _ => []

namespace Heap

def parts (h : Heap) (t : TypeId) : List TypeId :=
  match h.ty t with
  | .list element shape => element :: shape.getD []
  | .tuple elements => elements
  | .dict key value => [key, value]
  | .function f receiver => receiver.toList ++ (h.function f).parts
  | .union members => members
  | _ => []

def Occurs (h : Heap) (u t : TypeId) : Prop := Relation.ReflTransGen (fun a b => b ∈ h.parts a) t u

def IsMember (h : Heap) (u t : TypeId) : Prop := u ∈ (h.ty t).fixedParts

section Marker

variable {h : Heap} {t u : TypeId}

theorem IsSound.isValue_functionPart (hs : h.IsSound) (hu : u ∈ (h.function f).parts) : h.IsValue u := by
  have hf := hs.functions f
  simp only [Function.parts, List.mem_cons, List.mem_append, Option.mem_toList, List.mem_flatMap, List.not_mem_nil,
    or_false] at hu
  rcases hu with rfl | (hu | hu) | ⟨a, ha, rfl | rfl⟩
  · exact hf.returns
  · exact hf.yields u hu
  · exact hf.defaults u hu
  · exact (hf.arrows a ha).1
  · exact (hf.arrows a ha).2

theorem IsSound.isValue_part (hs : h.IsSound) (hn : ∀ ms, h.ty t ≠ .union ms) (hu : u ∈ h.parts t) : h.IsValue u := by
  have hfits := hs.types t
  unfold parts at hu
  cases hty : h.ty t <;> simp only [hty] at hu hfits
  case list element shape =>
    rcases List.mem_cons.1 hu with rfl | hu
    · exact hfits.1
    · exact hfits.2 u hu
  case tuple elements => exact hfits u hu
  case dict key value =>
    simp only [List.mem_cons, List.not_mem_nil, or_false] at hu
    rcases hu with rfl | rfl
    · exact hfits.1
    · exact hfits.2
  case function f receiver =>
    rcases List.mem_append.1 hu with hu | hu
    · exact hfits u (Option.mem_toList.1 hu)
    · exact hs.isValue_functionPart hu
  case union ms => exact absurd hty (hn ms)
  all_goals cases hu

theorem IsSound.isValue_of_mem_parts (hs : h.IsSound) (ht : h.IsValue t) (hu : u ∈ h.parts t) : h.IsValue u := by
  by_cases hn : ∀ ms, h.ty t ≠ .union ms
  · exact hs.isValue_part hn hu
  · simp only [ne_eq, not_forall, not_not] at hn
    obtain ⟨ms, hms⟩ := hn
    refine hs.isValue_of_mem_members ht ?_
    rw [members_of_union hms]
    simpa only [parts, hms] using hu

theorem IsSound.isValue_of_occurs (hs : h.IsSound) (ht : h.IsValue t) (hu : h.Occurs u t) : h.IsValue u := by
  induction hu with
  | refl => exact ht
  | tail _ hpart ih => exact hs.isValue_of_mem_parts ih hpart

theorem IsSound.isValue_iff (hs : h.IsSound) : h.IsValue t ↔ h.Has t ∧ ¬ h.Occurs .continues t := by
  refine ⟨fun ht => ⟨ht.has, fun hc => ?_⟩, fun ⟨hhas, hc⟩ => ⟨hhas, fun hm => hc ?_⟩⟩
  · refine (hs.isValue_of_occurs ht hc).unmarked ?_
    rw [members_of_not_union (by simp [hs.ty_continues])]
    exact List.mem_singleton.2 rfl
  · cases hty : h.ty t with
    | union ms =>
      rw [members_of_union hty] at hm
      refine .single ?_
      simpa only [parts, hty] using hm
    | _ =>
      rw [members_of_not_union fun ms => by simp [hty], List.mem_singleton] at hm
      exact hm ▸ .refl

/-- The marker does not occur in what is kept: in the types of bindings, in what functions are made of, in the parts
of containers. -/
structure Unmarked (h : Heap) : Prop where
  bindings : ∀ b, ¬ h.Occurs .continues (h.binding b).type
  functions : ∀ f, ∀ t ∈ (h.function f).parts, ¬ h.Occurs .continues t
  containers : ∀ t, (∀ ms, h.ty t ≠ .union ms) → ∀ u ∈ h.parts t, ¬ h.Occurs .continues u

theorem IsSound.unmarked (hs : h.IsSound) : h.Unmarked where
  bindings b := (hs.isValue_iff.1 (hs.bindings b)).2
  functions _ _ ht := (hs.isValue_iff.1 (hs.isValue_functionPart ht)).2
  containers _ hn _ hu := (hs.isValue_iff.1 (hs.isValue_part hn hu)).2

end Marker

section Layers

/-- The members of unions and the elements of tuples stand below them. -/
def Layered (h : Heap) : Prop := ∀ t u, h.IsMember u t → u.index < t.index

variable {h h' : Heap}

theorem Layered.congr (hl : h.Layered) (types : h'.types = h.types) : h'.Layered := by
  intro t u hu
  rw [IsMember, Heap.ty, types] at hu
  exact hl t u hu

theorem Change.layered (hc : Change h h') (hl : h.Layered) : h'.Layered := by
  cases hc with
  | newType ty fits plain =>
    intro t u hu
    rw [IsMember, ty_push] at hu
    split at hu
    · rename_i hlast
      rw [hlast]
      cases ty
      case tuple elements => exact (fits u hu).has
      case union members => exact (fits.2.2 u hu).1
      all_goals cases hu
    · exact hl t u hu
  | widen v ty fits like =>
    intro t u hu
    rw [IsMember, ty_set] at hu
    split at hu
    · revert like hu
      cases h.ty v <;> cases ty <;> simp [Widens, Ty.fixedParts]
    · exact hl t u hu
  | newModule m type =>
    intro t u hu
    rw [IsMember, ty_of_push rfl] at hu
    split at hu
    · cases hu
    · exact hl t u hu
  | _ => exact hl.congr rfl

theorem Evolves.layered (he : Evolves h h') (hl : h.Layered) : h'.Layered := by
  induction he with
  | refl => exact hl
  | tail _ hc ih => exact hc.layered ih

theorem Layered.index_le (hl : h.Layered) (hm : m ∈ h.members t) : m.index ≤ t.index := by
  cases hty : h.ty t with
  | union ms =>
    rw [members_of_union hty] at hm
    refine Nat.le_of_lt (hl t m ?_)
    rwa [IsMember, hty]
  | _ =>
    rw [members_of_not_union fun ms => by simp [hty], List.mem_singleton] at hm
    exact hm ▸ Nat.le_refl _

theorem Layered.wellFounded (hl : h.Layered) : WellFounded h.IsMember :=
  Subrelation.wf (fun {u t} hu => hl t u hu) (InvImage.wf TypeId.index Nat.lt_wfRel.wf)

theorem isMember_of_mem_parts (hn : (h.ty t).isMutable = false) (hu : u ∈ h.parts t) : h.IsMember u t := by
  unfold parts at hu
  rw [IsMember]
  cases hty : h.ty t <;> simp only [hty] at hu hn
  case list | dict | function => cases hn
  all_goals exact hu

theorem Layered.exists_mutable (hl : h.Layered) (c : Cycle TypeId) (hne : c ≠ Cycle.nil)
    (hc : c.Chain fun a b => b ∈ h.parts a) : ∃ t ∈ c, (h.ty t).isMutable = true := by
  by_contra hnone
  have hfixed : ∀ t ∈ c, (h.ty t).isMutable = false := by simpa using hnone
  refine hne ?_
  -- Otherwise every part on the cycle stands below the one before it.
  have hbelow : c.Chain fun a b => b.index < a.index := by
    induction c with
    | nil => trivial
    | cons a l =>
      rw [Cycle.chain_coe_cons] at hc ⊢
      refine hc.imp_of_mem_imp fun x y hx _ hxy => hl x y (isMember_of_mem_parts (hfixed x ?_) hxy)
      simp only [Cycle.mem_coe_iff, List.mem_cons, List.mem_append, List.not_mem_nil, or_false] at hx ⊢
      tauto
  have : IsTrans TypeId fun a b => b.index < a.index := ⟨fun _ _ _ hab hbc => Nat.lt_trans hbc hab⟩
  have : Std.Irrefl fun a b : TypeId => b.index < a.index := ⟨fun a => Nat.lt_irrefl a.index⟩
  exact hbelow.eq_nil_of_irrefl

/-- The shape of a type graph: unions have at least two members, which are known and no unions, and cycles pass
through types that may change. -/
structure WellShaped (h : Heap) : Prop where
  unions : ∀ t ms, h.ty t = .union ms → 2 ≤ ms.length ∧ ∀ m ∈ ms, h.ty m ≠ .unknown ∧ ∀ ns, h.ty m ≠ .union ns
  founded : WellFounded h.IsMember
  cycles : ∀ c : Cycle TypeId, c ≠ Cycle.nil → (c.Chain fun a b => b ∈ h.parts a) →
    ∃ t ∈ c, (h.ty t).isMutable = true

theorem Layered.wellShaped (hl : h.Layered) (hs : h.IsSound) : h.WellShaped where
  unions t ms hms := by
    have hfits : h.Fits (.union ms) := hms ▸ hs.types t
    exact ⟨hfits.1, fun m hm => (hfits.2.2 m hm).2⟩
  founded := hl.wellFounded
  cycles := hl.exists_mutable

theorem initial_layered : Heap.initial.Layered := by
  intro t u hu
  obtain ⟨i⟩ := t
  by_cases hi : i < 9
  · interval_cases i <;> cases hu
  · have hty : Heap.initial.ty ⟨i⟩ = .unknown := by
      rw [Heap.ty, Array.getD_eq_getD_getElem?, Array.getElem?_eq_none (Nat.le_of_not_lt hi), Option.getD_none]
    rw [IsMember, hty] at hu
    cases hu

end Layers

end Heap

end Concordance
