import Mathlib.Algebra.Ring.Nat
import Concordance.Syntax.Module

/-!
# Sizes of the parts of a tree

The size of a row is the sum of the sizes of its members, so no member is larger than the row.
-/

namespace Concordance.Syntax

theorem le_sum_of_mem {α : Type} {f : α → Nat} {x : α} {xs : List α} (hx : x ∈ xs) : f x ≤ (xs.map f).sum := by
  induction xs with
  | nil => cases hx
  | cons y ys ih =>
    rw [List.map_cons, List.sum_cons]
    rcases List.mem_cons.1 hx with rfl | hx
    · exact Nat.le_add_right ..
    · exact Nat.le_add_left_of_le (ih hx)

namespace Expr

theorem sizeOfList_eq (es : List Expr) : sizeOfList es = (es.map size).sum := by
  induction es with
  | nil => rfl
  | cons e es ih => rw [sizeOfList, ih, List.map_cons, List.sum_cons]

theorem sizeOfElements_eq (es : List (Element Expr)) : sizeOfElements es = (es.map fun e => e.value.size).sum := by
  induction es with
  | nil => rfl
  | cons e es ih => rw [sizeOfElements, ih, List.map_cons, List.sum_cons]

theorem sizeOfArgs_eq (es : List (Arg Expr)) : sizeOfArgs es = (es.map fun e => e.value.size).sum := by
  induction es with
  | nil => rfl
  | cons e es ih => cases e <;> rw [sizeOfArgs, ih, List.map_cons, List.sum_cons] <;> rfl

theorem sizeOfItems_eq (es : List (DictItem Expr)) : sizeOfItems es = (es.map fun e => sizeOfItems [e]).sum := by
  induction es with
  | nil => rfl
  | cons e es ih => cases e <;> simp [sizeOfItems, ih]

theorem sizeOfIndex_eq (es : List (Index Expr)) : sizeOfIndex es = (es.map fun e => sizeOfIndex [e]).sum := by
  induction es with
  | nil => rfl
  | cons e es ih => cases e <;> simp [sizeOfIndex, ih]

theorem sizeOfParamList_eq (ps : List (Param Expr)) : sizeOfParamList ps = (ps.map sizeOfParam).sum := by
  induction ps with
  | nil => rfl
  | cons p ps ih => rw [sizeOfParamList, ih, List.map_cons, List.sum_cons]

mutual

theorem size_le_of_mem_leaves {x : Expr} : ∀ {e : Expr}, x ∈ e.leaves → x.size ≤ e.size := fun {e} hx => by
  cases e with
  | list _ es | tuple _ es =>
    simp only [leaves] at hx
    exact Nat.le_succ_of_le (size_le_of_mem_leavesOf hx)
  | starred _ inner =>
    simp only [leaves] at hx
    exact Nat.le_succ_of_le (size_le_of_mem_leaves hx)
  | _ =>
    simp only [leaves, List.mem_singleton] at hx
    exact hx ▸ Nat.le_refl _

theorem size_le_of_mem_leavesOf {x : Expr} : ∀ {es : List (Element Expr)}, x ∈ leavesOf es → x.size ≤ sizeOfElements es
  | [], hx => by simp [leavesOf] at hx
  | ⟨_, e⟩ :: rest, hx => by
    simp only [leavesOf, List.mem_append] at hx
    rcases hx with hx | hx
    · exact Nat.le_add_right_of_le (size_le_of_mem_leaves hx)
    · exact Nat.le_add_left_of_le (size_le_of_mem_leavesOf hx)

end

theorem mem_leavesOf : x ∈ leavesOf es ↔ ∃ e ∈ es, x ∈ e.value.leaves := by
  induction es with
  | nil => simp [leavesOf]
  | cons e es ih =>
    obtain ⟨starred, value⟩ := e
    simp [leavesOf, ih]

end Expr

namespace Pattern

theorem sizeOfList_eq (ps : List Pattern) : sizeOfList ps = (ps.map size).sum := by
  induction ps with
  | nil => rfl
  | cons p ps ih => rw [sizeOfList, ih, List.map_cons, List.sum_cons]

theorem sizeOfEntries_eq (es : List (Expr × Pattern)) :
    sizeOfEntries es = (es.map fun e => e.1.size + e.2.size).sum := by
  induction es with
  | nil => rfl
  | cons e es ih => rw [sizeOfEntries, ih, List.map_cons, List.sum_cons]

end Pattern

namespace Stmt

theorem sizeOfContexts_eq (cs : List Context) :
    sizeOfContexts cs = (cs.map fun c => c.value.size + Expr.sizeOfOption c.target).sum := by
  induction cs with
  | nil => rfl
  | cons c cs ih => rw [sizeOfContexts, ih, List.map_cons, List.sum_cons]

theorem sizeOfBlock_eq (b : List Stmt) : sizeOfBlock b = (b.map size).sum := by
  induction b with
  | nil => rfl
  | cons s b ih => rw [sizeOfBlock, ih, List.map_cons, List.sum_cons]

theorem sizeOfHandlers_eq (hs : List (Handler Stmt)) : sizeOfHandlers hs = (hs.map fun h => sizeOfHandlers [h]).sum := by
  induction hs with
  | nil => rfl
  | cons h hs ih => simp [sizeOfHandlers, ih]

theorem sizeOfCases_eq (cs : List (Case Stmt)) : sizeOfCases cs = (cs.map fun c => sizeOfCases [c]).sum := by
  induction cs with
  | nil => rfl
  | cons c cs ih => simp [sizeOfCases, ih]

end Stmt

end Concordance.Syntax
