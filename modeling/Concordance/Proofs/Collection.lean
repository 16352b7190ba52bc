import Concordance.Proofs.Session.Directory

/-!
# Which files are collected

The files that are collected below a directory are the source files below it that no pattern excludes, except those that
are in a directory that is hidden or excluded.
-/

namespace Concordance

open Text (Glob.describes)

/-- The order of collected files: those of a directory by name, then what is in its subdirectories, these by name. -/
inductive ComesBefore : List String → List String → Prop
  | files {m n : String} (less : m < n) : ComesBefore [m] [n]
  | directories {m n : String} {r s : List String} (left : r ≠ []) (right : s ≠ []) (less : m < n) :
      ComesBefore (m :: r) (n :: s)
  | fileFirst (m n : String) {s : List String} (right : s ≠ []) : ComesBefore [m] (n :: s)
  | inside (m : String) {r s : List String} (before : ComesBefore r s) : ComesBefore (m :: r) (m :: s)

theorem ComesBefore.right_ne_nil (h : ComesBefore r s) : s ≠ [] := by
  cases h <;> exact List.cons_ne_nil _ _

theorem ComesBefore.irrefl (r : List String) : ¬ComesBefore r r := by
  induction r with
  | nil => exact fun h => h.right_ne_nil rfl
  | cons m r ih =>
    intro h
    cases h with
    | files less => exact String.lt_irrefl m less
    | directories _ _ less => exact String.lt_irrefl m less
    | fileFirst _ _ right => exact right rfl
    | inside _ before => exact ih before

namespace Path

theorem below_injective {p : Path} (h : p.below r = p.below s) : r = s :=
  List.append_cancel_left (congrArg parts h)

/-- The path `p` comes before `q` in the order of what is collected below a directory. -/
def ComesBeforeBelow (here p q : Path) : Prop := ∃ r s, p = here.below r ∧ q = here.below s ∧ ComesBefore r s

theorem ComesBeforeBelow.ne {here : Path} (h : here.ComesBeforeBelow p q) : p ≠ q := by
  obtain ⟨r, s, rfl, rfl, hbefore⟩ := h
  intro heq
  exact ComesBefore.irrefl r (below_injective heq ▸ hbefore)

end Path

namespace Node

section Order

end Order

end Node

variable {env : Environment}

end Concordance
