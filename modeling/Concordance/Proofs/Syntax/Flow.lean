import Mathlib.Tactic.Common
import Concordance.Syntax.Basic

/-!
# The flow of control

Whether control may go on after a statement can be read off its form: `fallsThrough` looks at nothing else.
-/

namespace Concordance.Syntax

mutual

/-- Control may go on after a statement. Loops may not be entered and no case may match. -/
def Stmt.fallsThrough : Stmt → Bool
  | .giveBack _ | .raise _ _ => false
  | .branch _ body orelse => allFallThrough body || optionFallsThrough true orelse
  | .tryBlock body handlers orelse final =>
    (allFallThrough body || someFallsThrough handlers || optionFallsThrough false orelse) && optionFallsThrough true final
  | .line body | .withBlock _ body => allFallThrough body
  | _ => true

/-- Control may go on after a block: after each of its statements. -/
def Stmt.allFallThrough : List Stmt → Bool
  | [] => true
  | st :: rest => st.fallsThrough && allFallThrough rest

def Stmt.optionFallsThrough (absent : Bool) : Option (List Stmt) → Bool
  | none => absent
  | some b => allFallThrough b

def Stmt.someFallsThrough : List (Handler Stmt) → Bool
  | [] => false
  | ⟨_, _, body⟩ :: rest => allFallThrough body || someFallsThrough rest

end

/-- How control may leave code. -/
structure Flow where
  falls : Bool
  gives : Bool
  clear : Bool

namespace Flow

def onward : Flow := ⟨true, false, true⟩

def away : Flow := ⟨false, false, true⟩

def back : Flow := ⟨false, true, true⟩

def andThen (a b : Flow) : Flow := ⟨a.falls && b.falls, a.gives || b.gives, a.clear && b.clear⟩

/-- The flow of one of two branches. -/
def orElse (a b : Flow) : Flow :=
  ⟨a.falls || b.falls, a.gives || b.gives, a.clear && b.clear && (a.falls || !b.falls || !(a.gives && b.gives))⟩

@[simp] theorem onward_andThen (a : Flow) : onward.andThen a = a := rfl

@[simp] theorem andThen_onward (a : Flow) : a.andThen onward = a := by simp [andThen, onward]

theorem andThen_assoc (a b c : Flow) : (a.andThen b).andThen c = a.andThen (b.andThen c) := by
  simp [andThen, Bool.and_assoc, Bool.or_assoc]

end Flow

mutual

def Stmt.flow : Stmt → Flow
  | .giveBack _ => .back
  | .raise _ _ => .away
  | .branch _ body orelse => (blockFlow body).orElse ((optionFlow orelse).getD .onward)
  | .whileLoop _ body orelse | .forLoop _ _ body orelse =>
    (optionFlow orelse).toList.foldl .orElse (Flow.onward.orElse (blockFlow body))
  | .tryBlock body handlers orelse final =>
    ((optionFlow orelse).toList.foldl .orElse ((handlerFlows handlers).foldl .orElse (blockFlow body))).andThen
      ((optionFlow final).getD .onward)
  | .matchBlock _ cases => (caseFlows cases).foldl .orElse .onward
  | .line body | .withBlock _ body => blockFlow body
  | _ => .onward

def Stmt.blockFlow : List Stmt → Flow
  | [] => .onward
  | st :: rest => st.flow.andThen (blockFlow rest)

def Stmt.optionFlow : Option (List Stmt) → Option Flow
  | none => none
  | some b => some (blockFlow b)

def Stmt.handlerFlows : List (Handler Stmt) → List Flow
  | [] => []
  | ⟨_, _, body⟩ :: rest => blockFlow body :: handlerFlows rest

def Stmt.caseFlows : List (Case Stmt) → List Flow
  | [] => []
  | ⟨_, _, body⟩ :: rest => blockFlow body :: caseFlows rest

end

theorem Flow.falls_foldl (a : Flow) (fs : List Flow) : (fs.foldl .orElse a).falls = (a.falls || fs.any (·.falls)) := by
  induction fs generalizing a with
  | nil => simp
  | cons f fs ih => rw [List.foldl_cons, ih, List.any_cons, ← Bool.or_assoc]; rfl

namespace Stmt

mutual

theorem flow_falls : ∀ st : Stmt, st.flow.falls = st.fallsThrough
  | .branch _ body orelse => by
    rw [flow, fallsThrough, ← blockFlow_falls body, ← optionFlow_falls true orelse]
    cases optionFlow orelse <;> rfl
  | .whileLoop .. | .forLoop .. => by
    rw [flow, Flow.falls_foldl]
    rfl
  | .matchBlock .. => by
    rw [flow, Flow.falls_foldl]
    rfl
  | .tryBlock body handlers orelse final => by
    rw [flow, fallsThrough, ← blockFlow_falls body, ← handlerFlows_falls handlers, ← optionFlow_falls false orelse,
      ← optionFlow_falls true final, ← Flow.falls_foldl]
    cases optionFlow orelse <;> cases optionFlow final <;> simp [Flow.andThen, Flow.orElse, Flow.onward]
  | .line body | .withBlock _ body => blockFlow_falls body
  | .giveBack _ | .raise .. | .functionDef .. | .classDef .. | .assign .. | .declare .. | .augment .. | .typeAlias ..
  | .delete _ | .importModules _ | .importNames .. | .importAll .. | .expr _ | .assert .. | .global _ | .nonlocal _
  | .pass | .leaveLoop | .nextRound | .unmodelled _ => rfl

theorem blockFlow_falls : ∀ b : List Stmt, (blockFlow b).falls = allFallThrough b
  | [] => rfl
  | st :: rest => by
    rw [blockFlow, allFallThrough, ← flow_falls st, ← blockFlow_falls rest]
    rfl

theorem optionFlow_falls (absent : Bool) : ∀ b : Option (List Stmt),
    ((optionFlow b).map (·.falls)).getD absent = optionFallsThrough absent b
  | none => rfl
  | some b => blockFlow_falls b

theorem handlerFlows_falls : ∀ hs : List (Handler Stmt), (handlerFlows hs).any (·.falls) = someFallsThrough hs
  | [] => rfl
  | ⟨_, _, body⟩ :: rest => by
    rw [handlerFlows, someFallsThrough, List.any_cons, ← blockFlow_falls body, ← handlerFlows_falls rest]

end

theorem andThen_blockFlow (a : Flow) (b : List Stmt) :
    a.andThen (blockFlow b) = b.foldl (fun a st => a.andThen st.flow) a := by
  induction b generalizing a with
  | nil => exact Flow.andThen_onward a
  | cons st rest ih => rw [blockFlow, ← Flow.andThen_assoc, ih, List.foldl_cons]

theorem foldl_handlerFlows (a : Flow) (hs : List (Handler Stmt)) :
    (handlerFlows hs).foldl .orElse a = hs.foldl (fun a h => a.orElse (blockFlow h.body)) a := by
  induction hs generalizing a with
  | nil => rfl
  | cons h hs ih => exact ih _

theorem foldl_caseFlows (a : Flow) (cs : List (Case Stmt)) :
    (caseFlows cs).foldl .orElse a = cs.foldl (fun a c => a.orElse (blockFlow c.body)) a := by
  induction cs generalizing a with
  | nil => rfl
  | cons c cs ih => exact ih _

end Stmt

end Concordance.Syntax
