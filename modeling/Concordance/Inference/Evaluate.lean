import Concordance.Inference.Stmt

/-!
# Evaluation

The rules put together. A task hands on tasks on smaller trees, except where it enters the body of a function or a
module.
-/

namespace Concordance

def perform (ev : Evaluator) {α : Type} : Task α → Analysis α
  | .expr place e => exprType ev place e
  | .stmt place s => stmtType ev place s
  | .bind place target value kind source => bindTarget ev place target value kind source
  | .pattern place p subject => bindCaptures ev place subject p

def evaluate : Nat → {α : Type} → Task α → Analysis α
  | 0, _, _ => throw .outOfFuel
  | fuel + 1, _, task => perform ⟨fun t => evaluate fuel t⟩ task

def Evaluator.withFuel (fuel : Nat) : Evaluator := ⟨fun t => evaluate fuel t⟩

/-- A bound on the depth of evaluation when trees of the given total size can be entered: as many bodies as
there are nodes, one inside the other, each as deep as all of them. -/
def fuelFor (size : Nat) : Nat := (size + 2) * (size + 2)

/-- Does work with an evaluator that suffices for all trees that there are: those parsed before, those of the
workspace and one more of the given size. -/
def evaluating {α : Type} (size : Nat) (work : Evaluator → Analysis α) : Analysis α := do
  let parsed := (← get).loading.cache.weight
  work (.withFuel (fuelFor (parsed + (← read).workspace.top.weight + size)))

end Concordance
