import Concordance.Session.Load

/-!
# Finishing an analysis

What was never applied is applied, so that its body is looked at; names that nothing refers to are reported;
calls of classes become constructions.
-/

namespace Concordance

/-- Applies functions that were never applied, in order, leaving out those that have been in the meantime. -/
def applyWaiting (ev : Evaluator) (fs : List FunctionId) : Analysis Unit :=
  fs.forM fun f => do
    if f ∈ (← get).uncalled then discard <| apply ev f none none

/-- Applies functions that were never applied until none is left; `sweeps` are done before. -/
def sweep (ev : Evaluator) : Nat → Nat → Analysis Nat
  | 0, _ => throw .outOfFuel
  | fuel + 1, sweeps => do
    match (← get).uncalled with
    | [] => return sweeps
    | waiting =>
      trace s!"sweep {sweeps + 1}: applying {waiting.length} uncalled functions"
      applyWaiting ev waiting
      sweep ev fuel (sweeps + 1)

/-- Applies functions that were never applied until none is left. -/
def applyUncalled : Analysis Nat := do
  let s ← get
  let nodes := s.loading.cache.weight + (← read).workspace.top.weight
  evaluating 0 fun ev => sweep ev (nodes + s.uncalled.length + 2) 0

/-- Whether one of the alternatives of a type is a class, function or module. -/
def Heap.holdsDefinition (h : Heap) (t : TypeId) : Bool :=
  (h.members t).any fun m => match h.ty m with
    | .classObject _ | .function .. | .module _ => true
    | _ => false

def isExemptName (name : String) : Bool :=
  name.toList.head? == some '_' || name == "self" || name == "cls"

/-- The file of a binding to be reported as unused: a name from source that nothing refers to. -/
def Heap.unusedIn? (h : Heap) (b : Binding) : Option String :=
  if !b.refs.isEmpty || b.isBuiltin || b.isSynthetic then none
  else if b.kind = .attrName || b.kind = .module then none
  else if isExemptName b.name || h.holdsDefinition b.type then none
  else b.file

def reportUnused : Analysis Unit := do
  let h ← theHeap
  h.bindings.toList.forM fun b =>
    match h.unusedIn? b with
    | none => return
    | some file => reportAt file b.start b.stop .unusedVariable ("Unused variable: " ++ b.name) .info

def reportUnusedIfAsked : Analysis Unit := do
  if (← read).settings.reportUnused then reportUnused

def Heap.refersToClass (h : Heap) (bs : List BindingId) : Bool :=
  bs.any fun b => match (h.firstUseful? (h.binding b).type).map h.ty with
    | some (.classObject _) => true
    | _ => false

def Heap.reclassify (h : Heap) (r : Reference) (bs : List BindingId) : Reference :=
  if r.kind = .call && h.refersToClass bs then { r with kind := .new } else r

def reclassifyCalls : Analysis Nat := do
  let s ← get
  let h := s.heap
  let changed := h.references.zipWith h.reclassify s.links
  set { s with heap.references := changed }
  return ((h.references.zip changed).filter fun p => p.1.kind ≠ p.2.kind).size

/-- Finishes an analysis, in which `applyUncalled` applies what was never applied. A second time changes
nothing. -/
def finishBy (applyUncalled : Analysis Nat) : Analysis Unit := do
  if (← get).finished then return
  else
    modify fun s => { s with finished := true }
    let sweeps ← applyUncalled
    reportUnusedIfAsked
    let changed ← reclassifyCalls
    trace s!"finished after {sweeps} sweeps, {changed} calls reclassified"

def finish : Analysis Unit := finishBy applyUncalled

def analyze (paths : List String) : Analysis Unit := do
  startSession
  paths.forM fun p => discard (loadBelow p)
  finish

end Concordance
