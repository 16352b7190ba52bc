import Concordance.Inference.Call

/-!
# Iteration

What comes out of a value when it is gone through. Going through a dictionary gives its keys, taking it apart its
values.
-/

namespace Concordance

/-- What a container is asked for. -/
inductive Access
  | loop
  | unpacking
deriving DecidableEq, Repr, Inhabited

def Access.ofDict (access : Access) (key value : TypeId) : TypeId :=
  match access with
  | .loop => key
  | .unpacking => value

/-- The elements of an iterator: of a container its elements, of an object what its own method gives. -/
def iteratorElement (ev : Evaluator) (access : Access) (iterator : TypeId) : Analysis TypeId := do
  let h ← theHeap
  match h.ty iterator with
  | .list e _ => return e
  | .tuple es => unionAll es
  | .dict k v => return access.ofDict k v
  | .scalar _ => return if h.isText iterator then iterator else .unknown
  | _ => return (← callMethod? ev iterator "__next__").getD .unknown

/-- The elements of a value that is no union; none if it cannot be gone through. -/
def elementOfOne? (ev : Evaluator) (access : Access) (value : TypeId) : Analysis (Option TypeId) := do
  let h ← theHeap
  match h.ty value with
  | .unknown => return some .unknown
  | .list e _ => return some e
  | .tuple es => return some (← unionAll es)
  | .dict k v => return some (access.ofDict k v)
  | .scalar _ => return if h.isText value then some value else none
  | _ =>
    match ← callMethod? ev value "__iter__" with
    | none => return none
    | some iterator =>
      let members := (← theHeap).members iterator
      return some (← members.foldlM (fun acc m => do union acc (← iteratorElement ev access m)) .unknown)

def element? (ev : Evaluator) (access : Access) (value : TypeId) : Analysis (Option TypeId) := do
  match (← theHeap).ty value with
  | .union ms =>
    return some (← ms.foldlM
      (fun acc m => do union acc ((← elementOfOne? ev access m).getD .unknown)) .unknown)
  | _ => elementOfOne? ev access value

/-- One more alternative of an iterated value: the elements so far and whether anything can be gone through. -/
def iteratedStep (ev : Evaluator) (soFar : TypeId × Bool) (member : TypeId) : Analysis (TypeId × Bool) := do
  match ← element? ev .loop member with
  | some e => return (← union soFar.1 e, true)
  | none => return soFar

/-- What a loop over a value gives in each round. -/
def iterated (ev : Evaluator) (value : TypeId) (site : Option Location) : Analysis TypeId := do
  let (result, iterable) ← ((← theHeap).members value).foldlM (iteratedStep ev) (.unknown, false)
  let h ← theHeap
  if !iterable && !h.isUnknown value then
    report site .notIterable ("not an iterable type: " ++ h.print value)
  return result

end Concordance
