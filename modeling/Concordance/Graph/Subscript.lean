import Concordance.Graph.Objects
import Concordance.Graph.Printing

/-!
# Subscripts

The type of `value[index]`. A list as index stands for a slice. Unions of values are taken apart; an object is
asked for its own subscript methods.
-/

namespace Concordance

variable {m : Type → Type} [Monad m] [MonadLiftT HeapM m]

def Heap.isSlice (h : Heap) (index : TypeId) : Bool :=
  match h.ty index with
  | .list .. => true
  | _ => false

def Heap.isIndex (h : Heap) (index : TypeId) : Bool := h.isUnknown index || h.isNumeric index

/-- The methods that subscripting a value calls, in the order in which they are looked for. -/
def subscriptMethods : List String := ["__getslice__", "__getitem__"]

def subscriptByMethod (report : ProblemKind → String → m Unit) (apply : FunctionId → TypeId → m TypeId)
    (value : TypeId) : m TypeId := do
  let h ← (get : HeapM Heap)
  let found := subscriptMethods.findSome? fun name => (h.attrOf value name).map fun bs => (name, bs)
  match found with
  | none =>
    report .notSliceable ("The type can't be sliced: " ++ h.print value)
    return .unknown
  | some (name, bindings) =>
    let method ← typeOfBindings bindings
    let h ← (get : HeapM Heap)
    match h.functionsIn method with
    | [] =>
      report .notSliceable ("The type's " ++ name ++ " method is not a function: " ++ h.print method)
      return .unknown
    | functions =>
      functions.foldlM (fun acc f => do (union acc (← apply f value) : HeapM TypeId)) .unknown

def subscriptList (report : ProblemKind → String → m Unit) (apply : FunctionId → TypeId → m TypeId)
    (list element index : TypeId) : m TypeId := do
  let h ← (get : HeapM Heap)
  if h.isSlice index then return list
  if h.isIndex index then return element
  subscriptByMethod report apply list

def subscriptOne (report : ProblemKind → String → m Unit) (apply : FunctionId → TypeId → m TypeId)
    (value index : TypeId) : m TypeId := do
  let h ← (get : HeapM Heap)
  match h.ty value with
  | .unknown => return .unknown
  | .list e _ => subscriptList report apply value e index
  | .tuple es =>
    let element ← unionAll es
    let list ← newList element
    subscriptList report apply list element index
  | .dict _ v => if h.isSlice index then listOf value else return v
  | .classObject _ => return value
  | _ =>
    if h.isText value then
      if h.isSlice index || h.isIndex index then return value
      report .wrongSubscript "Possible KeyError (wrong type for subscript)"
      return .unknown
    subscriptByMethod report apply value

/-- Subscripts a value; `apply` calls a subscript method on a receiver, `report` takes problems. -/
def subscript (report : ProblemKind → String → m Unit) (apply : FunctionId → TypeId → m TypeId)
    (value index : TypeId) : m TypeId := do
  match (← (get : HeapM Heap)).ty value with
  | .union ms =>
    ms.foldlM
      (fun acc t => do (union acc (← subscriptOne report apply t index) : HeapM TypeId)) .unknown
  | _ => subscriptOne report apply value index

end Concordance
