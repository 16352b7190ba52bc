import Concordance.Graph.Union

/-!
# Containers

Lists, tuples and dictionaries. Sets, generators and other iterables count as lists. A list or dictionary is
widened in place by what is stored in it; a tuple never changes.
-/

namespace Concordance

def newList (element : TypeId) : HeapM TypeId := newType (.list element none)

def newTuple (elements : List TypeId) : HeapM TypeId := newType (.tuple elements)

def newDict (key value : TypeId) : HeapM TypeId := newType (.dict key value)

def addElement (t element : TypeId) : HeapM Unit := do
  match (← get).ty t with
  | .list e shape => setType t (.list (← union e element) (shape.map (· ++ [element])))
  | _ => return

/-- Widens a list by an element stored at some index; its shape is not known any more. -/
def widenList (t element : TypeId) : HeapM Unit := do
  match (← get).ty t with
  | .list e _ => setType t (.list (← union e element) none)
  | _ => return

def addEntry (t key value : TypeId) : HeapM Unit := do
  match (← get).ty t with
  | .dict k v => do
    let keys ← union k key
    setType t (.dict keys v)
    let values ← union v value
    setType t (.dict keys values)
  | _ => return

def addToUnion (t member : TypeId) : HeapM Unit := do
  let h ← get
  match h.ty t with
  | .union ms => setType t (.union (h.addMember ms member))
  | _ => return

/-- Adds to a container: an element to a list, a key and a value to a dictionary, an alternative to a union. -/
def addTo (t : TypeId) (parts : List TypeId) : HeapM Unit := do
  match (← get).ty t, parts with
  | .list .., [e] => addElement t e
  | .dict .., [k, v] => addEntry t k v
  | .union _, [m] => addToUnion t m
  | _, _ => return

def setElement (t : TypeId) (element : TypeId) : HeapM Unit := do
  match (← get).ty t with
  | .list _ shape => setType t (.list element shape)
  | _ => return

/-- The place of an item in a row of the given length; a negative index counts from the end. -/
def placeInRow (length : Nat) (index : Int) : Option Nat :=
  let place := if index < 0 then index + length else index
  if 0 ≤ place ∧ place < length then some place.toNat else none

def setTupleElement (t : TypeId) (index : Int) (element : TypeId) : HeapM Bool := do
  match (← get).ty t with
  | .tuple es => match placeInRow es.length index with
    | some i =>
      setType t (.tuple (es.set i element))
      return true
    | none => return false
  | _ => return false

def Heap.distinct (h : Heap) (ts : List TypeId) : List TypeId :=
  ts.foldl (fun kept t => if kept.any fun k => h.equal k t then kept else kept ++ [t]) []

/-- The tuple of `n` values out of a list or, for a dictionary, of `n` of its values. -/
def tupleOf (t : TypeId) (n : Nat) : HeapM TypeId := do
  match (← get).ty t with
  | .list e _ => newTuple (List.replicate n e)
  | .dict _ v => newTuple (List.replicate n v)
  | _ => return .unknown

def listOf (t : TypeId) : HeapM TypeId := do
  match (← get).ty t with
  | .tuple es => newList (← unionAll es)
  | .dict _ v => newList v
  | _ => return t

def Heap.shape? (h : Heap) (t : TypeId) : Option (List TypeId) :=
  match h.ty t with
  | .list _ shape => shape
  | _ => none

def numericNames : List String := ["bool", "int", "float", "complex"]

def Heap.isNumeric (h : Heap) (t : TypeId) : Bool :=
  match h.ty t with
  | .scalar name => name ∈ numericNames
  | _ => false

def Heap.isText (h : Heap) (t : TypeId) : Bool :=
  match h.ty t with
  | .scalar name => name = "str" || name = "bytes"
  | _ => false

end Concordance
