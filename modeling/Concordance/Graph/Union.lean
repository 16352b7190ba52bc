import Concordance.Graph.Equality

/-!
# Unions

Merging types. A union is flat, holds no two equal members, and holds the unknown type only when it has
nothing else. Merging with the unknown type changes nothing.
-/

namespace Concordance

def newType (ty : Ty) : HeapM TypeId :=
  modifyGet fun h => (⟨h.types.size⟩, { h with types := h.types.push ty })

def setType (t : TypeId) (ty : Ty) : HeapM Unit :=
  modify fun h => { h with types := h.types.setIfInBounds t.index ty }

namespace Heap

def addAlternative (h : Heap) (ms : List TypeId) (t : TypeId) : List TypeId :=
  if h.isUnknown t then if ms.isEmpty then [t] else ms
  else
    match ms with
    | [m] => if h.isUnknown m then [t] else if h.equal m t then ms else [m, t]
    | _ => if ms.any fun m => h.equal m t then ms else ms ++ [t]

def addMember (h : Heap) (ms : List TypeId) (t : TypeId) : List TypeId :=
  (h.members t).foldl h.addAlternative ms

def unionMembers (h : Heap) (ts : List TypeId) : List TypeId := ts.foldl h.addMember []

/-- The first alternative that says something: neither unknown nor the type of nothing. -/
def firstUseful? (h : Heap) (t : TypeId) : Option TypeId :=
  match h.ty t with
  | .unknown => none
  | .union ms => ms.find? fun m => match h.ty m with
    | .unknown | .union _ => false
    | _ => !h.equal m .none
  | _ => some t

def hasMember (h : Heap) (ms : List TypeId) (t : TypeId) : Bool := ms.any fun m => h.equal m t

def mayContinue (h : Heap) (t : TypeId) : Bool :=
  h.equal t .continues || match h.ty t with
    | .union ms => h.hasMember ms .continues
    | _ => false

end Heap

/-- The union of some types, as a new union even if it has fewer than two members. -/
def rawUnion (ts : List TypeId) : HeapM TypeId := do
  newType (.union ((← get).unionMembers ts))

/-- The union of some types: unknown without members, and a single member instead of a union of one. -/
def unionOf (ts : List TypeId) : HeapM TypeId := do
  match (← get).unionMembers ts with
  | [] => return .unknown
  | [t] => return t
  | ms => newType (.union ms)

/-- Merges two types: the first if they are equal, the other if one is unknown, their union otherwise. -/
def union (u v : TypeId) : HeapM TypeId := do
  let h ← get
  if h.equal u v then return u
  if h.isUnknown u then return v
  if h.isUnknown v then return u
  unionOf [u, v]

def unionAll (ts : List TypeId) : HeapM TypeId := ts.foldlM union .unknown

def stripContinues (t : TypeId) (replacement : TypeId := .none) : HeapM TypeId := do
  let h ← get
  if h.equal t .continues then return replacement
  match h.ty t with
  | .union ms =>
    if h.hasMember ms .continues then
      ms.foldlM
        (fun acc m => do union acc (if (← get).equal m .continues then replacement else m)) .unknown
    else return t
  | _ => return t

mutual

def build : Recipe → HeapM TypeId
  | .existing t => return t
  | .list e => do newType (.list (← build e) none)
  | .tuple es => do newType (.tuple (← buildAll es))
  | .dict k v => do newType (.dict (← build k) (← build v))
  | .union ms => do unionOf (← buildAll ms)
  | .rawUnion ms => do rawUnion (← buildAll ms)
termination_by structural r => r

def buildAll : List Recipe → HeapM (List TypeId)
  | [] => return []
  | r :: rs => do return (← build r) :: (← buildAll rs)
termination_by structural rs => rs

end

end Concordance
