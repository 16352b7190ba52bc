import Concordance.Graph.Basic

/-!
# Structural equality

Two types are equal if they are built alike: containers by their components, functions by their definition, objects by
their class, modules by their file.
-/

namespace Concordance

/-- The pairs of types met in one comparison. -/
abbrev MetPairs := List (TypeId × TypeId)

namespace Heap

/-- Whether two functions come from the same definition; library functions equal only themselves. -/
def sameFunction (h : Heap) (f g : FunctionId) : Bool :=
  match (h.function f).code, (h.function g).code with
  | none, _ => f == g
  | some c, some d => c.ref == d.ref
  | some _, none => false

def sameFile (h : Heap) (m n : ModuleId) : Bool :=
  (h.module m).file.isSome && (h.module m).file == (h.module n).file

/-- Compares two types, given the pairs met so far. -/
def compare (h : Heap) : Nat → TypeId → TypeId → StateM MetPairs Bool
  | 0, _, _ => pure false
  | fuel + 1, a, b => do
    if a = b then return true
    if (a, b) ∈ (← get) then return true
    modify ((a, b) :: ·)
    match h.ty a, h.ty b with
    | .unknown, .unknown => return true
    | .continues, .continues => return true
    | .scalar m, .scalar n => return m == n
    | .list e _, .list f _ => h.compare fuel e f
    | .tuple es, .tuple fs =>
      if es.length = fs.length then (es.zip fs).allM fun p => h.compare fuel p.1 p.2 else return false
    | .dict k v, .dict l w => if ← h.compare fuel k l then h.compare fuel v w else return false
    | .function f _, .function g _ => return h.sameFunction f g
    | .object c _, .object d _ => return c == d
    | .module m, .module n => return h.sameFile m n
    | .union es, .union fs =>
      if es.length = fs.length then es.allM fun e => fs.anyM fun f => h.compare fuel e f else return false
    | _, _ => return false

/-- Enough fuel for every comparison in a heap: one more than there are pairs of types. -/
def compareFuel (h : Heap) : Nat := h.types.size * h.types.size + 1

def equal (h : Heap) (a b : TypeId) : Bool :=
  a == b || ((h.compare h.compareFuel a b).run []).1

end Heap

end Concordance
