import Concordance.Inference.Call

/-!
# Operators

The result of a binary operator: by arithmetic on numbers, by the rules of text and containers, by the left
operand's own method, and otherwise one of the operands.
-/

namespace Concordance

open Syntax (BinaryOp)

def methodOf : BinaryOp → String
  | .add => "__add__"
  | .subtract => "__sub__"
  | .multiply => "__mul__"
  | .divide => "__truediv__"
  | .floorDivide => "__floordiv__"
  | .modulo => "__mod__"
  | .power => "__pow__"
  | .matrixMultiply => "__matmul__"
  | .leftShift => "__lshift__"
  | .rightShift => "__rshift__"
  | .bitAnd => "__and__"
  | .bitOr => "__or__"
  | .bitXor => "__xor__"

def rankOf? (name : String) : Option Nat :=
  match name with
  | "bool" => some 0
  | "int" => some 1
  | "float" => some 2
  | "complex" => some 3
  | _ => none

def ofRank (rank : Nat) : TypeId :=
  if rank ≤ 1 then .int else if rank = 2 then .float else .complex

def isBitwise : BinaryOp → Bool
  | .bitAnd | .bitOr | .bitXor => true
  | _ => false

def arithmetic (op : BinaryOp) (left right : Nat) : TypeId :=
  let rank := max left right
  let rank := if op = .divide then max rank 2 else rank
  if isBitwise op ∧ left = 0 ∧ right = 0 then .bool else ofRank rank

def scalarResult? (op : BinaryOp) (left right : TypeId) (l r : String) : Option TypeId :=
  let isText (name : String) : Bool := name == "str" || name == "bytes"
  match rankOf? l, rankOf? r with
  | some a, some b => some (arithmetic op a b)
  | _, rank =>
    if isText l && (op = .modulo || (op = .add && l == r) || (op = .multiply && rank.isSome)) then some left
    else if isText r && op = .multiply && (rankOf? l).isSome then some right
    else none

def containerResult? (op : BinaryOp) (left right : Ty) : HeapM (Option TypeId) := do
  match left, op, right with
  | .list e _, .add, .list f _ => return some (← newList (← union e f))
  | .list e _, .multiply, _ => return some (← newList e)
  | .tuple es, .add, .tuple fs => return some (← newTuple (es ++ fs))
  | .tuple es, .multiply, _ => return some (← newList (← unionAll es))
  | .dict k v, .bitOr, .dict l w =>
    let key ← union k l
    let value ← union v w
    return some (← newDict key value)
  | _, _, _ => return none

/-- The result on two types that are no unions, by the left operand's method if it has one. -/
def byMethod (ev : Evaluator) (op : BinaryOp) (left right : TypeId) : Analysis TypeId := do
  let h ← theHeap
  match h.ty left with
  | .object .. =>
    match h.functionsOf ((h.attrOf left (methodOf op)).getD []) with
    | [] => union left right
    | fs => applyAll ev fs left { positional := [right] }
  | _ => union left right

def binaryOne (ev : Evaluator) (op : BinaryOp) (left right : TypeId) : Analysis TypeId := do
  let h ← theHeap
  if h.isUnknown left || h.isUnknown right then return .unknown
  let scalar := match h.ty left, h.ty right with
    | .scalar l, .scalar r => scalarResult? op left right l r
    | _, _ => none
  match scalar with
  | some t => return t
  | none =>
    match ← containerResult? op (h.ty left) (h.ty right) with
    | some t => return t
    | none => byMethod ev op left right

def Heap.isUnion (h : Heap) (t : TypeId) : Bool :=
  match h.ty t with
  | .union _ => true
  | _ => false

def binaryResult (ev : Evaluator) (op : BinaryOp) (left right : TypeId) : Analysis TypeId := do
  let h ← theHeap
  if h.isUnknown left || h.isUnknown right then return .unknown
  if h.isUnion left || h.isUnion right then
    let pairs := (h.members left).flatMap fun l => (h.members right).map fun r => (l, r)
    pairs.foldlM (fun acc p => do union acc (← binaryOne ev op p.1 p.2)) .unknown
  else binaryOne ev op left right

end Concordance
