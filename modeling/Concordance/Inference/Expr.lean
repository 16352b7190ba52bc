import Concordance.Graph.Subscript
import Concordance.Inference.Definition
import Concordance.Inference.Operator

/-!
# Expressions

The type of an expression. Names are looked up and their use is recorded; everything else goes by its parts,
from left to right.
-/

namespace Concordance

open Syntax (Expr Ident Span Arg Element DictItem Index Clause UnaryOp)

def constantType? (name : String) : Option TypeId :=
  if name = "True" ∨ name = "False" then some .bool
  else if name = "None" then some .none
  else none

/-- The type of a name, used in the given way. A name that is not bound anywhere is a problem. -/
def nameType (place : Place) (kind : RefKind) (i : Ident) : Analysis TypeId := do
  match constantType? i.text with
  | some t => return t
  | none =>
    match (← theHeap).lookup place.scope i.text with
    | none =>
      countLookup false
      report (place.locate i.span) .unboundVariable ("unbound variable: " ++ i.text)
      return .unknown
    | some bindings =>
      countLookup true
      recordUse (place.site i) bindings kind
      typeOfBindings bindings

/-- What a class method is bound to when it is reached through an owner: the class. -/
def Heap.classReceiver (h : Heap) (owner : TypeId) : Option TypeId :=
  match h.ty owner with
  | .object c _ => some (h.cls c).type
  | .classObject _ => some owner
  | _ => none

/-- The value of a function found as an attribute of an owner: a method is bound to the object it is reached
through, a property is evaluated. -/
def methodValue (ev : Evaluator) (value owner : TypeId) (f : FunctionId) : Analysis TypeId := do
  let h ← theHeap
  let function := h.function f
  if function.cls.isNone || function.isStatic then return value
  if function.isClassMethod then
    match h.classReceiver owner with
    | some receiver => bindReceiver f receiver
    | none => return value
  else
    match h.ty owner with
    | .object .. => if function.isProperty then apply ev f (some owner) (some {}) else bindReceiver f owner
    | _ => return value

def attributeValue (ev : Evaluator) (owner value : TypeId) : Analysis TypeId := do
  match (← theHeap).ty value with
  | .function f _ => methodValue ev value owner f
  | _ => return value

def addAttribute (ev : Evaluator) (owner soFar : TypeId) (b : BindingId) : Analysis TypeId := do
  let h ← theHeap
  (h.members (h.binding b).type).foldlM (fun acc t => do union acc (← attributeValue ev owner t)) soFar

def addOwner (ev : Evaluator) (site : Site) (kind : RefKind) (soFar owner : TypeId) : Analysis TypeId := do
  match (← theHeap).attrOf owner site.name with
  | none => return soFar
  | some bindings =>
    recordUse site bindings kind
    bindings.foldlM (addAttribute ev owner) soFar

def attributeType (ev : Evaluator) (place : Place) (kind : RefKind) (value : Expr) (i : Ident) :
    Analysis TypeId := do
  let owner ← ev.expr place value
  ((← theHeap).members owner).foldlM (addOwner ev (place.site i) kind) .unknown

/-- The value of an index that is a whole-number literal, possibly with a minus. -/
def literalIndex? : List (Index Expr) → Option Int
  | [.single (.integer _ text)] => (Text.Numeral.literal? text).map fun n => (n : Int)
  | [.single (.unary _ .minus (.integer _ text))] => (Text.Numeral.literal? text).map fun n => -(n : Int)
  | _ => none

/-- The element of a row at a position, counted from the end if it is negative. -/
def elementAt? (elements : List TypeId) (position : Int) : Option TypeId :=
  if 0 ≤ position then elements[position.toNat]?
  else if (-position).toNat ≤ elements.length then elements[elements.length - (-position).toNat]?
  else none

def subscriptType (ev : Evaluator) (place : Place) (span : Option Span) (value : Expr)
    (index : List (Index Expr)) : Analysis TypeId := do
  let owner ← ev.expr place value
  let key ← indexType ev place index
  let element := match (← theHeap).ty owner, literalIndex? index with
    | .tuple es, some n => elementAt? es n
    | _, _ => none
  match element with
  | some t => return t
  | none =>
    subscript (report (place.locate span))
      (fun f receiver => apply ev f (some receiver) (some { positional := [key] })) owner key

def addArgument (ev : Evaluator) (place : Place) (args : CallArgs) (a : Arg Expr) : Analysis CallArgs := do
  let t ← ev.expr place a.value
  match a with
  | .positional _ => return { args with positional := args.positional ++ [t] }
  | .keyword name _ => return { args with keywords := args.keywords.insert name t }
  | .items _ => return { args with items := some t }
  | .entries _ => return { args with entries := some t }

def calleeType (ev : Evaluator) (place : Place) : Expr → Analysis TypeId
  | .name i => nameType place .call i
  | .attr _ value i => attributeType ev place .call value i
  | e => ev.expr place e

def callType (ev : Evaluator) (place : Place) (callee : Expr) (args : List (Arg Expr)) : Analysis TypeId := do
  let function ← calleeType ev place callee
  call ev function (← args.foldlM (addArgument ev place) {})

def itemsOf (ev : Evaluator) (place : Place) (e : Expr) (value : TypeId) : Analysis TypeId :=
  iterated ev value (place.locate e.span)

def listDisplay (ev : Evaluator) (place : Place) (elements : List (Element Expr)) : Analysis TypeId := do
  let list ← newType (.list .unknown (some []))
  elements.forM fun e => do
    let t ← ev.expr place e.value
    if e.starred then widenList list (← itemsOf ev place e.value t) else addElement list t
  return list

def setDisplay (ev : Evaluator) (place : Place) (elements : List (Element Expr)) : Analysis TypeId := do
  let list ← newList .unknown
  elements.forM fun e => do
    let t ← ev.expr place e.value
    widenList list (← if e.starred then itemsOf ev place e.value t else pure t)
  return list

/-- One more element of a tuple display: the types so far, and whether their number is known. -/
def addTupleElement (ev : Evaluator) (place : Place) (soFar : List TypeId × Bool) (e : Element Expr) :
    Analysis (List TypeId × Bool) := do
  let (types, fixed) := soFar
  let t ← ev.expr place e.value
  if !e.starred then return (types ++ [t], fixed)
  match (← theHeap).ty t with
  | .tuple es => return (types ++ es, fixed)
  | _ => return (types ++ [← itemsOf ev place e.value t], false)

def tupleDisplay (ev : Evaluator) (place : Place) (elements : List (Element Expr)) : Analysis TypeId := do
  let (types, fixed) ← elements.foldlM (addTupleElement ev place) ([], true)
  if fixed then newTuple types else newList (← unionAll types)

def addEntriesOf (dict member : TypeId) : HeapM Unit := do
  match (← get).ty member with
  | .dict k v => addEntry dict k v
  | _ => return

def addDictItem (ev : Evaluator) (place : Place) (dict : TypeId) : DictItem Expr → Analysis Unit
  | .entry key value => do
    let k ← ev.expr place key
    let v ← ev.expr place value
    addEntry dict k v
  | .spread value => do
    let t ← ev.expr place value
    ((← theHeap).members t).forM fun m => onHeap (addEntriesOf dict m)

def dictDisplay (ev : Evaluator) (place : Place) (items : List (DictItem Expr)) : Analysis TypeId := do
  let dict ← newDict .unknown .unknown
  items.forM (addDictItem ev place dict)
  return dict

def comprehensionScope (place : Place) (node : Nat) : Analysis ScopeId := do
  let ref : NodeRef := ⟨place.unit.number, node⟩
  match (← get).definitions.comprehensions.get? ref with
  | some s => return s
  | none =>
    let path := ((← theHeap).scope place.scope).path
    let s ← newScope { kind := .function, path, parent := some place.scope }
    modify fun session =>
      { session with definitions.comprehensions := session.definitions.comprehensions.insert ref s }
    return s

/-- Evaluates the clauses of a comprehension: the iterable of the first in the scope around, everything else
inside. -/
def evaluateClauses (ev : Evaluator) (outer inner : Place) : List (Clause Expr) → Analysis Unit
  | [] => return
  | c :: rest => do
    let t ← ev.expr outer c.iterable
    ev.bind inner c.target (← itemsOf ev outer c.iterable t) .scope
    ev.exprs inner c.conditions
    evaluateClauses ev inner inner rest

def enterComprehension (ev : Evaluator) (place : Place) (node : Nat) (clauses : List (Clause Expr)) :
    Analysis Place := do
  let inner : Place := ⟨place.unit, ← comprehensionScope place node⟩
  evaluateClauses ev place inner clauses
  return inner

def addYield (t : TypeId) : Analysis Unit := do
  match (← get).callStack with
  | [] => return
  | f :: _ =>
    let yields ← union (((← theHeap).function f).yields.getD .unknown) t
    modifyFunction f fun function => { function with yields := some yields }

def unaryType (h : Heap) (op : UnaryOp) (operand : TypeId) : TypeId :=
  if op = .not then .bool else if h.equal operand .bool then .int else operand

def exprType (ev : Evaluator) (place : Place) : Expr → Analysis TypeId
  | .name i => nameType place .ref i
  | .attr _ value i => attributeType ev place .ref value i
  | .subscript span value index => subscriptType ev place span value index
  | .call _ callee args => callType ev place callee args
  | .integer .. => return .int
  | .float _ => return .float
  | .imaginary _ => return .complex
  | .string _ bytes => return if bytes then .bytes else .str
  | .ellipsis _ => return .unknown
  | .concatenated _ left right => do
    discard <| ev.expr place right
    ev.expr place left
  | .formatted _ parts => do
    ev.exprs place parts
    return .str
  | .list _ elements => listDisplay ev place elements
  | .set _ elements => setDisplay ev place elements
  | .tuple _ elements => tupleDisplay ev place elements
  | .dict _ items => dictDisplay ev place items
  | .comprehension _ node element clauses => do
    let inner ← enterComprehension ev place node clauses
    newList (← ev.expr inner element)
  | .dictComprehension _ node key value clauses => do
    let inner ← enterComprehension ev place node clauses
    let k ← ev.expr inner key
    newDict k (← ev.expr inner value)
  | .lambda _ node params body => lambdaType ev place node params body
  | .binary _ op left right => do
    let l ← ev.expr place left
    binaryResult ev op l (← ev.expr place right)
  | .boolean _ left right => do
    let l ← ev.expr place left
    union l (← ev.expr place right)
  | .unary _ op operand => do
    let t ← ev.expr place operand
    return unaryType (← theHeap) op t
  | .comparison _ first others => do
    ev.exprs place (first :: others)
    return .bool
  | .conditional _ test body orelse => do
    discard <| ev.expr place test
    let t ← ev.expr place body
    union t (← ev.expr place orelse)
  | .assignment _ target value => do
    let t ← ev.expr place value
    ev.bind place target t
    return t
  | .yield _ value => do
    addYield (← match value with
      | none => pure .none
      | some e => ev.expr place e)
    return .unknown
  | .yieldFrom _ source => do
    let t ← ev.expr place source
    addYield (← itemsOf ev place source t)
    return .unknown
  | .await _ operand => ev.expr place operand
  | .starred _ value => do
    discard <| ev.expr place value
    return .unknown
  | .unmodelled _ parts => do
    ev.exprs place parts
    return .unknown

end Concordance
