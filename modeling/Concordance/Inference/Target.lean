import Concordance.Inference.Iteration

/-!
# Assignment targets

Binding a target to a value. Names go to the scope that their declaration selects; patterns of tuples and
lists take the value apart; attributes are recorded on the object; subscripts widen the container.
-/

namespace Concordance

open Syntax (Expr Element Ident Span Index)

/-- The scope in which a name declared to belong to a function around is bound: the function's, if the name is
bound in one, or else the scope itself. -/
def Heap.nonlocalScope (h : Heap) (s : ScopeId) (name : String) : ScopeId :=
  match h.skipClasses h.scopes.size (h.scope s).parent with
  | none => s
  | some outer => match h.lookupScope outer name with
    | none => s
    | some found => if (h.scope found).kind = .function then found else s

def Heap.targetScope (h : Heap) (s : ScopeId) (name : String) : ScopeId :=
  if name ∈ (h.scope s).globals then h.moduleScope s
  else if name ∈ (h.scope s).nonlocals then h.nonlocalScope s name
  else s

def bindName (place : Place) (i : Ident) (value : TypeId) (kind : BindingKind) (extent : Option Span := none) :
    Analysis Unit := do
  let scope := (← theHeap).targetScope place.scope i.text
  discard <| bindIn scope i.text (some (place.site i extent)) value kind

structure Mismatch where
  kind : ProblemKind
  message : String
deriving DecidableEq, Repr, Inhabited

/-- The slots of a pattern: how many, and which of them is starred. -/
structure Slots where
  count : Nat
  star : Option Nat
deriving DecidableEq, Repr, Inhabited

def Slots.ofElements (elements : List (Element Expr)) : Slots :=
  ⟨elements.length, elements.findIdx? fun e => e.starred⟩

/-- Fits values of a fixed shape to slots; a starred slot takes what is left as a list. -/
def Slots.fit (slots : Slots) (values : List TypeId) : HeapM (Except Mismatch (List TypeId)) := do
  let required := match slots.star with
    | none => slots.count
    | some _ => slots.count - 1
  if values.length < required then
    return .error ⟨.notEnoughValues, s!"ValueError: need more than {values.length} values to unpack"⟩
  match slots.star with
  | none =>
    if values.length > slots.count then
      return .error ⟨.tooManyValues, "ValueError: too many values to unpack"⟩
    return .ok values
  | some star =>
    let surplus := values.length - required
    let starred ← newList (← unionAll ((values.drop star).take surplus))
    return .ok (values.take star ++ [starred] ++ values.drop (star + surplus))

/-- The elements of a value of fixed shape: a tuple, or a list display assigned directly. -/
def Heap.fixedShape? (h : Heap) (value : TypeId) (display : Bool) : Option (List TypeId) :=
  match h.ty value with
  | .tuple es => some es
  | .list _ shape => if display then shape else none
  | _ => none

def destructure (ev : Evaluator) (slots : Slots) (display : Bool) (value : TypeId) :
    Analysis (Except Mismatch (List TypeId)) := do
  match (← theHeap).fixedShape? value display with
  | some values => slots.fit values
  | none =>
    match ← element? ev .unpacking value with
    | none =>
      return .error ⟨.unpackNonIterable, "unpacking non-iterable: " ++ (← theHeap).print value⟩
    | some e =>
      let repeated := List.replicate slots.count e
      match slots.star with
      | none => return .ok repeated
      | some star => return .ok (repeated.set star (← newList e))

/-- One more alternative of a value that is taken apart: the slot types so far, and the first mismatch. -/
def destructureStep (ev : Evaluator) (slots : Slots) (display : Bool)
    (soFar : Option (List TypeId) × Option Mismatch) (member : TypeId) :
    Analysis (Option (List TypeId) × Option Mismatch) := do
  match ← destructure ev slots display member with
  | .error mismatch => return (soFar.1, soFar.2.or (some mismatch))
  | .ok types =>
    match soFar.1 with
    | none => return (some types, soFar.2)
    | some before =>
      let merged ← (before.zip types).mapM fun p => (union p.1 p.2 : HeapM TypeId)
      return (some merged, soFar.2)

def isDisplay : Option Expr → Bool
  | some (.list ..) => true
  | _ => false

def reportMismatch (place : Place) (span : Option Span) (source : Option Expr) (mismatch : Option Mismatch) :
    Analysis Unit := do
  match mismatch, place.locate span with
  | some mismatch, some l =>
    let stop := match place.locate (source.bind Expr.span) with
      | some value => value.stop
      | none => l.stop
    reportAt l.file l.start stop mismatch.kind mismatch.message
  | _, _ => return

/-- Binds a pattern. A value that does not fit leaves every name of the pattern unknown. -/
def bindPattern (ev : Evaluator) (place : Place) (span : Option Span) (elements : List (Element Expr))
    (value : TypeId) (kind : BindingKind) (source : Option Expr) : Analysis Unit := do
  let slots := Slots.ofElements elements
  let (types, mismatch) ←
    ((← theHeap).members value).foldlM (destructureStep ev slots (isDisplay source)) (none, none)
  match types with
  | none =>
    reportMismatch place span source mismatch
    (Expr.leavesOf elements).forM fun leaf => ev.bind place leaf .unknown kind
  | some types => (elements.zip types).forM fun p => ev.bind place p.1.value p.2 kind

/-- The type of an index: of a single expression its type, of a slice a list, of several parts a tuple. -/
def indexPart (ev : Evaluator) (place : Place) : Index Expr → Analysis TypeId
  | .single e => ev.expr place e
  | .slice lower upper step => do
    ev.exprOption place lower
    ev.exprOption place upper
    ev.exprOption place step
    newList .unknown

def indexType (ev : Evaluator) (place : Place) (index : List (Index Expr)) : Analysis TypeId := do
  match ← index.mapM (indexPart ev place) with
  | [t] => return t
  | ts => newTuple ts

def storeAt (key value container : TypeId) : HeapM Unit := do
  match (← get).ty container with
  | .list .. => widenList container value
  | .dict .. => addEntry container key value
  | _ => return

def bindTarget (ev : Evaluator) (place : Place) (target : Expr) (value : TypeId) (kind : BindingKind)
    (source : Option Expr) : Analysis Unit := do
  match target with
  | .name i => bindName place i value kind
  | .tuple span elements | .list span elements => bindPattern ev place span elements value kind source
  | .starred _ inner => ev.bind place inner value kind source
  | .attr _ object i =>
    let owner ← ev.expr place object
    ((← theHeap).members owner).forM fun m => discard <| setAttr m i.text (some (place.site i)) value
  | .subscript _ object index =>
    let container ← ev.expr place object
    let key ← indexType ev place index
    ((← theHeap).members container).forM fun m => onHeap (storeAt key value m)
  | other => report (place.locate other.span) .invalidTarget "invalid location for assignment"

end Concordance
