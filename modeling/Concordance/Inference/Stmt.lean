import Concordance.Inference.Expr
import Concordance.Inference.Import

/-!
# Statements

The type of a statement is what it gives back: the type of a value given back to the caller, unknown where
control leaves without one, and the marker of going on where control may reach the next statement.
-/

namespace Concordance

open Syntax (Expr Stmt Pattern Ident Handler Case Context)

def optionalBlock (ev : Evaluator) (place : Place) : Option (List Stmt) → Analysis TypeId
  | none => return .continues
  | some body => block ev place body

def mergeBlock (ev : Evaluator) (place : Place) (soFar : TypeId) : Option (List Stmt) → Analysis TypeId
  | none => return soFar
  | some body => do union soFar (← block ev place body)

def loopType (ev : Evaluator) (place : Place) (body : List Stmt) (orelse : Option (List Stmt)) :
    Analysis TypeId := do
  let t ← union .continues (← block ev place body)
  mergeBlock ev place t orelse

def bindOption (place : Place) (i : Option Ident) (value : TypeId) : Analysis Unit :=
  match i with
  | none => return
  | some i => bindName place i value .variableName

def bindEntries (ev : Evaluator) (place : Place) (entries : List (Expr × Pattern)) : Analysis Unit :=
  entries.forM fun entry => do
    discard <| ev.expr place entry.1
    ev.pattern place entry.2 .unknown

def bindInner (ev : Evaluator) (place : Place) (patterns : List Pattern) : Analysis Unit :=
  patterns.forM fun p => ev.pattern place p .unknown

/-- Binds the captures of a pattern. Only a capture at the top knows its subject. -/
def bindCaptures (ev : Evaluator) (place : Place) (subject : TypeId) : Pattern → Analysis Unit
  | .value e => discard <| ev.expr place e
  | .capture inner name => do
    bindInner ev place inner.toList
    bindOption place name subject
  | .star name =>
    match name with
    | none => return
    | some i => do bindName place i (← newList .unknown) .variableName
  | .mapping entries rest => do
    bindEntries ev place entries
    match rest with
    | none => return
    | some i => bindName place i (← newDict .unknown .unknown) .variableName
  | .classOf cls positional keyword => do
    discard <| ev.expr place cls
    bindInner ev place (positional ++ keyword)
  | .sequence patterns => bindInner ev place patterns
  | .alternatives patterns => patterns.forM fun p => ev.pattern place p subject

/-- What a handler that names classes binds: the objects of the classes, also of those inside tuples. -/
def caughtObjects : Nat → TypeId → HeapM TypeId
  | 0, _ => return .unknown
  | fuel + 1, t => do
    ((← get).members t).foldlM
      (fun acc m => do
        match (← get).ty m with
        | .tuple es =>
          let inner ← es.foldlM (fun acc e => do union acc (← caughtObjects fuel e)) .unknown
          union acc inner
        | .classObject c => union acc (← canonOf c)
        | _ => return acc)
      .unknown

def caughtType (ev : Evaluator) (place : Place) : Option Expr → Analysis TypeId
  | none => return .unknown
  | some e => do
    let t ← ev.expr place e
    caughtObjects ((← theHeap).types.size + 1) t

def bindGoal (ev : Evaluator) (place : Place) (value : TypeId) : Option Expr → Analysis Unit
  | none => return
  | some target => ev.bind place target value

def handlerType (ev : Evaluator) (place : Place) (handler : Handler Stmt) : Analysis TypeId := do
  bindGoal ev place (← caughtType ev place handler.caught) handler.target
  block ev place handler.body

/-- The type of a try statement. A final block that control cannot leave by its end has the last word. -/
def tryType (ev : Evaluator) (place : Place) (body : List Stmt) (handlers : List (Handler Stmt))
    (orelse final : Option (List Stmt)) : Analysis TypeId := do
  let t ← block ev place body
  let t ← handlers.foldlM (fun acc handler => do union acc (← handlerType ev place handler)) t
  let t ← mergeBlock ev place t orelse
  match final with
  | none => return t
  | some last =>
    let f ← block ev place last
    return if (← theHeap).mayContinue f then t else f

/-- What a context gives when it is entered: the result of its own method, or else itself. -/
def enteredOne (ev : Evaluator) (context : TypeId) : Analysis TypeId := do
  match (← theHeap).ty context with
  | .object .. => return (← callMethod? ev context "__enter__").getD context
  | _ => return context

def enterContext (ev : Evaluator) (place : Place) (c : Context) : Analysis Unit := do
  let context ← ev.expr place c.value
  match c.target with
  | none => return
  | some target =>
    let entered ← ((← theHeap).members context).foldlM
      (fun acc t => do union acc (← enteredOne ev t)) .unknown
    ev.bind place target entered .variableName (some c.value)

def addCase (ev : Evaluator) (place : Place) (subject soFar : TypeId) (c : Case Stmt) : Analysis TypeId := do
  ev.pattern place c.pattern subject
  ev.exprOption place c.guard
  union soFar (← block ev place c.body)

/-- Declares a name to belong to the module; one that the module binds is used thereby. -/
def declareModuleName (place : Place) (i : Ident) : Analysis Unit := do
  declareGlobal place.scope i.text
  let h ← theHeap
  match (h.scope (h.moduleScope place.scope)).bound? i.text with
  | none => return
  | some bindings => recordUse (place.site i) bindings .ref

def declaredValue (ev : Evaluator) (place : Place) : Option Expr → Analysis TypeId
  | none => return .unknown
  | some e => ev.expr place e

def stmtType (ev : Evaluator) (place : Place) : Stmt → Analysis TypeId
  | .functionDef span node name params body decorators => do
    defineFunction ev place span node name params body decorators
    return .continues
  | .classDef span node name bases keywords body decorators => do
    defineClass ev place span node name bases keywords body decorators
    return .continues
  | .line parts => block ev place parts
  | .assign targets value => do
    let t ← ev.expr place value
    targets.forM fun target => ev.bind place target t .variableName (some value)
    return .continues
  | .declare target hint value => do
    discard <| ev.expr place hint
    ev.bind place target (← declaredValue ev place value) .variableName value
    return .continues
  | .augment target op value => do
    let before ← ev.expr place target
    let t ← ev.expr place value
    ev.bind place target (← binaryResult ev op before t)
    return .continues
  | .typeAlias name value => do
    bindName place name (← ev.expr place value) .variableName
    return .continues
  | .delete target => do
    discard <| ev.expr place target
    return .continues
  | .importModules modules => do
    modules.forM (importModule ev place)
    return .continues
  | .importNames level source names => do
    let m ← loadModule ev (source.map place.site) none level
    names.forM (importName ev place level source m)
    return .continues
  | .importAll level source => do
    match ← loadModule ev (source.map place.site) none level with
    | none => return .continues
    | some m =>
      importEverything place m
      return .continues
  | .expr value => do
    discard <| ev.expr place value
    return .continues
  | .giveBack none => return .none
  | .giveBack (some value) => ev.expr place value
  | .raise exception cause => do
    ev.exprOption place exception
    ev.exprOption place cause
    return .unknown
  | .assert test message => do
    discard <| ev.expr place test
    ev.exprOption place message
    return .continues
  | .global names => do
    names.forM (declareModuleName place)
    return .continues
  | .nonlocal names => do
    names.forM fun i => onHeap (declareNonlocal place.scope i.text)
    return .continues
  | .pass | .leaveLoop | .nextRound => return .continues
  | .branch test body orelse => do
    discard <| ev.expr place test
    let t ← block ev place body
    union t (← optionalBlock ev place orelse)
  | .whileLoop test body orelse => do
    discard <| ev.expr place test
    loopType ev place body orelse
  | .forLoop target iterable body orelse => do
    let t ← ev.expr place iterable
    ev.bind place target (← itemsOf ev place iterable t) .scope
    loopType ev place body orelse
  | .tryBlock body handlers orelse final => tryType ev place body handlers orelse final
  | .withBlock contexts body => do
    contexts.forM (enterContext ev place)
    block ev place body
  | .matchBlock subject cases => do
    let t ← ev.expr place subject
    cases.foldlM (addCase ev place t) .continues
  | .unmodelled parts => do
    ev.exprs place parts
    return .continues

end Concordance
