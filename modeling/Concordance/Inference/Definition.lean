import Concordance.Inference.Target

/-!
# Definitions

Functions, lambdas and classes. A definition is evaluated once for its node; when it is met again, for instance
because the function around it is applied a second time, the name is bound to the same function or class.
-/

namespace Concordance

open Syntax (Expr Stmt Span Ident Param Params)

def propertyDecorators : List String := ["property", "cached_property"]

def Function.decorate (function : Function) (decorator : Expr) : Function :=
  let name := decorator.lastName
  if name = "staticmethod" then { function with isStatic := true }
  else if name = "classmethod" then { function with isClassMethod := true }
  else if name ∈ propertyDecorators then { function with isProperty := true }
  else function

/-- Evaluates the declared type and then the default of a parameter, and adds the default to those before. -/
def addDefault (ev : Evaluator) (place : Place) (defaults : Table String TypeId) (p : Param Expr) :
    Analysis (Table String TypeId) := do
  ev.exprOption place p.hint
  match p.fallback with
  | none => return defaults
  | some e => return defaults.insert p.name.text (← ev.expr place e)

def defaultsOf (ev : Evaluator) (place : Place) (params : Params Expr) : Analysis (Table String TypeId) := do
  let named := params.positionalOnly ++ params.ordinary ++ params.keywordOnly
  let defaults ← named.foldlM (addDefault ev place) {}
  ev.exprOption place (params.rest.bind Param.hint)
  ev.exprOption place (params.keywordRest.bind Param.hint)
  return defaults

def Heap.classOf? (h : Heap) (s : ScopeId) : Option ClassId :=
  match (h.scope s).owner with
  | none => none
  | some t => match h.ty t with
    | .classObject c => some c
    | _ => none

def registerFunction (code : Code) (f : FunctionId) : Analysis Unit :=
  modify fun s =>
    { s with
      definitions.functions := s.definitions.functions.insert code.ref f
      uncalled := if (s.heap.function f).called || f ∈ s.uncalled then s.uncalled else s.uncalled ++ [f] }

def makeFunction (place : Place) (name : String) (code : Code) (defaults : Table String TypeId)
    (finish : Function → Function) : Analysis FunctionId := do
  let f ← newFunction name (some code) (some place.scope) (some ((← theHeap).closureScope place.scope))
  modifyFunction f fun function => finish { function with defaults }
  registerFunction code f
  return f

/-- The function of a definition, made on first sight; `finish` completes a new one. -/
def functionOf (ev : Evaluator) (place : Place) (name : String) (code : Code) (finish : Function → Function) :
    Analysis FunctionId := do
  match (← get).definitions.functions.get? code.ref with
  | some f => return f
  | none => makeFunction place name code (← defaultsOf ev place code.params) finish

def functionKind (scope : ScopeKind) (name : String) : BindingKind :=
  if scope = .classBody then (if name = "__init__" then .constructor else .method) else .function

def defineFunction (ev : Evaluator) (place : Place) (span : Option Span) (node : Nat) (name : Ident)
    (params : Params Expr) (body : List Stmt) (decorators : List Expr) : Analysis Unit := do
  ev.exprs place decorators
  let cls := (← theHeap).classOf? place.scope
  let f ← functionOf ev place name.text ⟨place.unit, node, params, .block body⟩ fun function =>
    decorators.foldl Function.decorate { function with cls }
  let h ← theHeap
  bindName place name (h.function f).type (functionKind (h.scope place.scope).kind name.text) span
  if (h.function f).isStatic then
    (((← theHeap).scope place.scope).local? name.text |>.getD []).forM fun b =>
      onHeap <| modifyBinding b fun binding => { binding with isStatic := true }

def lambdaType (ev : Evaluator) (place : Place) (node : Nat) (params : Params Expr) (body : Expr) :
    Analysis TypeId := do
  let f ← functionOf ev place "lambda" ⟨place.unit, node, params, .value body⟩ id
  return ((← theHeap).function f).type

/-- Evaluates the base of a class; a new class inherits from the classes among its alternatives. -/
def evaluateBase (ev : Evaluator) (place : Place) (c : ClassId) (isNew : Bool) (base : Expr) :
    Analysis Unit := do
  let t ← ev.expr place base
  if isNew then
    ((← theHeap).members t).forM fun m => do
      match (← theHeap).ty m with
      | .classObject _ => addBase c m
      | _ => return

/-- Evaluates the bases and keywords of a class, binds its name and, if the class is new, evaluates its body in
the scope of the class. -/
def evaluateClass (ev : Evaluator) (place : Place) (span : Option Span) (name : Ident)
    (bases keywords : List Expr) (body : List Stmt) (c : ClassId) (isNew : Bool) : Analysis Unit := do
  bases.forM (evaluateBase ev place c isNew)
  ev.exprs place keywords
  let cls := (← theHeap).cls c
  bindName place name cls.type .className span
  if isNew then discard <| block ev ⟨place.unit, cls.table⟩ body

def classOf (place : Place) (ref : NodeRef) (name : String) : Analysis (ClassId × Bool) := do
  match (← get).definitions.classes.get? ref with
  | some c => return (c, false)
  | none =>
    let c ← newClass name (some place.scope)
    modify fun s => { s with definitions.classes := s.definitions.classes.insert ref c }
    return (c, true)

def defineClass (ev : Evaluator) (place : Place) (span : Option Span) (node : Nat) (name : Ident)
    (bases keywords : List Expr) (body : List Stmt) (decorators : List Expr) : Analysis Unit := do
  ev.exprs place decorators
  let (c, isNew) ← classOf place ⟨place.unit.number, node⟩ name.text
  evaluateClass ev place span name bases keywords body c isNew

end Concordance
