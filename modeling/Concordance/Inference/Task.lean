import Concordance.Session.State

/-!
# Tasks

Inference goes down syntax trees and, when a function is applied or a module loaded, enters other trees.
-/

namespace Concordance

open Syntax (Expr Stmt Pattern Span Ident)

/-- Where code is evaluated: the unit that it stands in and the scope that its names belong to. -/
structure Place where
  unit : UnitRef
  scope : ScopeId
deriving Inhabited

/-- Something to evaluate, by the kind of its result. -/
inductive Task : Type → Type
  | expr (place : Place) (e : Expr) : Task TypeId
  /-- The type of a statement: what it gives back, and whether control goes on. -/
  | stmt (place : Place) (s : Stmt) : Task TypeId
  /-- Binds a target to a value, that of the expression `source` if it is one. -/
  | bind (place : Place) (target : Expr) (value : TypeId) (kind : BindingKind) (source : Option Expr) : Task Unit
  | pattern (place : Place) (p : Pattern) (subject : TypeId) : Task Unit

/-- Does tasks. -/
structure Evaluator where
  run : {α : Type} → Task α → Analysis α

namespace Evaluator

def expr (ev : Evaluator) (place : Place) (e : Expr) : Analysis TypeId := ev.run (.expr place e)

/-- The type of an expression that may be absent; it is evaluated for its effects. -/
def exprOption (ev : Evaluator) (place : Place) : Option Expr → Analysis Unit
  | none => return
  | some e => discard (ev.expr place e)

def exprs (ev : Evaluator) (place : Place) (es : List Expr) : Analysis Unit :=
  es.forM fun e => discard (ev.expr place e)

def stmt (ev : Evaluator) (place : Place) (s : Stmt) : Analysis TypeId := ev.run (.stmt place s)

def bind (ev : Evaluator) (place : Place) (target : Expr) (value : TypeId)
    (kind : BindingKind := .variableName) (source : Option Expr := none) : Analysis Unit :=
  ev.run (.bind place target value kind source)

def pattern (ev : Evaluator) (place : Place) (p : Pattern) (subject : TypeId) : Analysis Unit :=
  ev.run (.pattern place p subject)

end Evaluator

def Place.locate (place : Place) (span : Option Span) : Option Location := place.unit.locate span

def Place.site (place : Place) (i : Ident) (extent : Option Span := none) : Site := place.unit.site i extent

def checkShortage : Analysis Unit := do
  match (← read).injection with
  | some ⟨.resolving, resource⟩ => throw (.exhausted resource)
  | _ => return

/-- One more statement of a block: the type so far, and whether control has left the block. -/
def blockStep (ev : Evaluator) (place : Place) (soFar : TypeId × Bool) (s : Stmt) :
    Analysis (TypeId × Bool) := do
  let t ← ev.stmt place s
  let (result, left) := soFar
  -- Statements that control does not reach still bind and use names.
  if left then return soFar
  if (← theHeap).isUnknown t then return (← stripContinues result .unknown, true)
  let result ← union result t
  if (← theHeap).mayContinue t then return (result, false)
  return (← stripContinues result .unknown, true)

/-- The type of a block: the union of what its statements give back, up to the first after which control does
not go on, with the marker that control goes on if it may reach the end. -/
def block (ev : Evaluator) (place : Place) (statements : List Stmt) : Analysis TypeId := do
  checkShortage
  if statements.isEmpty then return .continues
  return (← statements.foldlM (blockStep ev place) (.unknown, false)).1

end Concordance
