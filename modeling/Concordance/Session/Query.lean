import Concordance.Session.Finish
import Concordance.Text.Identifier

/-!
# Queries

What a session can be asked: counts, bindings by qualified name, diagnostics, modules and what they hold.
-/

namespace Concordance

structure Summary where
  modules : Nat
  semanticProblems : Nat
  parseFailures : Nat
  definitions : Nat
  crossReferences : Nat
  /-- Pairs of a place and a binding that it refers to. -/
  references : Nat
  resolved : Nat
  unresolved : Nat
  functionsCalled : Nat
deriving DecidableEq, Repr, Inhabited

namespace Summary

/-- The share of look-ups that found a binding, in hundredths of a percent. -/
def rateUnits (s : Summary) : Nat :=
  let total := s.resolved + s.unresolved
  if total = 0 then 10000 else ((Number.Ratio.mk (100 * s.resolved) total).nearestBinary).units 2

/-- The share of look-ups that found a binding, in percent with two decimal places. -/
def rateText (s : Summary) : String := Number.fixedText s.rateUnits 2

/-- The share of look-ups that found a binding, in percent with one decimal place. -/
def shortRateText (s : Summary) : String :=
  Number.fixedText (((Number.Ratio.mk s.rateUnits 100).nearestBinary).units 1) 1

end Summary

namespace Session

def sourceBindings (s : Session) : List BindingId :=
  ((List.range s.heap.bindings.size).map BindingId.mk).filter fun b => !(s.heap.binding b).isBuiltin

def libraryBindings (s : Session) : List BindingId :=
  ((List.range s.heap.bindings.size).map BindingId.mk).filter fun b => (s.heap.binding b).isBuiltin

def functions (s : Session) : List FunctionId := s.definitions.functions.values

/-- The references with the bindings that they are linked to, in the order of their recording. -/
def linkedReferences (s : Session) : List (Reference × List BindingId) :=
  s.heap.references.toList.zip s.links.toList

def summary (s : Session) : Summary where
  modules := s.loading.loaded.length
  semanticProblems := s.problems.count
  parseFailures := s.loading.failed.length
  definitions := s.sourceBindings.length
  crossReferences := s.heap.references.size
  references := s.links.foldl (fun n bs => n + bs.length) 0
  resolved := s.statistics.resolved
  unresolved := s.statistics.unresolved
  functionsCalled := (s.functions.filter fun f => (s.heap.function f).called).length

/-- Whether a qualified name is the wanted one or ends with it, segment by segment. -/
def nameMatches (wanted qname : String) : Bool := qname == wanted || qname.endsWith ("." ++ wanted)

def bindingsNamed (s : Session) (qname : String) : List BindingId :=
  s.sourceBindings.filter fun b => nameMatches qname (s.heap.binding b).qname

def diagnosticsFor (s : Session) (path : String) : List Diagnostic :=
  s.parseProblems.forFile path ++ s.problems.forFile path

def diagnostics (s : Session) : List Diagnostic := s.parseProblems.all ++ s.problems.all

end Session

def moduleAt? (path : String) : Analysis (Option ModuleId) := do cachedModule? (← canonicalPath path)

/-- The type that a row of attribute names leads to from a type, each step by the first binding found. -/
def Heap.follow? (h : Heap) : TypeId → List String → Option TypeId
  | t, [] => some t
  | t, name :: rest =>
    match h.attrOf t name with
    | some (b :: _) => h.follow? (h.binding b).type rest
    | _ => none

def valueOf? : Syntax.Stmt → Option Syntax.Expr
  | .expr e | .assign _ e | .declare _ _ (some e) | .augment _ _ e | .typeAlias _ e | .giveBack (some e) => some e
  | _ => none

/-- The value of the first statement on the line of a unit with the given number. -/
def valueAt (unit : SourceUnit) (index : Int) : Except Fault Syntax.Expr :=
  match (placeInRow unit.tree.body.length index).bind fun i => unit.tree.body[i]? with
  | none => .error .badIndex
  | some (.line (s :: _)) => match valueOf? s with
    | some e => .ok e
    | none => .error .noValue
  | some _ => .error .notOnLine

def unitAt (path : String) : Analysis SourceUnit := do
  let w := (← read).workspace
  match ← parsing fun shortage => UnitCache.read shortage w path with
  | .ok unit => return unit
  | .error _ => throw .noValue

/-- The place of the top level of a module in a unit. Only what a module was resolved from has locations. -/
def Session.placeOf (s : Session) (m : ModuleId) (unit : SourceUnit) : Place :=
  let isResolved := s.loading.units.values.any fun u => u.number == unit.number
  ⟨⟨unit.number, if isResolved then some unit.path else none⟩, (s.heap.module m).table⟩

/-- The value of the statement of a file with the given number, and its place in the file's module. -/
def statementOf (m : ModuleId) (path : String) (index : Int) : Analysis (Place × Syntax.Expr) := do
  let unit ← unitAt (← canonicalPath path)
  match valueAt unit index with
  | .ok e => return ((← get).placeOf m unit, e)
  | .error f => throw f

def resolveAgain (place : Place) (e : Syntax.Expr) : Analysis TypeId :=
  evaluating 0 fun ev => ev.expr place e

def bindAgain (place : Place) (e : Syntax.Expr) (type : TypeId) (kind : BindingKind) : Analysis Unit :=
  evaluating 0 fun ev => ev.bind place e type kind

/-- Evaluates an expression that comes from no file in the scope of a module. -/
def evaluateIn (m : ModuleId) (e : Syntax.Expr) : Analysis TypeId := do
  let number := (← get).loading.cache.parses
  let size := e.size
  modify fun s =>
    { s with loading.cache.parses := number + 1, loading.cache.weight := s.loading.cache.weight + size }
  let table := ((← theHeap).module m).table
  evaluating 0 fun ev => ev.expr ⟨⟨number, none⟩, table⟩ e

/-- Imports a dotted name as if from a file in the given directory; the first segment is bound in the scope, if one is
given. -/
def importFrom (names : List String) (level : Nat) (directory : Option String) (scope : Option ScopeId) :
    Analysis (Option ModuleId) := do
  if !names.all Text.isIdentifier then throw .invalidTree
  let s ← get
  let number := s.loading.cache.parses
  let before := s.loading.directory
  let site (name : String) (node : Nat) : Site := { node := ⟨number, node⟩, name, location := none }
  modify fun s => { s with loading.cache.parses := number + 1, loading.directory := directory }
  finallyDo (fun s => { s with loading.directory := before }) do
    evaluating 0 fun ev => loadModule ev (names.zipIdx.map fun n => site n.1 n.2) scope level

/-- Makes a module without a file, with attributes of the given types, and registers it. -/
def registerStub (name qname : String) (attributes : List (String × Recipe)) : Analysis ModuleId := do
  let m ← newModule name none (some Session.globals) qname
  let type := ((← theHeap).module m).type
  for (attr, recipe) in attributes do
    discard <| setAttr type attr none (← build recipe)
  registerModule m
  return m

end Concordance
