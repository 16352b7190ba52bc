import Concordance.Diagnostic
import Concordance.Graph.Objects
import Concordance.Graph.Reference
import Concordance.Settings
import Concordance.Source

/-!
# Sessions

The state of one analysis, and the work that changes it. Work can end in a fault; the state at that moment is
kept.
-/

namespace Concordance

open Syntax (Span Ident)

/-- What stays the same during a step. -/
structure Environment where
  workspace : Workspace
  settings : Settings
  /-- The least important level of log entries that are shown. -/
  shownLevel : Level := .info
  injection : Option Injection := none
deriving Inhabited

structure Statistics where
  calls : Nat := 0
  resolved : Nat := 0
  unresolved : Nat := 0
deriving DecidableEq, Repr, Inhabited

/-- What has been defined, by the node of the definition: a node is defined once, however often it is met. -/
structure Definitions where
  functions : Table NodeRef FunctionId := {}
  classes : Table NodeRef ClassId := {}
  comprehensions : Table NodeRef ScopeId := {}
deriving Inhabited

/-- What is known without source. -/
structure KnownLibrary where
  classes : Table String ClassId := {}
  /-- Modules by qualified name, registered ones and those made up on request. -/
  modules : Table String ModuleId := {}
  registered : Table String ModuleId := {}
deriving Inhabited

structure Loading where
  stack : List String := []
  /-- The directory of the innermost file being resolved. -/
  directory : Option String := none
  cache : UnitCache := {}
  units : Table ModuleId SourceUnit := {}
  loaded : List String := []
  failed : List String := []
  searchPath : List String := []
deriving Inhabited

structure Session where
  heap : Heap := Heap.initial
  /-- For every reference of the heap, the bindings that it is linked to. -/
  links : Array (List BindingId) := #[]
  problems : Diagnostics := {}
  parseProblems : Diagnostics := {}
  definitions : Definitions := {}
  library : KnownLibrary := {}
  loading : Loading := {}
  callStack : List FunctionId := []
  /-- Functions never applied, in the order of their definition. -/
  uncalled : List FunctionId := []
  statistics : Statistics := {}
  finished : Bool := false
  log : List String := []
deriving Inhabited

namespace Session

def globals : ScopeId := ⟨0⟩

def moduleTable : ScopeId := ⟨1⟩

end Session

/-- Work on a session. -/
abbrev Analysis := ReaderT Environment (ExceptT Fault (StateM Session))

/-- Does work on a session. The session after it is there even if a fault ends the work. -/
def Analysis.runOn {α : Type} (work : Analysis α) (env : Environment) (s : Session) : Except Fault α × Session :=
  ((work env).run).run s

def onHeap {α : Type} (work : HeapM α) : Analysis α :=
  modifyGet fun s =>
    let heap := s.heap
    let s := { s with heap := Heap.initial }
    let (a, heap) := work.run heap
    (a, { s with heap })

instance : MonadLiftT HeapM Analysis := ⟨onHeap⟩

def theHeap : Analysis Heap := return (← get).heap

def finallyDo {α : Type} (cleanUp : Session → Session) (work : Analysis α) : Analysis α :=
  fun env => ExceptT.mk do
    let result ← (work env).run
    modify cleanUp
    return result

/-- Writes an entry to the log, if entries of its level are shown. Wrong markup is a fault. -/
def log (level : Level) (text : String) : Analysis Unit := do
  if (← read).shownLevel.isShown level then
    match (LogEntry.signed level text).lines? with
    | some lines => modify fun s => { s with log := s.log ++ lines }
    | none => throw .badMarkup

def trace (text : String) : Analysis Unit := log .debug text

structure Location where
  file : String
  start : Nat
  stop : Nat
deriving DecidableEq, Repr, Inhabited

def UnitRef.locate (u : UnitRef) (span : Option Span) : Option Location :=
  match u.file, span with
  | some file, some s => some ⟨file, s.start, s.stop⟩
  | _, _ => none

/-- A node at which a name is introduced or used. -/
structure Site where
  node : NodeRef
  /-- The name as it stands there; a whole module has none. -/
  name : String
  location : Option Location
  /-- The extent of the definition that the name belongs to. -/
  extent : Option Location := none
  isModule : Bool := false
deriving Inhabited

def UnitRef.site (u : UnitRef) (i : Ident) (extent : Option Span := none) : Site :=
  { node := ⟨u.number, i.node⟩, name := i.text, location := u.locate i.span, extent := u.locate extent }

def Site.introduce (site : Site) (b : Binding) : Binding :=
  let b := { b with origin := some site.node }
  match site.location with
  | none => b
  | some l =>
    if site.isModule then b.place (some l.file) 0 0 l.start l.stop
    else match site.extent with
      | some e => b.place (some l.file) l.start l.stop e.start e.stop
      | none => b.place (some l.file) l.start l.stop

def referenceAt (r : Reference) : Analysis ReferenceId := do
  match (← theHeap).references.findIdx? r.samePlace with
  | some i => return ⟨i⟩
  | none =>
    modify fun s => { s with links := s.links.push [] }
    newReference r

/-- Records that a site refers to bindings. A site without a location is not recorded. -/
def recordUse (site : Site) (bindings : List BindingId) (kind : RefKind) : Analysis Unit := do
  match site.location with
  | none => return
  | some l =>
    let r ← referenceAt { file := some l.file, start := l.start, stop := l.stop, name := site.name, kind }
    bindings.forM fun b => do
      modify fun s =>
        { s with links := s.links.modify r.index fun bs => if b ∈ bs then bs else bs ++ [b] }
      addReference b r

/-- Binds a name in a scope. A later occurrence of the name counts as a use of the binding. -/
def bindIn (scope : ScopeId) (name : String) (site : Option Site) (type : TypeId) (kind : BindingKind) :
    Analysis BindingId := do
  let describe : Binding → Binding := match site with
    | some site => site.introduce
    | none => id
  let (b, existed) ← insertName scope name type kind describe
  if existed then
    if let some site := site then
      if ((← theHeap).binding b).origin ≠ some site.node then recordUse site [b] .ref
  return b

def setAttr (t : TypeId) (name : String) (site : Option Site) (value : TypeId) : Analysis Bool := do
  match (← theHeap).attrTable? t with
  | none => return false
  | some s =>
    discard <| bindIn s name site value .attrName
    return true

def reportAt (file : String) (start stop : Int) (kind : ProblemKind) (message : String)
    (severity : Severity := .warning) : Analysis Unit :=
  modify fun s =>
    let d : Diagnostic := ⟨file, start, stop, kind, message, severity⟩
    if s.problems.reported.any d.sameProblem then s else { s with problems := s.problems.add d }

def report (location : Option Location) (kind : ProblemKind) (message : String) : Analysis Unit := do
  match location with
  | none => trace ("dropping unlocated problem: " ++ message)
  | some l => reportAt l.file l.start l.stop kind message

def countLookup (found : Bool) : Analysis Unit :=
  modify fun s =>
    let n := s.statistics
    { s with statistics :=
      if found then { n with resolved := n.resolved + 1 } else { n with unresolved := n.unresolved + 1 } }

end Concordance
