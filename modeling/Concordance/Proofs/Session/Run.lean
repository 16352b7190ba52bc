import Concordance.Inference.Evaluate
import Concordance.Proofs.Heap.Operations
import Concordance.Proofs.Syntax.Item

/-!
# Runs

What an evaluation does to a session. Most of it is single changes that concern one part of the session each.
Definitions, class bodies, applications of functions and loadings of files enclose the evaluation of other code: they
are put down as a whole, with what is known of them when they are complete. A run that a fault ends has done the
beginning of such an evaluation. A run is told what it may define: a definition that it comes upon in its own code. What
the functions that it applies and the files that it loads define is theirs.
-/

namespace Concordance

open Syntax (Ident Item Stmt ownItems frameItems)

namespace Session

/-- There is a reference at a place, and it is linked to some binding. -/
def Recorded (s : Session) (l : Location) : Prop :=
  ∃ (i : Nat) (r : Reference) (bs : List BindingId), s.heap.references[i]? = some r ∧ s.links[i]? = some bs ∧
    r.file = some l.file ∧ r.start = l.start ∧ bs ≠ []

def ReportedUnbound (s : Session) (l : Location) : Prop :=
  ∃ d ∈ s.problems.reported, d.file = l.file ∧ d.start = l.start ∧ d.stop = l.stop ∧ d.kind = .unboundVariable

/-- What an evaluation comes upon in a unit has been dealt with: a name that is no constant is recorded or
reported where it has a place, a function or class has been made. -/
def Happened (s : Session) (u : UnitRef) : Item → Prop
  | .use i => constantType? i.text ≠ none ∨ ∀ l, u.locate i.span = some l → s.Recorded l ∨ s.ReportedUnbound l
  | .function node _ _ => ∃ f c, (s.heap.function f).code = some c ∧ c.ref = ⟨u.number, node⟩
  | .cls node _ => s.definitions.classes.get? ⟨u.number, node⟩ ≠ none

def withHeap (s : Session) (heap : Heap) : Session := { s with heap }

/-- A reference and a binding are linked: each of them knows of the other. -/
def link (s : Session) (r : ReferenceId) (b : BindingId) : Session :=
  { s with
    links := s.links.modify r.index fun bs => if b ∈ bs then bs else bs ++ [b]
    heap.bindings := s.heap.bindings.modify b.index fun x =>
      { x with refs := if r ∈ x.refs then x.refs else x.refs ++ [r] } }

def setYields (s : Session) (f : FunctionId) (t : TypeId) : Session :=
  { s with heap.functions := s.heap.functions.modify f.index fun g => { g with yields := some t } }

def markCalled (s : Session) (f : FunctionId) : Session :=
  { s with
    uncalled := s.uncalled.filter (· ≠ f)
    heap.functions := s.heap.functions.modify f.index fun g => { g with called := true } }

/-- There is no need to evaluate the body of a function: it has none, it is being evaluated or it has been. -/
def Settled (s : Session) (f : FunctionId) : Prop :=
  (s.heap.function f).native ≠ none ∨ (s.heap.function f).code = none ∨ f ∈ s.callStack ∨
    (s.heap.function f).arrows ≠ []

def enterCall (s : Session) (f : FunctionId) : Session :=
  { s with
    callStack := f :: s.callStack
    heap.functions := s.heap.functions.modify f.index fun g => { g with yields := none } }

/-- The application of a function ends; the stack and what the function had yielded before are put back. -/
def leaveCall (s : Session) (f : FunctionId) (stack : List FunctionId) (yields : Option TypeId) : Session :=
  { s with
    callStack := stack
    heap.functions := s.heap.functions.modify f.index fun g => { g with yields } }

/-- The application of a function to parameter types has given a result. -/
def recordCall (s : Session) (f : FunctionId) (key result : TypeId) : Session :=
  { s with
    statistics.calls := s.statistics.calls + 1
    heap.functions :=
      s.heap.functions.modify f.index fun g => { g with arrows := s.heap.withArrow key result g.arrows } }

def enterFile (s : Session) (path : String) : Session :=
  { s with
    loading.stack := path :: s.loading.stack
    loading.directory := some (directoryOf path) }

def addUnit (s : Session) (m : ModuleId) (unit : SourceUnit) : Session :=
  { s with loading.units := s.loading.units.insert m unit }

def addLoaded (s : Session) (path : String) : Session :=
  { s with loading.loaded := s.loading.loaded ++ [path] }

/-- The loading of a file ends; the stack and the directory are put back. -/
def leaveFile (s : Session) (before : Loading) : Session :=
  { s with loading.stack := before.stack, loading.directory := before.directory }

/-- A function is known as that of a definition, and waits to be applied. -/
def define (s : Session) (code : Code) (function : Function) : Session :=
  let f : FunctionId := ⟨s.heap.functions.size⟩
  { s with
    heap.functions := s.heap.functions.push function
    definitions.functions := s.definitions.functions.insert code.ref f
    uncalled := if f ∈ s.uncalled then s.uncalled else s.uncalled ++ [f] }

def addClass (s : Session) (r : NodeRef) (c : ClassId) : Session :=
  { s with definitions.classes := s.definitions.classes.insert r c }

end Session

def UnitCache.keep (c : UnitCache) (unit : SourceUnit) : UnitCache :=
  ⟨c.units.insert unit.path unit, c.parses + 1, c.weight + unit.tree.size⟩

def SourceUnit.ref (unit : SourceUnit) : UnitRef := ⟨unit.number, some unit.path⟩

/-- The definitions in the tree of a unit, outside the bodies of functions. -/
def SourceUnit.Owns (unit : SourceUnit) (u : UnitRef) (x : Item) : Prop :=
  u = unit.ref ∧ x ∈ frameItems.block unit.tree.body

/-- The definitions in the body of a function, outside the bodies of functions in it. -/
def Code.Owns (code : Code) (u : UnitRef) (x : Item) : Prop := u = code.unit ∧ x ∈ frameItems.body code.body

def Code.OwnsInParams (code : Code) (u : UnitRef) (x : Item) : Prop :=
  u = code.unit ∧ x ∈ frameItems.params code.params

def Code.item (code : Code) : Item := .function code.node code.params code.body

namespace Environment

def Names (env : Environment) (p path : String) : Prop :=
  ∃ q, env.workspace.canonical p = .ok q ∧ path = q.toString

def IsCanonical (env : Environment) (path : String) : Prop := ∃ p, env.Names p path

/-- What the parser makes of a file of the workspace that has not been read before. -/
def reading (env : Environment) (path : String) : Except Fault (Except ParseFailure SourceUnit) :=
  ((UnitCache.read env.shortage env.workspace path).run.run {}).1

def Accepts (env : Environment) (path : String) : Prop := ∃ unit, env.reading path = .ok (.ok unit)

def Rejects (env : Environment) (path : String) (f : ParseFailure) : Prop := env.reading path = .ok (.error f)

/-- A file of the workspace that is parsed for the first time gives a new unit. -/
structure Parses (env : Environment) (c : UnitCache) (unit : SourceUnit) : Prop where
  canonical : env.IsCanonical unit.path
  absent : c.units.get? unit.path = none
  file : ∃ file, env.workspace.read (Path.ofString unit.path) = .ok file ∧ file.outcome = .tree unit.tree
  number : unit.number = c.parses
  unharmed : env.shortage = none
  accepted : env.Accepts unit.path

/-- Statements cannot be evaluated, because a resource is made to run out. -/
def IsStarved (env : Environment) : Prop := ∃ r, env.injection = some ⟨.resolving, r⟩

end Environment

/-- One change of a session. -/
inductive Session.Change (env : Environment) (s : Session) : Session → Prop
  | heap (h : Heap) (hc : Heap.Change s.heap h) : Change env s (s.withHeap h)
  | newSite (r : Reference) (fresh : ∀ q ∈ s.heap.references, r.samePlace q = false) : Change env s
      { s with heap.references := s.heap.references.push r, links := s.links.push [] }
  | link (r : ReferenceId) (b : BindingId) (recorded : r.index < s.heap.references.size)
      (bound : s.heap.HasBinding b) : Change env s (s.link r b)
  | yields (f : FunctionId) (t : TypeId) (value : s.heap.IsValue t) (applied : f ∈ s.callStack) :
      Change env s (s.setYields f t)
  | problem (d : Diagnostic) : Change env s { s with problems := s.problems.add d }
  | parseFailure (f : ParseFailure) : Change env s
      { s with
        loading.failed := if f.path ∈ s.loading.failed then s.loading.failed else s.loading.failed ++ [f.path]
        parseProblems := s.parseProblems.add ⟨f.path, 0, 0, .parseError, f.describe, .error⟩ }
  | log (lines : List String) : Change env s { s with log := s.log ++ lines }
  | statistics (n : Statistics) : Change env s { s with statistics := n }
  | comprehension (ref : NodeRef) (scope : ScopeId) : Change env s
      { s with definitions.comprehensions := s.definitions.comprehensions.insert ref scope }
  | library (qname : String) (m : ModuleId) : Change env s
      { s with library.modules := s.library.modules.insert qname m }
  | parse (unit : SourceUnit) (parses : env.Parses s.loading.cache unit) : Change env s
      { s with loading.cache := s.loading.cache.keep unit }
  | forget (short : env.shortage = some .memory) : Change env s
      { s with loading.cache := s.loading.cache.clear }

/-- A new module can be made from a unit. -/
structure Session.Opens (s : Session) (m : ModuleId) (unit : SourceUnit) : Prop where
  cached : s.loading.cache.units.get? unit.path = some unit
  made : m.index < s.heap.modules.size
  fresh : m ∉ s.loading.units.keys

/-- The parameters of a function in the order in which they are bound. -/
def Syntax.Params.idents {ε : Type} (ps : Syntax.Params ε) : List Ident :=
  (ps.positionalOnly ++ ps.ordinary ++ ps.rest.toList ++ ps.keywordOnly ++ ps.keywordRest.toList).map Syntax.Param.name

def Syntax.Params.optional {ε : Type} (ps : Syntax.Params ε) : List String :=
  ((ps.positionalOnly ++ ps.ordinary ++ ps.keywordOnly).filter fun p => p.fallback.isSome).map fun p => p.name.text

/-- What a new function is made of. -/
structure IsNew (h : Heap) (code : Code) (function : Function) : Prop where
  sound : function.IsSound h
  defaults : ∀ name, name ∈ function.defaults.keys ↔ name ∈ code.params.optional
  code : function.code = some code
  called : function.called = false
  arrows : function.arrows = []
  native : function.native = none
  yields : function.yields = none

/-- The body of a function is evaluated between two sessions, with parameters of the types in the tuple `key`, and gives
a result. -/
structure Computes (env : Environment) (f : FunctionId) (code : Code) (key result : TypeId) (s s' : Session) : Prop where
  isKey : s'.heap.IsValue key
  isResult : s'.heap.IsValue result
  ran : ∃ fuel bound, bound.map Prod.fst = code.params.idents ∧ s.heap.ty key = .tuple (bound.map Prod.snd) ∧
    (bodyType (.withFuel fuel) f code (s.heap.function f).table bound).runOn env s = (.ok result, s')

/-- A run of an evaluation that may make the definitions in `D`; whether it is complete is said by the flag. -/
inductive Run (env : Environment) : (UnitRef → Item → Prop) → Bool → Session → Session → Prop
  | refl {D s} : Run env D true s s
  | change {D s s'} (hc : Session.Change env s s') : Run env D true s s'
  | trans {D b s s' s''} (hr : Run env D true s s') (hr' : Run env D b s' s'') : Run env D b s s''
  | stop {D s s'} (hr : Run env D true s s') : Run env D false s s'
  /-- A function is defined: its parameters are evaluated, then it is made. -/
  | define {D s s' h} (code : Code) (function : Function) (owned : D code.unit code.item)
      (unknown : s.definitions.functions.get? code.ref = none)
      (params : Run env code.OwnsInParams true s s')
      (covered : ∀ x ∈ ownItems.params code.params, s'.Happened code.unit x)
      (setup : Heap.Evolves s'.heap h) (made : IsNew h code function) :
      Run env D true s ((s'.withHeap h).define code function)
  | defineBroken {D s s'} (code : Code) (owned : D code.unit code.item)
      (unknown : s.definitions.functions.get? code.ref = none) (params : Run env code.OwnsInParams false s s') :
      Run env D false s s'
  /-- A class is defined: it is known before its bases and its body are evaluated. -/
  | defineClass {D b s s' h} (u : UnitRef) (node : Nat) (c : ClassId) (body : List Stmt)
      (owned : D u (.cls node body)) (unknown : s.definitions.classes.get? ⟨u.number, node⟩ = none)
      (setup : Heap.Evolves s.heap h)
      (rest : Run env D b ((s.withHeap h).addClass ⟨u.number, node⟩ c) s')
      (covered : b = true → ∀ x ∈ ownItems.block body, s'.Happened u x) : Run env D b s s'
  | mark {D s} (f : FunctionId) (settled : s.Settled f) : Run env D true s (s.markCalled f)
  | apply {D s s' h} (f : FunctionId) (code : Code) (key result : TypeId)
      (isCode : (s.heap.function f).code = some code) (native : (s.heap.function f).native = none)
      (outside : f ∉ s.callStack) (setup : Heap.Evolves (s.markCalled f).heap h)
      (body : Run env code.Owns true (((s.markCalled f).withHeap h).enterCall f) s')
      (covered : ∀ x ∈ ownItems.body code.body, s'.Happened code.unit x)
      (computed : Computes env f code key result (((s.markCalled f).withHeap h).enterCall f) s') :
      Run env D true s ((s'.leaveCall f s.callStack (h.function f).yields).recordCall f key result)
  | applyBroken {D s s' h} (f : FunctionId) (code : Code)
      (isCode : (s.heap.function f).code = some code) (native : (s.heap.function f).native = none)
      (outside : f ∉ s.callStack) (setup : Heap.Evolves (s.markCalled f).heap h)
      (body : Run env code.Owns false (((s.markCalled f).withHeap h).enterCall f) s') :
      Run env D false s (s'.leaveCall f s.callStack (h.function f).yields)
  /-- A file is loaded: its module is known before its statements are evaluated. -/
  | load {D s s' s''} (m : ModuleId) (unit : SourceUnit) (canonical : env.IsCanonical unit.path)
      (outside : unit.path ∉ s.loading.stack)
      (parsing : Run env (fun _ _ => False) true (s.enterFile unit.path) s') (opens : s'.Opens m unit)
      (body : Run env unit.Owns true (s'.addUnit m unit) s'')
      (covered : ∀ x ∈ ownItems.block unit.tree.body, s''.Happened unit.ref x) :
      Run env D true s ((s''.addLoaded unit.path).leaveFile s.loading)
  | loadBroken {D s s' s''} (m : ModuleId) (unit : SourceUnit) (canonical : env.IsCanonical unit.path)
      (outside : unit.path ∉ s.loading.stack)
      (parsing : Run env (fun _ _ => False) true (s.enterFile unit.path) s') (opens : s'.Opens m unit)
      (body : Run env unit.Owns false (s'.addUnit m unit) s'') : Run env D false s (s''.leaveFile s.loading)
  /-- A file is not loaded, because it has no tree or a fault came before. -/
  | loadFailed {D b s s'} (path : String) (canonical : env.IsCanonical path) (outside : path ∉ s.loading.stack)
      (parsing : Run env (fun _ _ => False) b (s.enterFile path) s') :
      Run env D b s (s'.leaveFile s.loading)

end Concordance
