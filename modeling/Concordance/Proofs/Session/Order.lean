import Concordance.Proofs.Heap.Tame
import Concordance.Proofs.Inference.Flow
import Concordance.Proofs.Session.Agree
import Concordance.Proofs.Syntax.Extent

/-!
# Sessions in order

Code is evaluated in the scope of the region that it stands in: the scope of a module for a file, and the scopes made
for functions, classes and comprehensions. In an ordered session every such scope was made where its definition stands,
a module is made from a unit only once, and a loaded file is known in the table of modules by its qualified name. What
the scopes of a module bind was introduced by its own file, unless it was set as an attribute, or came by an import
through the module or of everything into the scope. Problems are reported at text of the files that modules were made
from, and none twice. A name that the scope of a function declares to belong to the module gets no entry in that scope,
unless it is a parameter or is imported there.
-/

namespace Concordance

open Session (moduleTable)
open Syntax (ExprText Ident Pairs Region Part Piece Stmt piecesOf)

def moduleNameOf (path : String) : String := (Path.ofString path).qualifiedName

/-- A piece of code is the definition that a function comes from. -/
inductive Defines : Piece → Code → Prop
  | function {span node name params body decorators u} :
      Defines (.stmt (.functionDef span node name params body decorators)) ⟨u, node, params, .block body⟩
  | lambda {span node params body u} : Defines (.expr (.lambda span node params body)) ⟨u, node, params, .value body⟩

def Syntax.Stmt.segments : Stmt → List Ident
  | .importModules modules => modules.flatMap Syntax.Alias.path
  | .importNames _ source names => source ++ names.flatMap Syntax.Alias.path
  | .importAll _ source => source
  | _ => []

/-- The name that an import of a module, or of a name from a module, binds. -/
def Syntax.Alias.bound (a : Syntax.Alias) : Option Ident := a.rename.or a.path.head?

/-- The names that an import binds where it stands, unless it imports everything. -/
def Syntax.Stmt.imported : Stmt → List Ident
  | .importModules modules => modules.flatMap fun a => a.bound.toList
  | .importNames _ _ names => names.flatMap fun a => a.bound.toList
  | _ => []

theorem Syntax.Stmt.segments_mem_parts {stmt : Stmt} (hi : i ∈ stmt.segments) :
    (none, .expr (.name i)) ∈ stmt.parts := by
  have halias : ∀ {as : List Syntax.Alias}, i ∈ as.flatMap Syntax.Alias.path →
      (none, Piece.expr (.name i)) ∈ as.flatMap Part.ofAlias := by
    intro as hmem
    obtain ⟨a, ha, hi⟩ := List.mem_flatMap.1 hmem
    exact List.mem_flatMap.2 ⟨a, ha, List.mem_map.2 ⟨i, List.mem_append_left _ hi, rfl⟩⟩
  cases stmt with
  | importModules modules => exact halias hi
  | importNames level source names =>
    rcases List.mem_append.1 hi with hi | hi
    · exact List.mem_append_left _ (List.mem_map.2 ⟨i, hi, rfl⟩)
    · exact List.mem_append_right _ (halias hi)
  | importAll level source => exact List.mem_map.2 ⟨i, hi, rfl⟩
  | _ => cases hi

theorem Syntax.Stmt.imported_mem_parts {stmt : Stmt} (hi : i ∈ stmt.imported) :
    (none, .expr (.name i)) ∈ stmt.parts := by
  have halias : ∀ {as : List Syntax.Alias}, i ∈ as.flatMap (fun a => a.bound.toList) →
      (none, Piece.expr (.name i)) ∈ as.flatMap Part.ofAlias := by
    intro as hmem
    obtain ⟨a, ha, hi⟩ := List.mem_flatMap.1 hmem
    refine List.mem_flatMap.2 ⟨a, ha, List.mem_map.2 ⟨i, ?_, rfl⟩⟩
    rcases Option.or_eq_some_iff.1 (Option.mem_toList.1 hi) with hrename | ⟨_, hhead⟩
    · exact List.mem_append_right _ (Option.mem_toList.2 hrename)
    · exact List.mem_append_left _ (List.mem_of_mem_head? hhead)
  cases stmt with
  | importModules modules => exact halias hi
  | importNames level source names => exact List.mem_append_right _ (halias hi)
  | _ => cases hi

namespace Session

def Hosts (s : Session) (n : Nat) : Region → ScopeId → Prop
  | .file, scope => ∃ m u, s.loading.units.get? m = some u ∧ u.number = n ∧ (s.heap.module m).table = scope
  | .function node, scope => ∃ f c, (s.heap.function f).code = some c ∧ c.ref = ⟨n, node⟩ ∧
    (s.heap.function f).table = scope
  | .cls node, scope => ∃ c, s.definitions.classes.get? ⟨n, node⟩ = some c ∧ (s.heap.cls c).table = scope
  | .comprehension node, scope => s.definitions.comprehensions.get? ⟨n, node⟩ = some scope

/-- A piece of code stands at a place: in the tree of a unit that a module was made from, in the region whose scope it
is. -/
def Stands (s : Session) (place : Place) (p : Piece) : Prop :=
  ∃ m unit region, s.loading.units.get? m = some unit ∧ place.unit = unit.ref ∧
    s.Hosts unit.number region place.scope ∧ (region, p) ∈ piecesOf unit.tree.body

/-- Code is due at a place: it stands there, and it is in the body of a function or in the file whose loading began
last. -/
def Due (s : Session) (place : Place) (p : Piece) : Prop :=
  ∃ m unit region, s.loading.units.get? m = some unit ∧ place.unit = unit.ref ∧
    s.Hosts unit.number region place.scope ∧ (region, p) ∈ piecesOf unit.tree.body ∧
    (Syntax.Enclosed unit.tree.body region ∨ s.loading.stack.head? = some unit.path)

/-- A later session: modules, functions and scopes made for code stay so. -/
structure Before (s s' : Session) : Prop where
  units : ∀ m u, s.loading.units.get? m = some u → s'.loading.units.get? m = some u
  codes : ∀ f c, (s.heap.function f).code = some c → (s'.heap.function f).code = some c
  classes : ∀ r c, s.definitions.classes.get? r = some c → s'.definitions.classes.get? r = some c
  hosts : ∀ n region scope, s.Hosts n region scope → s'.Hosts n region scope
  scopes : ∀ x m, s.heap.Within x m → s'.heap.Within x m
  firm : s.heap.Firm s'.heap

/-- A later session which also has the entries for names that there were, but for the table of modules. -/
structure Precedes (s s' : Session) : Prop extends Before s s' where
  entered : ∀ x name, (s.heap.scope x).local? name ≠ none → (s'.heap.scope x).local? name ≠ none ∨ x = moduleTable

/-- A later session in which the same files are being loaded. -/
structure Leads (s s' : Session) : Prop extends Before s s' where
  stack : s'.loading.stack = s.loading.stack

def Announced (s : Session) (qname : String) (m : ModuleId) : Prop :=
  ∃ b, (s.heap.scope moduleTable).bound? qname = some [b] ∧ s.heap.ty (s.heap.binding b).type = .module m

/-- A name may come with everything that is imported into a scope. -/
def Spreads (s : Session) (x : ScopeId) (name : String) : Prop :=
  isPrivateName name = false ∧
    ∃ place level source, s.Stands place (.stmt (.importAll level source)) ∧ place.scope = x

def Spells (s : Session) (r : NodeRef) : Prop :=
  ∃ place stmt i, s.Stands place (.stmt stmt) ∧ i ∈ stmt.segments ∧ r = ⟨place.unit.number, i.node⟩

def Imports (s : Session) (x : ScopeId) (name : String) : Prop :=
  ∃ place stmt i, s.Stands place (.stmt stmt) ∧ place.scope = x ∧ i ∈ stmt.imported ∧ i.text = name

/-- The scope of a function declares a name to belong to the module. -/
def Declares (s : Session) (x : ScopeId) (name : String) : Prop :=
  (s.heap.scope x).kind = .function ∧ name ∈ (s.heap.scope x).globals

/-- Why the scope of a function may have an entry for a name that it declares to belong to the module. -/
inductive Takes (s : Session) (x : ScopeId) (name : String) : Prop
  | parameter {place : Place} {p : Piece} {c : Code} {i : Ident} (stands : s.Stands place p) (defines : Defines p c)
      (hosts : s.Hosts place.unit.number (.function c.node) x) (mem : i ∈ c.params.idents) (text : i.text = name)
  | imported (imports : s.Imports x name)
  | spread (everything : s.Spreads x name)

/-- What names are bound to lasts: bindings keep their plain alternatives, and names their bindings, except in the
table of modules and for names that come with everything that is imported into a scope. -/
structure Lasts (s s' : Session) : Prop where
  firm : s.heap.Firm s'.heap
  retains : s.heap.Retains s'.heap
  entries : ∀ x name bs, (s.heap.scope x).bound? name = some bs →
    (s'.heap.scope x).bound? name = some bs ∨ x = moduleTable ∨ s'.Spreads x name
  entered : ∀ x name, (s.heap.scope x).local? name ≠ none → (s'.heap.scope x).local? name ≠ none ∨ x = moduleTable
  declared : ∀ x name, s.Declares x name → s'.Declares x name
  spared : ∀ x name, s.Declares x name → (s.heap.scope x).local? name = none →
    (s'.heap.scope x).local? name = none ∨ s'.Takes x name

/-- The same modules are registered, and only modules of the standard library are made up. -/
structure SameStock (s s' : Session) : Prop where
  registered : s'.library.registered = s.library.registered
  modules : ∀ q, firstSegment q ∉ Library.modules → s'.library.modules.get? q = s.library.modules.get? q

/-- A later session in which no file is being loaded that was not, and no module is forgotten. -/
structure Onward (s s' : Session) : Prop where
  before : s.Before s'
  lasts : s.Lasts s'
  stack : s'.loading.stack = s.loading.stack
  directory : s'.loading.directory = s.loading.directory
  announced : ∀ q m, s.Announced q m → s'.Announced q m
  fresh : ∀ q m, s'.Announced q m → s.Announced q m ∨ s.loading.units.get? m = none
  stock : s.SameStock s'

/-- The files that have been loaded are different ones, known by name, and none of them is being loaded. -/
structure Filed (s : Session) : Prop where
  nodup : s.loading.loaded.Nodup
  known : ∀ p ∈ s.loading.loaded, ∃ m, s.Announced (moduleNameOf p) m ∧ (s.heap.module m).file = some p
  canonical : ∀ p, p ∈ s.loading.stack ∨ p ∈ s.loading.loaded → Workspace.IsCanonical p
  apart : ∀ p ∈ s.loading.stack, p ∉ s.loading.loaded
  directory : s.loading.directory = s.loading.stack.head?.map directoryOf

/-- A module is made from a unit once. -/
structure Shelved (s : Session) : Prop where
  opened : ∀ m u, s.loading.units.get? m = some u → m.index < s.heap.modules.size ∧
    u.number < s.loading.cache.parses ∧ (s.heap.module m).file = some u.path
  once : ∀ m m' u u', s.loading.units.get? m = some u → s.loading.units.get? m' = some u' → u.number = u'.number →
    m = m'
  cached : ∀ p u, s.loading.cache.units.get? p = some u → u.path = p ∧ u.number < s.loading.cache.parses
  distinct : ∀ p p' u u', s.loading.cache.units.get? p = some u → s.loading.cache.units.get? p' = some u' →
    u.number = u'.number → p = p'
  met : ∀ m p u u', s.loading.units.get? m = some u → s.loading.cache.units.get? p = some u' → u'.number = u.number →
    ∃ m', s.Announced (moduleNameOf p) m'
  named : ∀ q m, s.Announced q m → ∃ u, s.loading.units.get? m = some u ∧ moduleNameOf u.path = q

/-- A scope is within the module that was made from the unit with the given number. -/
def Belongs (s : Session) (n : Nat) (scope : ScopeId) : Prop :=
  ∃ m u, s.loading.units.get? m = some u ∧ u.number = n ∧ s.heap.Within scope m

/-- A scope was made for a numbered piece of code, where it stands. -/
def MadeFor (s : Session) (r : NodeRef) (scope : ScopeId) : Prop :=
  s.Belongs r.unit scope ∧ ∃ place p, s.Stands place p ∧ place.unit.number = r.unit ∧ r.node ∈ p.numbers ∧
    (s.heap.scope scope).parent = some place.scope

/-- Functions, classes and the scopes of comprehensions come from where they stand. -/
structure Rooted (s : Session) : Prop where
  codes : ∀ f c, (s.heap.function f).code = some c → s.Belongs c.unit.number (s.heap.function f).table ∧
    ∃ scope p, s.Stands ⟨c.unit, scope⟩ p ∧ Defines p c ∧ (s.heap.scope (s.heap.function f).table).parent = some scope
  functions : ∀ r f, s.definitions.functions.get? r = some f → ∃ c, (s.heap.function f).code = some c ∧ c.ref = r
  classes : ∀ r (c : ClassId), s.definitions.classes.get? r = some c → c.index < s.heap.classes.size ∧
    s.MadeFor r (s.heap.cls c).table
  comprehensions : ∀ r scope, s.definitions.comprehensions.get? r = some scope → s.MadeFor r scope

/-- Why a name may have a binding in a scope of a module. -/
inductive Warranted (s : Session) (x : ScopeId) (m : ModuleId) (name : String) (b : Binding) : Prop
  | own (file : ∀ path, b.file = some path → (s.heap.module m).file = some path)
  | assigned (kind : b.kind = .attrName)
  | segment {r : NodeRef} (origin : b.origin = some r) (spelled : s.Spells r)
  | spread (everything : s.Spreads x name)

def Owned (s : Session) : Prop := ∀ x m, s.heap.Within x m → ∀ name bs, (s.heap.scope x).bound? name = some bs →
  ∀ b ∈ bs, s.Warranted x m name (s.heap.binding b)

/-- The statements of a file that a module was made from are such. -/
def Contains (s : Session) (path : String) (P : List Stmt → Prop) : Prop :=
  ∃ m unit, s.loading.units.get? m = some unit ∧ unit.path = path ∧ P unit.tree.body

/-- A problem is at an expression or a name of its file, or goes from the start of a pattern to the end of the value that
a statement binds it to. -/
def Sited (s : Session) (d : Diagnostic) : Prop := s.Contains d.file fun body =>
  ExprText body d.start d.stop ∨ ∃ stmt p v, Pairs body stmt p v ∧ d.start = p.start ∧ d.stop = v.stop

/-- A binding is at an expression or a name of its file, if it has one, unless it is an attribute or a module. -/
def Traced (s : Session) (b : Binding) : Prop := b.kind = .attrName ∨ b.kind = .module ∨
  ∀ path, b.file = some path → s.Contains path fun body => ExprText body b.start b.stop

/-- Problems and bindings are at text of the files that modules were made from, and no problem is reported twice. -/
structure Marked (s : Session) : Prop where
  problems : ∀ d ∈ s.problems.reported, s.Sited d
  bindings : ∀ b, s.heap.HasBinding b → s.Traced (s.heap.binding b)
  distinct : s.problems.reported.Pairwise fun d d' => d'.sameProblem d = false

/-- Of modules that are not of the standard library, the library has those that are registered. -/
def Stocked (s : Session) : Prop := ∀ q, firstSegment q ∉ Library.modules →
  (s.library.modules.get? q = none ↔ s.library.registered.get? q = none)

/-- A session in order. -/
structure Ordered (s : Session) : Prop where
  unknown : s.heap.Has .unknown ∧ s.heap.ty .unknown = .unknown
  apart : s.heap.Apart
  filed : s.Filed
  shelved : s.Shelved
  rooted : s.Rooted
  owned : s.Owned
  stocked : s.Stocked
  marked : s.Marked

variable {s s' : Session}

theorem Before.refl (s : Session) : s.Before s :=
  ⟨fun _ _ h => h, fun _ _ h => h, fun _ _ h => h, fun _ _ _ h => h, fun _ _ h => h, .refl _⟩

theorem Before.of_same (heap : s'.heap = s.heap) (units : s'.loading.units = s.loading.units)
    (definitions : s'.definitions = s.definitions) : s.Before s' := by
  have hhosts : ∀ n region scope, s.Hosts n region scope → s'.Hosts n region scope := by
    intro n region scope hh
    cases region <;> simpa only [Hosts, heap, units, definitions] using hh
  refine ⟨?_, ?_, ?_, hhosts, ?_, heap ▸ .refl _⟩ <;> simp only [heap, units, definitions, imp_self, implies_true]

theorem Before.trans (hb : s.Before s') (hb' : s'.Before s'') : s.Before s'' where
  units m u h := hb'.units m u (hb.units m u h)
  codes f c h := hb'.codes f c (hb.codes f c h)
  classes r c h := hb'.classes r c (hb.classes r c h)
  hosts n r x h := hb'.hosts n r x (hb.hosts n r x h)
  scopes x m h := hb'.scopes x m (hb.scopes x m h)
  firm := hb.firm.trans hb'.firm

theorem Precedes.refl (s : Session) : s.Precedes s := ⟨.refl s, fun _ _ h => .inl h⟩

theorem Precedes.of_same (heap : s'.heap = s.heap) (units : s'.loading.units = s.loading.units)
    (definitions : s'.definitions = s.definitions) : s.Precedes s' :=
  ⟨.of_same heap units definitions, fun _ _ he => .inl (heap ▸ he)⟩

theorem Precedes.trans (hp : s.Precedes s') (hp' : s'.Precedes s'') : s.Precedes s'' :=
  ⟨hp.toBefore.trans hp'.toBefore, fun x name he => (hp.entered x name he).elim (hp'.entered x name) .inr⟩

theorem Onward.precedes (ho : s.Onward s') : s.Precedes s' := ⟨ho.before, ho.lasts.entered⟩

theorem SameStock.of_eq (heq : s'.library = s.library) : s.SameStock s' := ⟨by rw [heq], fun _ _ => by rw [heq]⟩

theorem SameStock.trans (hs : s.SameStock s') (hs' : s'.SameStock s'') : s.SameStock s'' :=
  ⟨hs'.registered.trans hs.registered, fun q hq => (hs'.modules q hq).trans (hs.modules q hq)⟩

theorem Stocked.later (hk : s.Stocked) (hs : s.SameStock s') : s'.Stocked := fun q hq => by
  rw [hs.modules q hq, hs.registered]
  exact hk q hq

theorem Leads.refl (s : Session) : s.Leads s := ⟨.refl s, rfl⟩

theorem Leads.trans (hl : s.Leads s') (hl' : s'.Leads s'') : s.Leads s'' :=
  ⟨hl.toBefore.trans hl'.toBefore, hl'.stack.trans hl.stack⟩

theorem Onward.leads (ho : s.Onward s') : s.Leads s' := ⟨ho.before, ho.stack⟩

section Standing

theorem Stands.later (hp : s.Stands place p) (hb : s.Before s') : s'.Stands place p := by
  obtain ⟨m, unit, region, hunit, hplace, hhost, hmem⟩ := hp
  exact ⟨m, unit, region, hb.units m unit hunit, hplace, hb.hosts _ _ _ hhost, hmem⟩

theorem Due.stands (hp : s.Due place p) : s.Stands place p := by
  obtain ⟨m, unit, region, hunit, hplace, hhost, hmem, _⟩ := hp
  exact ⟨m, unit, region, hunit, hplace, hhost, hmem⟩

theorem Due.later (hp : s.Due place p) (hl : s.Leads s') : s'.Due place p := by
  obtain ⟨m, unit, region, hunit, hplace, hhost, hmem, hdue⟩ := hp
  exact ⟨m, unit, region, hl.units m unit hunit, hplace, hl.hosts _ _ _ hhost, hmem, hl.stack ▸ hdue⟩

theorem Spreads.later (hx : s.Spreads x name) (hb : s.Before s') : s'.Spreads x name := by
  obtain ⟨hpublic, place, level, source, hp, hscope⟩ := hx
  exact ⟨hpublic, place, level, source, hp.later hb, hscope⟩

theorem Spells.later (hr : s.Spells r) (hb : s.Before s') : s'.Spells r := by
  obtain ⟨place, stmt, i, hp, hi, heq⟩ := hr
  exact ⟨place, stmt, i, hp.later hb, hi, heq⟩

theorem Contains.later (hc : s.Contains path P) (hb : s.Before s') : s'.Contains path P := by
  obtain ⟨m, unit, hunit, hpath, hP⟩ := hc
  exact ⟨m, unit, hb.units m unit hunit, hpath, hP⟩

theorem Imports.later (hi : s.Imports x name) (hb : s.Before s') : s'.Imports x name := by
  obtain ⟨place, stmt, i, hp, hscope, hi, htext⟩ := hi
  exact ⟨place, stmt, i, hp.later hb, hscope, hi, htext⟩

theorem Takes.later (ht : s.Takes x name) (hb : s.Before s') : s'.Takes x name := by
  cases ht with
  | parameter stands defines hosts mem text =>
    exact .parameter (stands.later hb) defines (hb.hosts _ _ _ hosts) mem text
  | imported imports => exact .imported (imports.later hb)
  | spread everything => exact .spread (everything.later hb)

theorem Stands.part (hp : s.Stands place p) (hq : (none, q) ∈ p.parts) : s.Stands place q := by
  obtain ⟨m, unit, region, hunit, hplace, hhost, hmem⟩ := hp
  exact ⟨m, unit, region, hunit, hplace, hhost, Syntax.piecesOf_closed hmem hq⟩

theorem Due.part (hp : s.Due place p) (hq : (none, q) ∈ p.parts) : s.Due place q := by
  obtain ⟨m, unit, region, hunit, hplace, hhost, hmem, hdue⟩ := hp
  exact ⟨m, unit, region, hunit, hplace, hhost, Syntax.piecesOf_closed hmem hq, hdue⟩

theorem Stands.inside (hp : s.Stands place p) (region : Region) (hq : (some region, q) ∈ p.parts)
    (hs : s.Hosts place.unit.number region scope) : s.Stands ⟨place.unit, scope⟩ q := by
  obtain ⟨m, unit, outer, hunit, hplace, hhost, hmem⟩ := hp
  rw [hplace] at hs
  exact ⟨m, unit, region, hunit, hplace, hs, Syntax.piecesOf_closed hmem hq⟩

theorem Due.inside (hp : s.Due place p) (region : Region) (hq : (some region, q) ∈ p.parts)
    (hs : s.Hosts place.unit.number region scope) : s.Due ⟨place.unit, scope⟩ q := by
  obtain ⟨m, unit, outer, hunit, hplace, hhost, hmem, hdue⟩ := hp
  rw [hplace] at hs
  exact ⟨m, unit, region, hunit, hplace, hs, Syntax.piecesOf_closed hmem hq, hdue.imp_left (.opened hmem hq)⟩

theorem Stands.body_due (hp : s.Stands place p) (hq : (some (.function node), q) ∈ p.parts)
    (hs : s.Hosts place.unit.number (.function node) scope) : s.Due ⟨place.unit, scope⟩ q := by
  obtain ⟨m, unit, outer, hunit, hplace, hhost, hmem⟩ := hp
  rw [hplace] at hs
  exact ⟨m, unit, .function node, hunit, hplace, hs, Syntax.piecesOf_closed hmem hq, .inl (.function node)⟩

theorem Ordered.scope_ne (ho : s.Ordered) (hp : s.Stands place p) : place.scope ≠ moduleTable := by
  obtain ⟨m, unit, region, hunit, hplace, hhost, hmem⟩ := hp
  cases region with
  | file =>
    obtain ⟨m', u, _, _, htable⟩ := hhost
    exact htable ▸ ho.apart.modules m'
  | function node =>
    obtain ⟨f, c, _, _, htable⟩ := hhost
    exact htable ▸ ho.apart.functions f
  | cls node =>
    obtain ⟨c, _, htable⟩ := hhost
    exact htable ▸ ho.apart.classes c
  | comprehension node =>
    obtain ⟨_, _, _, _, _, _, hparent⟩ := ho.rooted.comprehensions _ _ hhost
    intro heq
    rw [heq, ho.apart.outermost] at hparent
    cases hparent

theorem Ordered.hosts_belongs (ho : s.Ordered) (hh : s.Hosts n region x) : s.Belongs n x := by
  cases region with
  | file =>
    obtain ⟨m, u, hu, hn, htable⟩ := hh
    exact ⟨m, u, hu, hn, htable ▸ .table (ho.shelved.opened m u hu).1⟩
  | function node =>
    obtain ⟨f, c, hc, href, htable⟩ := hh
    have hunit : c.unit.number = n := congrArg NodeRef.unit href
    exact htable ▸ hunit ▸ (ho.rooted.codes f c hc).1
  | cls node =>
    obtain ⟨c, hc, htable⟩ := hh
    exact htable ▸ (ho.rooted.classes _ c hc).2.1
  | comprehension node => exact (ho.rooted.comprehensions _ x hh).1

theorem Ordered.stands_within (ho : s.Ordered) (hp : s.Stands place p) :
    ∃ m u, s.loading.units.get? m = some u ∧ place.unit = u.ref ∧ s.heap.Within place.scope m := by
  obtain ⟨m, unit, region, hunit, hplace, hhost, hmem⟩ := hp
  obtain ⟨m', u, hu, hn, hw⟩ := ho.hosts_belongs hhost
  -- Only one module was made from the unit.
  rw [ho.shelved.once m' m u unit hu hunit hn] at hw
  exact ⟨m, unit, hunit, hplace, hw⟩

theorem Ordered.mayEnclose (ho : s.Ordered) (hp : s.Stands place p) : s.heap.MayEnclose place.scope := by
  obtain ⟨m, u, _, _, hw⟩ := ho.stands_within hp
  exact ⟨ho.scope_ne hp, hw.lt ho.apart.housed⟩

theorem Belongs.later (hx : s.Belongs n x) (hb : s.Before s') : s'.Belongs n x := by
  obtain ⟨m, u, hu, hn, hw⟩ := hx
  exact ⟨m, u, hb.units m u hu, hn, hb.scopes x m hw⟩

theorem Belongs.inner (hy : s.Belongs n y) (hp : (s.heap.scope x).parent = some y) : s.Belongs n x := by
  obtain ⟨m, u, hu, hn, hw⟩ := hy
  exact ⟨m, u, hu, hn, .inner hp hw⟩

theorem Ordered.stands_belongs (ho : s.Ordered) (hp : s.Stands place p) : s.Belongs place.unit.number place.scope := by
  obtain ⟨m, u, hu, hplace, hw⟩ := ho.stands_within hp
  exact ⟨m, u, hu, hplace ▸ rfl, hw⟩

end Standing

theorem Lasts.ofSame (firm : s.heap.Firm s'.heap) (scopes : s'.heap.scopes = s.heap.scopes)
    (bindings : s'.heap.bindings = s.heap.bindings) : s.Lasts s' := by
  have hscope : ∀ x, s'.heap.scope x = s.heap.scope x := fun x => by rw [Heap.scope, Heap.scope, scopes]
  refine ⟨firm, firm.prolongs.retains fun b hb => ?_, fun x name bs hb => .inl ?_, fun x name he => .inl ?_,
    fun x name hd => ?_, fun x name _ hnone => .inl ?_⟩
  · rw [Heap.HasBinding, Heap.binding, Heap.binding, bindings]
    exact ⟨hb, rfl⟩
  · rw [hscope]
    exact hb
  · rw [hscope]
    exact he
  · rw [Declares, hscope]
    exact hd
  · rw [hscope]
    exact hnone

theorem Lasts.of_heap_eq (heap : s'.heap = s.heap) : s.Lasts s' :=
  .ofSame (heap ▸ .refl _) (congrArg Heap.scopes heap) (congrArg Heap.bindings heap)

theorem Lasts.trans (hl : s.Lasts s') (hl' : s'.Lasts s'') (hb : s'.Before s'') : s.Lasts s'' where
  firm := hl.firm.trans hl'.firm
  retains := hl.retains.trans hl'.retains hl.firm.prolongs hl'.firm.prolongs
  entries x name bs hbound := by
    rcases hl.entries x name bs hbound with hbound' | hx | hx
    · -- The name was kept so far; the rest may still replace it.
      exact hl'.entries x name bs hbound'
    · exact .inr (.inl hx)
    · exact .inr (.inr (hx.later hb))
  entered x name he := (hl.entered x name he).elim (hl'.entered x name) .inr
  declared x name hd := hl'.declared x name (hl.declared x name hd)
  spared x name hd hnone := by
    rcases hl.spared x name hd hnone with hnone' | ht
    · exact hl'.spared x name (hl.declared x name hd) hnone'
    · exact .inr (ht.later hb)

theorem Before.units_none (hb : s.Before s') (hm : s'.loading.units.get? m = none) :
    s.loading.units.get? m = none := by
  by_contra hsome
  obtain ⟨u, hu⟩ := Option.ne_none_iff_exists'.1 hsome
  cases hm.symm.trans (hb.units m u hu)

theorem Onward.trans (ho : s.Onward s') (ho' : s'.Onward s'') : s.Onward s'' where
  before := ho.before.trans ho'.before
  lasts := ho.lasts.trans ho'.lasts ho'.before
  stack := ho'.stack.trans ho.stack
  directory := ho'.directory.trans ho.directory
  announced q m h := ho'.announced q m (ho.announced q m h)
  fresh q m h := by
    rcases ho'.fresh q m h with h | h
    · exact ho.fresh q m h
    · exact .inr (ho.before.units_none h)
  stock := ho.stock.trans ho'.stock

theorem Onward.refl (s : Session) : s.Onward s :=
  ⟨.refl s, .of_heap_eq rfl, rfl, rfl, fun _ _ h => h, fun _ _ h => .inl h, .of_eq rfl⟩

/-- What is known of code in a session is known in another one. -/
structure Grows (s s' : Session) : Prop where
  heap : s.heap.Firm s'.heap
  units : ∀ m u, s.loading.units.get? m = some u → s'.loading.units.get? m = some u
  classes : ∀ r c, s.definitions.classes.get? r = some c → s'.definitions.classes.get? r = some c
  comprehensions : ∀ r x, s.definitions.comprehensions.get? r = some x → s'.definitions.comprehensions.get? r = some x

/-- Two sessions that differ in nothing that order depends on, but perhaps in their heaps. -/
structure Alike (s s' : Session) : Prop where
  units : s'.loading.units = s.loading.units
  cache : s'.loading.cache = s.loading.cache
  loaded : s'.loading.loaded = s.loading.loaded
  stack : s'.loading.stack = s.loading.stack
  directory : s'.loading.directory = s.loading.directory
  definitions : s'.definitions = s.definitions
  problems : s'.problems = s.problems
  stock : s.SameStock s'

theorem Alike.withHeap (s : Session) (h : Heap) : s.Alike (s.withHeap h) :=
  ⟨rfl, rfl, rfl, rfl, rfl, rfl, rfl, .of_eq rfl⟩

theorem Alike.grows (alike : s.Alike s') (hf : s.heap.Firm s'.heap) : s.Grows s' where
  heap := hf
  units m u hu := by rwa [alike.units]
  classes r c hc := by rwa [alike.definitions]
  comprehensions r x hx := by rwa [alike.definitions]

theorem Ordered.unknown_later (ho : s.Ordered) (hf : s.heap.Firm s'.heap) :
    s'.heap.Has .unknown ∧ s'.heap.ty .unknown = .unknown :=
  ⟨hf.types.has ho.unknown.1, hf.types.unknown ho.unknown.1 ho.unknown.2⟩

section Keeping

variable (ho : s.Ordered) (hg : s.Grows s')
include ho hg

theorem Ordered.before : s.Before s' := by
  refine ⟨hg.units, fun f c hc => (hg.heap.codes f c hc).1, hg.classes, fun n region scope hh => ?_,
    fun x m hw => hw.later hg.heap.modules hg.heap.parents, hg.heap⟩
  cases region with
  | file =>
    obtain ⟨m, u, hu, hn, htable⟩ := hh
    refine ⟨m, u, hg.units m u hu, hn, ?_⟩
    rw [(hg.heap.modules m (ho.shelved.opened m u hu).1).2]
    exact htable
  | function node =>
    obtain ⟨f, c, hc, href, htable⟩ := hh
    obtain ⟨hcode, htable'⟩ := hg.heap.codes f c hc
    exact ⟨f, c, hcode, href, htable'.trans htable⟩
  | cls node =>
    obtain ⟨c, hc, htable⟩ := hh
    refine ⟨c, hg.classes _ c hc, ?_⟩
    rw [(hg.heap.classes c (ho.rooted.classes _ c hc).1).2]
    exact htable
  | comprehension node => exact hg.comprehensions _ _ hh

theorem MadeFor.later (hm : s.MadeFor r scope) : s'.MadeFor r scope := by
  obtain ⟨hbelongs, place, p, hp, hunit, hnode, hparent⟩ := hm
  have hb := ho.before hg
  exact ⟨hbelongs.later hb, place, p, hp.later hb, hunit, hnode, hg.heap.parents _ _ hparent⟩

theorem Rooted.codes_later (hr : s.Rooted) (hc : (s.heap.function f).code = some c) :
    s'.Belongs c.unit.number (s'.heap.function f).table ∧ ∃ scope p, s'.Stands ⟨c.unit, scope⟩ p ∧ Defines p c ∧
      (s'.heap.scope (s'.heap.function f).table).parent = some scope := by
  obtain ⟨hbelongs, scope, p, hp, hdef, hparent⟩ := hr.codes f c hc
  rw [(hg.heap.codes f c hc).2]
  have hb := ho.before hg
  exact ⟨hbelongs.later hb, scope, p, hp.later hb, hdef, hg.heap.parents _ _ hparent⟩

theorem Rooted.classes_later (hr : s.Rooted) (hc : s.definitions.classes.get? r = some c) :
    c.index < s'.heap.classes.size ∧ s'.MadeFor r (s'.heap.cls c).table := by
  obtain ⟨hlt, hmade⟩ := hr.classes r c hc
  obtain ⟨hlt', htable⟩ := hg.heap.classes c hlt
  refine ⟨hlt', ?_⟩
  rw [htable]
  exact hmade.later ho hg

theorem Ordered.rooted_later (codes : ∀ f c, (s'.heap.function f).code = some c → (s.heap.function f).code = some c)
    (definitions : s'.definitions = s.definitions) : s'.Rooted where
  codes f c hc := ho.rooted.codes_later ho hg (codes f c hc)
  functions r f hf := by
    rw [definitions] at hf
    obtain ⟨c, hc, href⟩ := ho.rooted.functions r f hf
    exact ⟨c, (hg.heap.codes f c hc).1, href⟩
  classes r c hc := by
    rw [definitions] at hc
    exact ho.rooted.classes_later ho hg hc
  comprehensions r scope hc := by
    rw [definitions] at hc
    exact (ho.rooted.comprehensions r scope hc).later ho hg

end Keeping

section Names

variable (hm : s.heap.Firm s'.heap) (announced : ∀ q m, s.Announced q m → s'.Announced q m)
include hm announced

theorem Filed.later (hf : s.Filed) (loaded : s'.loading.loaded = s.loading.loaded)
    (stack : s'.loading.stack = s.loading.stack) (directory : s'.loading.directory = s.loading.directory) :
    s'.Filed where
  nodup := by
    rw [loaded]
    exact hf.nodup
  known p hp := by
    rw [loaded] at hp
    obtain ⟨m, ha, hfile⟩ := hf.known p hp
    refine ⟨m, announced _ m ha, ?_⟩
    rw [(hm.modules m (Heap.lt_of_file hfile)).2]
    exact hfile
  canonical := by
    rw [stack, loaded]
    exact hf.canonical
  apart p hp := by
    rw [stack] at hp
    rw [loaded]
    exact hf.apart p hp
  directory := by
    rw [stack, directory]
    exact hf.directory

theorem Shelved.later (hf : s.Shelved) (units : s'.loading.units = s.loading.units)
    (cache : s'.loading.cache = s.loading.cache) (back : ∀ q m, s'.Announced q m → s.Announced q m) : s'.Shelved where
  opened m u hu := by
    rw [units] at hu
    obtain ⟨hlt, hnumber, hfile⟩ := hf.opened m u hu
    obtain ⟨hlt', heq⟩ := hm.modules m hlt
    rw [cache, heq]
    exact ⟨hlt', hnumber, hfile⟩
  once := by
    rw [units]
    exact hf.once
  cached := by
    rw [cache]
    exact hf.cached
  distinct := by
    rw [cache]
    exact hf.distinct
  met m p u u' hu hu' hn := by
    rw [units] at hu
    rw [cache] at hu'
    exact (hf.met m p u u' hu hu' hn).imp fun m' => announced _ m'
  named q m hm := by
    rw [units]
    exact hf.named q m (back q m hm)

end Names

section Ownership

theorem Warranted.later (hw : s.Warranted x m name b) (hb : s.Before s') (same : Heap.SameOrigin b b')
    (module : (s'.heap.module m).file = (s.heap.module m).file) : s'.Warranted x m name b' := by
  cases hw with
  | own file =>
    refine .own fun path hpath => ?_
    rw [same.file] at hpath
    exact module.trans (file path hpath)
  | assigned kind => exact .assigned (same.kind.trans kind)
  | segment origin spelled => exact .segment (same.origin.trans origin) (spelled.later hb)
  | spread everything => exact .spread (everything.later hb)

variable (ho : s.Ordered) (hb : s.Before s') (binds : s.heap.BindsIn W s'.heap)
include ho hb binds

theorem Ordered.warranted_later (hw : s'.heap.Within x m)
    (hbound : (s.heap.scope x).bound? name = some bs) (hmem : b ∈ bs) : s'.Warranted x m name (s'.heap.binding b) := by
  -- The scope bound a name and so is not new: it was within the module before.
  have hold := hw.back ho.apart.housed binds (Heap.lt_of_bound hbound)
  have hx : x ≠ moduleTable := fun heq => ho.apart.not_within (heq ▸ hold)
  have hhas := (ho.apart.unshared x hx bs (Scope.mem_values_of_bound hbound) b hmem).1
  refine (ho.owned x m hold name bs hbound b hmem).later hb (binds.origins b hhas).2 ?_
  rw [(binds.modules m hold.module_lt).2]

theorem Ordered.owned_later (new : ∀ x m, W x → s'.heap.Within x m → ∀ name bs, (s'.heap.scope x).bound? name = some bs →
    ∀ b ∈ bs, s'.Warranted x m name (s'.heap.binding b)) : s'.Owned := by
  intro x m hw name bs hbound b hmem
  by_cases hx : W x
  · exact new x m hx hw name bs hbound b hmem
  · rw [binds.names x hx] at hbound
    exact ho.warranted_later hb binds hw hbound hmem

omit binds in
theorem Ordered.owned_same (heap : s'.heap = s.heap) : s'.Owned := by
  have hbinds : s.heap.BindsIn Heap.Nowhere s'.heap := heap ▸ .refl _
  exact ho.owned_later hb hbinds fun _ _ hx => hx.elim

end Ownership

section Marks

theorem Traced.later (ht : s.Traced b) (hb : s.Before s') (same : Heap.SameOrigin b b') : s'.Traced b' := by
  rcases ht with hkind | hkind | htext
  · exact .inl (same.kind.trans hkind)
  · exact .inr (.inl (same.kind.trans hkind))
  · refine .inr (.inr fun path hpath => ?_)
    rw [same.file] at hpath
    rw [same.start, same.stop]
    exact (htext path hpath).later hb

variable (ho : s.Ordered) (hb : s.Before s') (problems : s'.problems = s.problems)
include ho hb problems

theorem Ordered.marked_later (binds : s.heap.BindsIn W s'.heap)
    (made : ∀ b, ¬ s.heap.HasBinding b → s'.heap.HasBinding b → s'.Traced (s'.heap.binding b)) : s'.Marked where
  problems d hd := by
    rw [problems] at hd
    exact (ho.marked.problems d hd).later hb
  bindings b hx := by
    by_cases hold : s.heap.HasBinding b
    · exact (ho.marked.bindings b hold).later hb (binds.origins b hold).2
    · exact made b hold hx
  distinct := problems ▸ ho.marked.distinct

theorem Ordered.marked_same (bindings : s'.heap.bindings = s.heap.bindings) : s'.Marked where
  problems d hd := by
    rw [problems] at hd
    exact (ho.marked.problems d hd).later hb
  bindings b hx := by
    rw [Heap.HasBinding, bindings] at hx
    rw [Heap.binding, bindings]
    exact (ho.marked.bindings b hx).later hb (.refl _)
  distinct := problems ▸ ho.marked.distinct

end Marks

section Steady

theorem Announced.steady (hs : s.heap.Steady W s'.heap) (ha : s.Announced q m) : s'.Announced q m := by
  obtain ⟨b, hbound, hty⟩ := ha
  refine ⟨b, ?_, ?_⟩
  · rw [hs.table]
    exact hbound
  · rw [hs.bound _ (Scope.mem_values_of_bound hbound) b (List.mem_singleton.2 rfl)]
    exact hs.types.module hty

theorem Announced.unique (ha : s.Announced q m) (ha' : s.Announced q m') : m = m' := by
  obtain ⟨b, hbound, hty⟩ := ha
  obtain ⟨b', hbound', hty'⟩ := ha'
  cases hbound.symm.trans hbound'
  cases hty.symm.trans hty'
  rfl

theorem Ordered.announced_of_bound (ho : s.Ordered)
    (hb : (s.heap.scope moduleTable).bound? q = some bs) : ∃ m, s.Announced q m := by
  obtain ⟨b, m, rfl, _, hm⟩ := ho.apart.entries bs (Scope.mem_values_of_bound hb)
  exact ⟨m, b, hb, hm⟩

theorem Ordered.announced_back (ho : s.Ordered) (announced : ∀ q m, s.Announced q m → s'.Announced q m)
    (bound : ∀ bs, (s'.heap.scope moduleTable).bound? q = some bs → (s.heap.scope moduleTable).bound? q = some bs) (hm : s'.Announced q m) : s.Announced q m := by
  obtain ⟨m', hm'⟩ := ho.announced_of_bound (bound _ hm.choose_spec.1)
  exact (announced q m' hm').unique hm ▸ hm'

theorem Ordered.announced_of_steady (ho : s.Ordered) (hs : s.heap.Steady W s'.heap)
    (hm : s'.Announced q m) : s.Announced q m := by
  refine ho.announced_back (fun _ _ h => h.steady hs) (fun bs hbound => ?_) hm
  rw [hs.table] at hbound
  exact hbound

variable (ho : s.Ordered) (alike : s.Alike s') (hs : s.heap.Steady W s'.heap)
include ho alike hs

theorem Ordered.before_steady : s.Before s' := ho.before (alike.grows hs.firm)

theorem Ordered.onwardIn (entries : ∀ x, W x → ∀ name bs, (s.heap.scope x).bound? name = some bs →
      (s'.heap.scope x).bound? name = some bs ∨ s'.Spreads x name)
    (entered : ∀ x, W x → ∀ name, (s.heap.scope x).local? name ≠ none → (s'.heap.scope x).local? name ≠ none)
    (spared : ∀ x, W x → ∀ name, s.Declares x name → (s.heap.scope x).local? name = none →
      (s'.heap.scope x).local? name = none ∨ s'.Takes x name) : s.Onward s' := by
  refine ⟨ho.before_steady alike hs, ⟨hs.firm, hs.retains, fun x name bs hbound => ?_, fun x name he => .inl ?_,
    fun x name hd => ?_, fun x name hd hnone => ?_⟩, alike.stack, alike.directory, fun _ _ ha => ha.steady hs,
    fun _ _ ha => .inl (ho.announced_of_steady hs ha), alike.stock⟩
  · by_cases hx : W x
    · exact (entries x hx name bs hbound).imp_right .inr
    · exact .inl ((hs.names x hx name).trans hbound)
  · by_cases hx : W x
    · exact entered x hx name he
    · rw [Scope.local?, hs.entries x hx]
      exact he
  · -- A scope that declares something exists, and stays of its kind.
    exact ⟨(hs.frames x (Heap.lt_of_declared hd.2)).2.kind.trans hd.1, hs.declared x name hd.2⟩
  · by_cases hx : W x
    · exact spared x hx name hd hnone
    · refine .inl ?_
      rw [Scope.local?, hs.entries x hx]
      exact hnone

theorem Ordered.steadyIn (ha : s'.heap.Apart) (new : ∀ x m, W x → s'.heap.Within x m → ∀ name bs,
      (s'.heap.scope x).bound? name = some bs → ∀ b ∈ bs, s'.Warranted x m name (s'.heap.binding b))
    (made : ∀ b, ¬ s.heap.HasBinding b → s'.heap.HasBinding b → s'.Traced (s'.heap.binding b)) : s'.Ordered := by
  have hg := alike.grows hs.firm
  refine ⟨ho.unknown_later hs.firm, ha,
    ho.filed.later hs.firm (fun _ _ h => h.steady hs) alike.loaded alike.stack alike.directory,
    ho.shelved.later hs.firm (fun _ _ h => h.steady hs) alike.units alike.cache fun _ _ => ho.announced_of_steady hs,
    ?_, ho.owned_later (ho.before hg) hs.toBindsIn new, ho.stocked.later alike.stock,
    ho.marked_later (ho.before hg) alike.problems hs.toBindsIn made⟩
  exact ho.rooted_later hg (fun f c hc => (hs.codes f).symm.trans hc) alike.definitions

end Steady

section Ordinary

variable (ho : s.Ordered) (alike : s.Alike s') (hs : s.heap.Steady Heap.Nowhere s'.heap)
include ho alike hs

theorem Ordered.onward : s.Onward s' := ho.onwardIn alike hs (fun _ hx => hx.elim) (fun _ hx => hx.elim)
  fun _ hx => hx.elim

theorem Ordered.steady (ha : s'.heap.Apart) : s'.Ordered :=
  ho.steadyIn alike hs ha (fun _ _ hx => hx.elim) fun _ hold hx => absurd (hs.hasBinding_back hx) hold

end Ordinary

theorem Ordered.withHeap (ho : s.Ordered) (hh : s.heap.Steady Heap.Nowhere h ∧ h.Apart) :
    s.Onward (s.withHeap h) ∧ (s.withHeap h).Ordered :=
  ⟨ho.onward (.withHeap s h) hh.1, ho.steady (.withHeap s h) hh.1 hh.2⟩

end Session

/-- Work that leads onward from a session, to one in order. -/
structure Session.Endures {α : Type} (env : Environment) (s : Session) (x : Analysis α) : Prop where
  onward : s.Onward (x.runOn env s).2
  ordered : (x.runOn env s).2.Ordered

namespace Session.Endures

variable {s : Session}

theorem bind (hx : s.Endures env x)
    (hf : ∀ a, (x.runOn env s).2.Ordered → (x.runOn env s).2.Endures env (f a)) : s.Endures env (x >>= f) := by
  obtain ⟨hon, ho⟩ := hx
  suffices h : s.Onward ((x >>= f).runOn env s).2 ∧ ((x >>= f).runOn env s).2.Ordered from ⟨h.1, h.2⟩
  rw [runOn_bind]
  rcases hrun : x.runOn env s with ⟨e | a, s1⟩ <;> rw [hrun] at hon ho hf
  · exact ⟨hon, ho⟩
  · exact ⟨hon.trans (hf a ho).onward, (hf a ho).ordered⟩

theorem theHeap_bind (hf : s.Endures env (f s.heap)) : s.Endures env (theHeap >>= f) :=
  ⟨hf.onward, hf.ordered⟩

theorem discard (hx : s.Endures env x) : s.Endures env (discard x) := by
  suffices h : s.Endures env (x >>= fun _ => Pure.pure PUnit.unit) by
    rwa [← map_eq_pure_bind] at h
  exact hx.bind fun _ ho => ⟨.refl _, ho⟩

end Session.Endures

/-- Work that keeps a session in order, on any session that the given one leads to, and that ends as other work does if
what it leads to comes before the final session. -/
structure Tracks {α : Type} (env : Environment) (final s : Session) (x y : Analysis α) : Prop where
  run : ∀ s1, s.Leads s1 → s1.Ordered → s1.Onward (x.runOn env s1).2 ∧ (x.runOn env s1).2.Ordered ∧
    ((x.runOn env s1).2.Precedes final → y.runOn env s1 = x.runOn env s1)

namespace Tracks

variable {α : Type} {x : Analysis α}

theorem later (hx : Tracks env final s x y) (hl : s.Leads s') : Tracks env final s' x y :=
  ⟨fun s1 hs1 => hx.run s1 (hl.trans hs1)⟩

theorem now (hx : ∀ s', s.Leads s' → s'.Ordered → Tracks env final s' x y) : Tracks env final s x y :=
  ⟨fun s1 hs1 ho => (hx s1 hs1 ho).run s1 (.refl s1) ho⟩

theorem pure : Tracks env final s (Pure.pure a) (Pure.pure a) := ⟨fun s1 _ ho => ⟨.refl s1, ho, fun _ => rfl⟩⟩

theorem throw : Tracks (α := α) env final s (MonadExcept.throw f) (MonadExcept.throw f) :=
  ⟨fun s1 _ ho => ⟨.refl s1, ho, fun _ => rfl⟩⟩

theorem bind (hx : Tracks env final s x y) (hf : ∀ a, Tracks env final s (f a) (g a)) :
    Tracks env final s (x >>= f) (y >>= g) := by
  refine ⟨fun s1 hs1 ho => ?_⟩
  obtain ⟨hon, ho2, heq⟩ := hx.run s1 hs1 ho
  rw [runOn_bind, runOn_bind]
  rcases hrun : x.runOn env s1 with ⟨e | a, s2⟩ <;> rw [hrun] at hon ho2 heq
  · exact ⟨hon, ho2, fun hb => by rw [heq hb]⟩
  · obtain ⟨hon', ho3, heq'⟩ := (hf a).run s2 (hs1.trans hon.leads) ho2
    refine ⟨hon.trans hon', ho3, fun hb => ?_⟩
    -- What comes before the end of the second part comes before the end of the first.
    rw [heq (hon'.precedes.trans hb)]
    exact heq' hb

theorem of_endures (hx : ∀ s1, s.Leads s1 → s1.Ordered → s1.Endures env x) : Tracks env final s x x :=
  ⟨fun s1 hs1 ho => ⟨(hx s1 hs1 ho).onward, (hx s1 hs1 ho).ordered, fun _ => rfl⟩⟩

theorem endures (hx : Tracks env s s x x) (ho : s.Ordered) : s.Endures env x := by
  obtain ⟨hon, ho', _⟩ := hx.run s (.refl s) ho
  exact ⟨hon, ho'⟩

theorem map (hx : Tracks env final s x y) : Tracks env final s (f <$> x) (f <$> y) := by
  rw [map_eq_pure_bind, map_eq_pure_bind]
  exact hx.bind fun _ => pure

theorem discard (hx : Tracks env final s x y) : Tracks env final s (discard x) (discard y) := hx.map

theorem get_bind (hf : ∀ s', s.Leads s' → s'.Ordered → Tracks env final s' (f s') (g s')) :
    Tracks env final s (get >>= f) (get >>= g) :=
  ⟨fun s1 hs1 ho => (hf s1 hs1 ho).run s1 (.refl s1) ho⟩

theorem theHeap_get (hf : ∀ s', s.Leads s' → s'.Ordered → Tracks env final s' (f s'.heap) (g s'.heap)) :
    Tracks env final s (theHeap >>= f) (theHeap >>= g) :=
  ⟨fun s1 hs1 ho => (hf s1 hs1 ho).run s1 (.refl s1) ho⟩

theorem theHeap_bind (hf : ∀ h, h.Apart → Tracks env final s (f h) (g h)) :
    Tracks env final s (theHeap >>= f) (theHeap >>= g) :=
  ⟨fun s1 hs1 ho => (hf s1.heap ho.apart).run s1 hs1 ho⟩

theorem read_bind (hf : Tracks env final s (f env) (g env)) : Tracks env final s (read >>= f) (read >>= g) := ⟨hf.run⟩

theorem change (halike : ∀ s1 : Session, s1.Alike (c s1) ∧ (c s1).heap = s1.heap) :
    Tracks env final s (modify c) (modify c) := by
  refine ⟨fun s1 _ ho => ?_⟩
  obtain ⟨hal, hheap⟩ := halike s1
  have hs : s1.heap.Steady Heap.Nowhere (c s1).heap := hheap ▸ .refl _
  exact ⟨ho.onward hal hs, ho.steady hal hs (hheap ▸ ho.apart), fun _ => rfl⟩

theorem lift_later {x : HeapM α} (hx : ∀ s', s.Before s' → Tame Heap.Nowhere s'.heap x) :
    Tracks env final s (onHeap x) (onHeap x) := by
  refine ⟨fun s1 hs1 ho => ?_⟩
  obtain ⟨hon, ho'⟩ := ho.withHeap ((hx s1 hs1.toBefore).run s1.heap (.refl _) ho.apart)
  exact ⟨hon, ho', fun _ => rfl⟩

theorem lift {x : HeapM α} (hx : ∀ h, Tame Heap.Nowhere h x) : Tracks env final s (onHeap x) (onHeap x) :=
  lift_later fun s' _ => hx s'.heap

theorem lift_bind {x : HeapM α} (hx : ∀ s', s.Before s' → Tame Heap.Nowhere s'.heap x)
    (hf : ∀ h, Tracks env final s (f (x.run h).1) (g (x.run h).1)) :
    Tracks env final s (onHeap x >>= f) (onHeap x >>= g) := by
  refine ⟨fun s1 hs1 ho => ?_⟩
  have hlift : Tracks env final s (onHeap x) (onHeap x) := lift_later hx
  obtain ⟨hon, ho2, _⟩ := hlift.run s1 hs1 ho
  obtain ⟨hon', ho3, heq⟩ := (hf s1.heap).run _ (hs1.trans hon.leads) ho2
  rw [runOn_onHeap_bind, runOn_onHeap_bind]
  exact ⟨hon.trans hon', ho3, heq⟩

theorem foldlM (xs : List β) (hf : ∀ acc, ∀ x ∈ xs, Tracks env final s (f acc x) (g acc x)) :
    Tracks env final s (xs.foldlM f a) (xs.foldlM g a) := by
  induction xs generalizing a with
  | nil => exact pure
  | cons x xs ih =>
    rw [List.foldlM_cons, List.foldlM_cons]
    exact bind (hf a x (.head _)) fun _ => ih fun acc y hy => hf acc y (.tail _ hy)

theorem forM (xs : List β) (hf : ∀ x ∈ xs, Tracks env final s (f x) (g x)) :
    Tracks env final s (xs.forM f) (xs.forM g) := by
  induction xs with
  | nil => exact pure
  | cons x xs ih =>
    rw [List.forM_eq_forM, List.forM_cons, List.forM_cons]
    exact bind (hf x (.head _)) fun _ => ih fun y hy => hf y (.tail _ hy)

theorem mapM (xs : List α) (hf : ∀ x ∈ xs, Tracks env final s (f x) (g x)) :
    Tracks env final s (xs.mapM f) (xs.mapM g) := by
  induction xs with
  | nil => exact pure
  | cons x xs ih =>
    rw [List.mapM_cons, List.mapM_cons]
    refine bind (hf x (.head _)) fun _ => ?_
    exact bind (ih fun y hy => hf y (.tail _ hy)) fun _ => pure

end Tracks

end Concordance
