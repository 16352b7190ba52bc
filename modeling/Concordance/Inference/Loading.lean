import Concordance.Inference.Task
import Concordance.Session.Library

/-!
# Loading modules

A file is resolved once: its module is known under the file's qualified name from the moment its resolution starts, so
that imports in a circle find it.
-/

namespace Concordance

def directoryOf (path : String) : String :=
  let cs := path.toList
  let head := (cs.reverse.dropWhile (· != '/')).reverse
  if head.all (· == '/') then String.ofList head
  else String.ofList (head.reverse.dropWhile (· == '/')).reverse

def canonicalPath (path : String) : Analysis String := do
  match (← read).workspace.canonical path with
  | .ok p => return p.toString
  | .error f => throw f

def cachedModule? (path : String) : Analysis (Option ModuleId) := do
  match ((← theHeap).scope Session.moduleTable).bound? (Path.ofString path).qualifiedName with
  | none => return none
  | some bs =>
    let t ← typeOfBindings bs
    let h ← theHeap
    return (h.members t).findSome? fun m => match h.ty m with
      | .module m => some m
      | _ => none

def recordParseFailure (f : ParseFailure) : Analysis Unit := do
  modify fun s =>
    { s with
      loading.failed := if f.path ∈ s.loading.failed then s.loading.failed else s.loading.failed ++ [f.path]
      parseProblems := s.parseProblems.add ⟨f.path, 0, 0, .parseError, f.describe, .error⟩ }
  log .warning ("Failed to parse [path]" ++ f.path ++ "[/path]: " ++ f.describe)

def Environment.shortage (env : Environment) : Option Resource :=
  match env.injection with
  | some ⟨.parsing, resource⟩ => some resource
  | _ => none

def parsingResult : Except Fault (Except ParseFailure SourceUnit) → Analysis (Except ParseFailure SourceUnit)
  | .ok (.error f) => do
    if f.outOfMemory then trace ("out of memory parsing " ++ f.path ++ ", AST cache cleared")
    return .error f
  | .ok (.ok unit) => return .ok unit
  | .error e => throw e

def parsing (work : Option Resource → Parsing) : Analysis (Except ParseFailure SourceUnit) := do
  let (result, cache) := (work (← read).shortage).run (← get).loading.cache
  modify fun s => { s with loading.cache := cache }
  parsingResult result

/-- Binds the module of a unit under its qualified name, so that imports find it. -/
def announceUnit (unit : SourceUnit) (m : ModuleId) : Analysis Unit := do
  let qname := (Path.ofString unit.path).qualifiedName
  let ref : UnitRef := ⟨unit.number, some unit.path⟩
  let site : Site :=
    { node := ⟨unit.number, unit.tree.size⟩, name := "", location := ref.locate unit.tree.span, isModule := true }
  discard <| bindIn Session.moduleTable qname (some site) ((← theHeap).module m).type .module
  trace ("resolving " ++ unit.path ++ " as " ++ qname)

def openUnit (unit : SourceUnit) : Analysis ModuleId := do
  let path := Path.ofString unit.path
  let m ← newModule path.moduleName (some unit.path) (some Session.globals) path.qualifiedName
  modify fun s => { s with loading.units := s.loading.units.insert m unit }
  return m

def resolveModule (ev : Evaluator) (unit : SourceUnit) (m : ModuleId) : Analysis Unit := do
  announceUnit unit m
  let place : Place := ⟨⟨unit.number, some unit.path⟩, ((← theHeap).module m).table⟩
  let _ ← block ev place unit.tree.body

def resolveUnit (ev : Evaluator) (unit : SourceUnit) : Analysis ModuleId := do
  let m ← openUnit unit
  resolveModule ev unit m
  return m

def abandonModule (path : String) : Analysis Unit := do
  modify fun s => { s with loading.cache := s.loading.cache.clear }
  removeName Session.moduleTable (Path.ofString path).qualifiedName
  recordParseFailure (.memory path)

/-- Resolves a unit, which is taken back if memory runs out on it, and records that its file is loaded. -/
def loadUnit (ev : Evaluator) (path : String) (unit : SourceUnit) : Analysis (Option ModuleId) := do
  let resolved ← tryCatch (some <$> resolveUnit ev unit) fun fault =>
    if fault = .exhausted .memory then do
      abandonModule path
      return none
    else throw fault
  if resolved.isSome then
    modify fun s => { s with loading.loaded := s.loading.loaded ++ [path] }
  return resolved

def parseSource (path : String) (text : Option (ByteArray × ParseOutcome)) :
    Analysis (Except ParseFailure SourceUnit) := do
  let w := (← read).workspace
  match text with
  | some (content, outcome) => parsing fun shortage => UnitCache.parse shortage path content outcome
  | none => parsing fun shortage => UnitCache.read shortage w path

def loadParsed (ev : Evaluator) (path : String) : Except ParseFailure SourceUnit → Analysis (Option ModuleId)
  | .error failure => do
    recordParseFailure failure
    return none
  | .ok unit => loadUnit ev path unit

def withFile {α : Type} (path : String) (work : Analysis α) : Analysis α := do
  let loading := (← get).loading
  let stack := loading.stack
  let directory := loading.directory
  modify fun s => { s with loading.stack := path :: stack, loading.directory := some (directoryOf path) }
  finallyDo (fun s => { s with loading.stack := stack, loading.directory := directory }) do
    trace ("loading " ++ path)
    work

/-- What is to be done for a file: nothing more, with the module that it has if there is one, or to load it by
its canonical path. -/
inductive Need
  | settled (m : Option ModuleId)
  | load (path : String)
deriving DecidableEq, Repr, Inhabited

/-- What is to be done for a file, or for a text as if it were the content of the file. -/
def needFor (path : String) (isText : Bool) : Analysis Need := do
  let path ← canonicalPath path
  if !isText && !(← read).workspace.isFile (Path.ofString path) then
    trace ("not a readable file: " ++ path)
    return .settled none
  if path ∈ (← get).loading.stack then
    trace ("circular import of " ++ path)
    return .settled none
  match ← cachedModule? path with
  | some m =>
    trace ("using cached module " ++ path)
    return .settled (some m)
  | none => return .load path

def loadFile (ev : Evaluator) (path : String) (text : Option (ByteArray × ParseOutcome) := none) :
    Analysis (Option ModuleId) := do
  match ← needFor path text.isSome with
  | .settled m => return m
  | .load path => withFile path do loadParsed ev path (← parseSource path text)

def searchOrder : Analysis (List String) := do
  let loading := (← get).loading
  match loading.directory with
  | some d => return if d ∈ loading.searchPath then loading.searchPath else d :: loading.searchPath
  | none => return loading.searchPath

def packageIn (directory : Path) (name : String) : Path :=
  (directory.join (Path.ofString name)).child Path.packageFile

def sourceIn (directory : Path) (name : String) : Path := directory.join (Path.ofString (name ++ ".py"))

/-- Whether a directory holds a module of the given name, as a package or a file. -/
def Workspace.hasModule (w : Workspace) (name directory : String) : Bool :=
  let d := Path.ofString directory
  w.isFile (packageIn d name) || w.isFile (sourceIn d name)

def locateModule (name : String) : Analysis (Option String) := do
  return (← searchOrder).find? ((← read).workspace.hasModule name)

/-- The directory that a relative import with the given number of dots starts from. -/
def relativeBase (level : Nat) : Analysis (Option String) := do
  match (← get).loading.directory with
  | none => return none
  | some d => return some ((List.range (level - 1)).foldl (fun d _ => directoryOf d) d)

/-- Loads a package by its file. One that is being resolved is used as it stands. -/
def loadPackage (ev : Evaluator) (file : Path) : Analysis (Option ModuleId) := do
  let path ← canonicalPath file.toString
  if path ∈ (← get).loading.stack then cachedModule? path else loadFile ev file.toString

/-- Binds one segment of a module's name: in the package before it, or the first one in the given scope. -/
def bindSegment (previous : Option ModuleId) (scope : Option ScopeId) (site : Site) (m : ModuleId)
    (kind : BindingKind) : Analysis Unit := do
  let h ← theHeap
  match previous, scope with
  | some p, _ => discard <| bindIn (h.module p).table site.name (some site) (h.module m).type kind
  | none, some s => discard <| bindIn s site.name (some site) (h.module m).type kind
  | none, none => return

/-- Binds the segments of a library module's name, as far as they name modules; `before` are the segments
before them. -/
def bindLibrarySegments (scope : Option ScopeId) :
    List String → Option ModuleId → List Site → Analysis Unit
  | _, _, [] => return
  | before, previous, site :: rest => do
    let segments := before ++ [site.name]
    match ← libraryModule? (".".intercalate segments) with
    | none => return
    | some m =>
      bindSegment previous scope site m .scope
      bindLibrarySegments scope segments (some m) rest

/-- Loads one segment of a module's name below a directory: a package, or also a file if it is the last one. -/
def loadSegment (ev : Evaluator) (directory : Path) (name : String) (isLast : Bool) :
    Analysis (Option ModuleId) := do
  let w := (← read).workspace
  if w.isFile (packageIn directory name) then loadPackage ev (packageIn directory name)
  else if isLast && w.isFile (sourceIn directory name) then loadFile ev (sourceIn directory name).toString
  else return none

/-- Loads the segments of a module's name below a directory, each below the one before it. -/
def loadSegments (ev : Evaluator) (scope : Option ScopeId) :
    Path → Option ModuleId → List Site → Analysis (Option ModuleId)
  | _, previous, [] => return previous
  | directory, previous, site :: rest => do
    match ← loadSegment ev directory site.name rest.isEmpty with
    | none => return none
    | some m =>
      bindSegment previous scope site m .variableName
      loadSegments ev scope (packageIn directory site.name).parent (some m) rest

def loadLibraryModule (names : List Site) (scope : Option ScopeId) (qname : String) :
    Analysis (Option ModuleId) := do
  match ← libraryModule? qname with
  | none => return none
  | some m =>
    bindLibrarySegments scope [] none names
    return some m

/-- Loads a module by its name from the top. -/
def loadAbsolute (ev : Evaluator) (names : List Site) (scope : Option ScopeId) (first : Site) :
    Analysis (Option ModuleId) := do
  let qname := ".".intercalate (names.map Site.name)
  match ← registeredModule? qname with
  | some m =>
    bindLibrarySegments scope [] none names
    return some m
  | none =>
    match ← locateModule first.name with
    | some directory => loadSegments ev scope (Path.ofString directory) none names
    | none => loadLibraryModule names scope qname

def loadRelative (ev : Evaluator) (names : List Site) (scope : Option ScopeId) (level : Nat) :
    Analysis (Option ModuleId) := do
  match ← relativeBase level, names with
  | none, _ => return none
  | some base, [] => loadPackage ev ((Path.ofString base).child Path.packageFile)
  | some base, names => loadSegments ev scope (Path.ofString base) none names

/-- Loads a module by the segments of its name. The first segment is bound in the scope, if one is given. -/
def loadModule (ev : Evaluator) (names : List Site) (scope : Option ScopeId) (level : Nat) :
    Analysis (Option ModuleId) :=
  match level, names with
  | 0, [] => return none
  | 0, first :: _ => loadAbsolute ev names scope first
  | level, names => loadRelative ev names scope level

end Concordance
