import Concordance.Library.Names
import Concordance.Session.State

/-!
# The library in a session

The library's names are bound in the outermost scope before anything else. Modules of the standard library are
made up, empty, when they are first asked for; further modules can be registered.
-/

namespace Concordance

def bindLibraryName (name : String) (type : TypeId) (kind : BindingKind) : HeapM Unit := do
  discard <| insertName Session.globals name type kind fun b => { b with isBuiltin := true }

/-- Makes a class of the library from its name and bases; `known` are the classes before it. -/
def newLibraryClass (known : Table String ClassId) (entry : String × List String) :
    HeapM (Table String ClassId) := do
  let (name, bases) := entry
  let c ← newClass name (some Session.globals)
  modifyClass c fun cls => { cls with factory := Library.valueOf? name }
  bases.forM fun base => do
    match known.get? base with
    | none => return
    | some b => addBase c ((← get).cls b).type
  bindLibraryName name ((← get).cls c).type .className
  return known.insert name c

/-- Makes the two outermost scopes and binds the library's names in the first. -/
def bindLibrary : HeapM (Table String ClassId) := do
  discard <| newScope { kind := .global }
  discard <| newScope { kind := .global }
  let classes ← Library.classes.foldlM newLibraryClass {}
  Library.untypedNames.forM fun name => bindLibraryName name .unknown .variableName
  Library.functions.forM fun name => do
    let f ← newNative name (Library.resultOf name) (some Session.globals)
    bindLibraryName name ((← get).function f).type .function
  Library.moduleNames.forM fun name => bindLibraryName name .str .variableName
  return classes

def Session.ofLibrary (library : Table String ClassId × Heap) : Session :=
  { heap := library.2, library := { classes := library.1 } }

def Session.empty : Session := .ofLibrary (bindLibrary.run Heap.initial)

def firstSegment (qname : String) : String := ((Text.fields '.' qname).head?).getD ""

def lastSegment (qname : String) : String := ((Text.fields '.' qname).getLast?).getD ""

/-- A module of the library by its dotted name; those of the standard library are made up on request. -/
def libraryModule? (qname : String) : Analysis (Option ModuleId) := do
  match (← get).library.modules.get? qname with
  | some m => return some m
  | none =>
    if firstSegment qname ∈ Library.modules then
      let m ← newModule (lastSegment qname) none (some Session.globals) qname
      modify fun s => { s with library.modules := s.library.modules.insert qname m }
      return some m
    return none

def registeredModule? (qname : String) : Analysis (Option ModuleId) :=
  return (← get).library.registered.get? qname

def registerModule (m : ModuleId) : Analysis Unit := do
  let qname := ((← theHeap).module m).qname
  modify fun s =>
    { s with library.registered := s.library.registered.insert qname m
             library.modules := s.library.modules.insert qname m }

end Concordance
