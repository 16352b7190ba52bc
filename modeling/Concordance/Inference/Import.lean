import Concordance.Inference.Loading

/-!
# Imports

Import statements bind modules, or what modules hold, in the scope of the statement. What cannot be found is
bound as unknown.
-/

namespace Concordance

open Syntax (Ident Alias)

def Heap.typeOfModule (h : Heap) : Option ModuleId → TypeId
  | some m => (h.module m).type
  | none => .unknown

def bindImport (place : Place) (i : Ident) (type : TypeId) : Analysis Unit :=
  discard <| bindIn place.scope i.text (some (place.site i)) type .variableName

/-- Imports a module: under another name if one is given, or else by the first segment of its path, which
loading binds. -/
def importModule (ev : Evaluator) (place : Place) (a : Alias) : Analysis Unit := do
  let sites := a.path.map place.site
  match a.rename with
  | some i =>
    let m ← loadModule ev sites none 0
    bindImport place i ((← theHeap).typeOfModule m)
  | none =>
    let m ← loadModule ev sites (some place.scope) 0
    match m, a.path with
    | none, first :: _ =>
      if (((← theHeap).scope place.scope).local? first.text).isNone then bindImport place first .unknown
    | _, _ => return

def Heap.moduleBindings? (h : Heap) (m : Option ModuleId) (name : String) : Option (List BindingId) :=
  m.bind fun m => (h.scope (h.module m).table).bound? name

/-- Imports a name from a module: what the module binds to it, or else a module below it. -/
def importName (ev : Evaluator) (place : Place) (level : Nat) (source : List Ident) (m : Option ModuleId)
    (a : Alias) : Analysis Unit := do
  match a.path with
  | [imported] =>
    let target := a.rename.getD imported
    match (← theHeap).moduleBindings? m imported.text with
    | some bindings =>
      recordUse (place.site imported) bindings .ref
      bindImport place target (← typeOfBindings bindings)
    | none =>
      let submodule ← loadModule ev ((source ++ [imported]).map place.site) none level
      bindImport place target ((← theHeap).typeOfModule submodule)
  | _ => return

def isPrivateName (name : String) : Bool := name.toList.head? == some '_'

def importEverything (place : Place) (m : ModuleId) : HeapM Unit := do
  let h ← get
  (h.scope (h.module m).table).table.entries.forM fun entry =>
    if isPrivateName entry.1 then return else updateName place.scope entry.1 entry.2

end Concordance
