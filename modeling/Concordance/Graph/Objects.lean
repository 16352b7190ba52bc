import Concordance.Graph.Scope

/-!
# Functions, classes, objects and modules

Types that own a scope. A bound method shares everything with its function but the receiver. What a function
was applied to is kept as arrows; a second application to equal parameter types gives the recorded result.
-/

namespace Concordance

def modifyFunction (f : FunctionId) (change : Function → Function) : HeapM Unit :=
  modify fun h => { h with functions := h.functions.modify f.index change }

def modifyClass (c : ClassId) (change : ClassInfo → ClassInfo) : HeapM Unit :=
  modify fun h => { h with classes := h.classes.modify c.index change }

def Heap.pathIn (h : Heap) (parent : Option ScopeId) (name : String) : String :=
  match parent with
  | some p => (h.scope p).qualify name
  | none => name

def newFunction (name : String) (code : Option Code) (parent env : Option ScopeId) : HeapM FunctionId := do
  let h ← get
  let f : FunctionId := ⟨h.functions.size⟩
  let type ← newType (.function f none)
  let table ← newScope { kind := .function, path := h.pathIn parent name, parent, owner := some type }
  modify fun h => { h with functions := h.functions.push { name, code, type, table, env, returns := .unknown } }
  return f

def newNative (name : String) (result : Recipe) (parent : Option ScopeId) : HeapM FunctionId := do
  let f ← newFunction name none parent none
  let returns ← build result
  modifyFunction f fun function => { function with native := some result, returns }
  return f

def addBase (c : ClassId) (base : TypeId) : HeapM Unit := do
  modifyClass c fun cls => { cls with superclass := some base }
  let h ← get
  if let some s := h.tableOf? base then addSuper (h.cls c).table s

def newClass (name : String) (parent : Option ScopeId) : HeapM ClassId := do
  let h ← get
  let c : ClassId := ⟨h.classes.size⟩
  let type ← newType (.classObject c)
  let table ← newScope { kind := .classBody, path := h.pathIn parent name, parent, owner := some type }
  modify fun h => { h with classes := h.classes.push { name, type, table } }
  return c

def newObject (c : ClassId) : HeapM TypeId := do
  let h ← get
  let class_ := h.cls c
  let type ← newType .unknown
  let table ← newScope
    { kind := .object, path := (h.scope class_.table).path, supers := [class_.table], owner := some type }
  setType type (.object c table)
  return type

def canonOf (c : ClassId) : HeapM TypeId := do
  match ((← get).cls c).canon with
  | some t => return t
  | none =>
    let t ← newObject c
    modifyClass c fun cls => { cls with canon := some t }
    return t

def newModule (name : String) (file : Option String) (parent : Option ScopeId) (qname : String) :
    HeapM ModuleId := do
  let h ← get
  let m : ModuleId := ⟨h.modules.size⟩
  let qname := if qname = "" then name else qname
  let type ← newType (.module m)
  let table ← newScope { kind := .module, path := qname, parent, owner := some type }
  modify fun h => { h with modules := h.modules.push { name, type, table, file, qname } }
  return m

def bindReceiver (f : FunctionId) (receiver : TypeId) : HeapM TypeId :=
  newType (.function f (some receiver))

def markCalled (f : FunctionId) : HeapM Unit :=
  modifyFunction f fun function => { function with called := true }

namespace Heap

def functionsIn (h : Heap) (t : TypeId) : List FunctionId :=
  (h.members t).filterMap fun m => match h.ty m with
    | .function f _ => some f
    | _ => none

def functionsOf (h : Heap) (bs : List BindingId) : List FunctionId :=
  bs.flatMap fun b => h.functionsIn (h.binding b).type

/-- Whether a recorded tuple of parameter types is equal to another: same length first, then equality. -/
def sameKey (h : Heap) (recorded wanted : TypeId) : Bool :=
  match h.ty recorded, h.ty wanted with
  | .tuple es, .tuple fs => es.length == fs.length && h.equal recorded wanted
  | _, _ => h.equal recorded wanted

def arrow? (h : Heap) (f : FunctionId) (key : TypeId) : Option TypeId :=
  ((h.function f).arrows.find? fun a => h.sameKey a.1 key).map Prod.snd

/-- The arrows with one more: an equal key keeps its place and gets the new result. -/
def withArrow (h : Heap) (key result : TypeId) : List (TypeId × TypeId) → List (TypeId × TypeId)
  | [] => [(key, result)]
  | a :: rest => if h.sameKey a.1 key then (a.1, result) :: rest else a :: h.withArrow key result rest

end Heap

def addArrow (f : FunctionId) (key result : TypeId) : HeapM Unit := do
  let h ← get
  modifyFunction f fun function => { function with arrows := h.withArrow key result function.arrows }
  let returns ← union (h.function f).returns result
  modifyFunction f fun function => { function with returns }

def nativeResult (f : FunctionId) : HeapM TypeId := do
  match ((← get).function f).native with
  | some recipe => build recipe
  | none => return .unknown

end Concordance
