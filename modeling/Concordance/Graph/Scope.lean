import Concordance.Graph.Container

/-!
# Scopes

Scopes are linked in two ways. Free names are looked up outwards along the chain of enclosing scopes; a function body is
not inside the class body around it, so the walk from a function leaves out class scopes.
-/

namespace Concordance

def Scope.qualify (s : Scope) (name : String) : String :=
  if s.path = "" then name else s.path ++ "." ++ name

def Scope.local? (s : Scope) (name : String) : Option (List BindingId) := s.table.get? name

def Scope.bound? (s : Scope) (name : String) : Option (List BindingId) :=
  match s.local? name with
  | some (b :: bs) => some (b :: bs)
  | _ => none

namespace Heap

def skipClasses (h : Heap) : Nat → Option ScopeId → Option ScopeId
  | 0, s => s
  | _, none => none
  | fuel + 1, some s => if (h.scope s).kind = .classBody then h.skipClasses fuel (h.scope s).parent else some s

def outward (h : Heap) (s : ScopeId) : Option ScopeId :=
  let scope := h.scope s
  if scope.kind = .function then h.skipClasses h.scopes.size scope.parent else scope.parent

/-- The enclosing module's scope, starting from the given one; the outermost scope if there is none. -/
def moduleScopeFrom (h : Heap) : Nat → ScopeId → ScopeId
  | 0, s => s
  | fuel + 1, s =>
    if (h.scope s).kind = .module then s
    else match (h.scope s).parent with
      | none => s
      | some p => h.moduleScopeFrom fuel p

def moduleScope (h : Heap) (s : ScopeId) : ScopeId := h.moduleScopeFrom h.scopes.size s

/-- Walks outwards from a scope as the look-up of a free name does, until `found` answers. -/
def walkFrom {α : Type} (h : Heap) (name : String) (found : ScopeId → Option α) : Nat → ScopeId → Option α
  | 0, _ => none
  | fuel + 1, s =>
    match found s with
    | some a => some a
    | none =>
      let module := h.moduleScope s
      if name ∈ (h.scope s).globals ∧ module ≠ s then h.walkFrom name found fuel module
      else match h.outward s with
        | none => none
        | some p => h.walkFrom name found fuel p

def lookup (h : Heap) (s : ScopeId) (name : String) : Option (List BindingId) :=
  h.walkFrom name (fun s => (h.scope s).bound? name) (h.scopes.size + 1) s

def lookupScope (h : Heap) (s : ScopeId) (name : String) : Option ScopeId :=
  h.walkFrom name (fun s => if (h.scope s).table.contains name then some s else none) (h.scopes.size + 1) s

/-- Looks an attribute up in a scope and its base scopes, leaving out those visited before. -/
def attrFrom (h : Heap) (name : String) : Nat → ScopeId → StateM (List ScopeId) (Option (List BindingId))
  | 0, _ => pure none
  | fuel + 1, s => do
    if s ∈ (← get) then return none
    modify (s :: ·)
    match (h.scope s).bound? name with
    | some bs => return some bs
    | none => (h.scope s).supers.findSomeM? (h.attrFrom name fuel)

def lookupAttr (h : Heap) (s : ScopeId) (name : String) : Option (List BindingId) :=
  ((h.attrFrom name (h.scopes.size + 1) s).run []).1

def attrOf (h : Heap) (t : TypeId) (name : String) : Option (List BindingId) :=
  match h.tableOf? t with
  | none => none
  | some s => h.lookupAttr s name

/-- The scope that functions defined here see around them: the nearest one that is no class body. -/
def closureScopeFrom (h : Heap) : Nat → ScopeId → ScopeId
  | 0, s => s
  | fuel + 1, s =>
    match (h.scope s).kind, (h.scope s).parent with
    | .classBody, some p => h.closureScopeFrom fuel p
    | _, _ => s

def closureScope (h : Heap) (s : ScopeId) : ScopeId := h.closureScopeFrom h.scopes.size s

end Heap

def modifyScope (s : ScopeId) (change : Scope → Scope) : HeapM Unit :=
  modify fun h => { h with scopes := h.scopes.modify s.index change }

def modifyBinding (b : BindingId) (change : Binding → Binding) : HeapM Unit :=
  modify fun h => { h with bindings := h.bindings.modify b.index change }

def newScope (scope : Scope) : HeapM ScopeId :=
  modifyGet fun h => (⟨h.scopes.size⟩, { h with scopes := h.scopes.push scope })

def newBinding (binding : Binding) : HeapM BindingId :=
  modifyGet fun h => (⟨h.bindings.size⟩, { h with bindings := h.bindings.push binding })

def addSuper (s super : ScopeId) : HeapM Unit :=
  modifyScope s fun scope =>
    if super = s ∨ super ∈ scope.supers then scope else { scope with supers := scope.supers ++ [super] }

def updateName (s : ScopeId) (name : String) (bindings : List BindingId) : HeapM Unit :=
  modifyScope s fun scope => { scope with table := scope.table.insert name bindings }

def removeName (s : ScopeId) (name : String) : HeapM Unit :=
  modifyScope s fun scope => { scope with table := scope.table.erase name }

def declareGlobal (s : ScopeId) (name : String) : HeapM Unit :=
  modifyScope s fun scope =>
    if name ∈ scope.globals then scope else { scope with globals := scope.globals ++ [name] }

def declareNonlocal (s : ScopeId) (name : String) : HeapM Unit :=
  modifyScope s fun scope =>
    if name ∈ scope.nonlocals then scope else { scope with nonlocals := scope.nonlocals ++ [name] }

def Heap.qualifiedName (h : Heap) (s : ScopeId) (name : String) (t : TypeId) : String :=
  match h.ty t with
  | .module m => (h.module m).qname
  | _ => (h.scope s).qualify name

/-- Binds a name in a scope. -/
def insertName (s : ScopeId) (name : String) (type : TypeId) (kind : BindingKind)
    (describe : Binding → Binding := id) : HeapM (BindingId × Bool) := do
  let h ← get
  match (h.scope s).bound? name with
  | some (b :: _) =>
    let merged ← union (h.binding b).type type
    modifyBinding b fun binding => { binding with type := merged }
    return (b, true)
  | _ =>
    let qname := h.qualifiedName s name type
    let plain : Binding :=
      { name, origin := none, qname := if qname = "" then name else qname, type, kind }
    let b ← newBinding (describe plain)
    updateName s name [b]
    return (b, false)

def typeOfBindings (bs : List BindingId) : HeapM TypeId :=
  bs.foldlM (fun acc b => do union acc ((← get).binding b).type) .unknown

def ScopeKind.takesAttributes : ScopeKind → Bool
  | .classBody | .object | .module => true
  | .global | .function => false

/-- The scope in which attributes of a type are recorded; only classes, objects and modules take attributes. -/
def Heap.attrTable? (h : Heap) (t : TypeId) : Option ScopeId :=
  (h.tableOf? t).filter fun s => (h.scope s).kind.takesAttributes

def Scope.describe (quote : String → String) (s : Scope) : String :=
  let names := s.table.keys.mergeSort fun a b => decide (a ≤ b)
  "<Scope " ++ s.kind.text ++ " " ++ (if s.path = "" then "<root>" else s.path) ++ " ["
    ++ ", ".intercalate (names.map quote) ++ "]>"

end Concordance
