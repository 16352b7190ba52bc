import Concordance.Kind
import Concordance.Syntax.Basic
import Concordance.Table

/-!
# The type graph

Inferred types, the scopes that name their parts, and the bindings and references found so far, all in one heap.
-/

namespace Concordance

open Syntax (Params Expr Body)

structure TypeId where
  index : Nat
deriving DecidableEq, Repr, Inhabited

structure FunctionId where
  index : Nat
deriving DecidableEq, Repr, Inhabited

structure ClassId where
  index : Nat
deriving DecidableEq, Repr, Inhabited

structure ModuleId where
  index : Nat
deriving DecidableEq, Repr, Inhabited

structure ScopeId where
  index : Nat
deriving DecidableEq, Repr, Inhabited

structure BindingId where
  index : Nat
deriving DecidableEq, Repr, Inhabited

structure ReferenceId where
  index : Nat
deriving DecidableEq, Repr, Inhabited

/-- What a type currently is. -/
inductive Ty
  | unknown
  /-- The marker of statements after which control goes on. -/
  | continues
  /-- A number, truth value, text or nothing, by name. -/
  | scalar (name : String)
  /-- A sequence of one element type; a display assigned directly also knows its elements one by one. -/
  | list (element : TypeId) (shape : Option (List TypeId))
  | tuple (elements : List TypeId)
  | dict (key value : TypeId)
  /-- A function, or with a receiver a method bound to it. -/
  | function (function : FunctionId) (receiver : Option TypeId)
  | classObject (cls : ClassId)
  /-- An object of a class, with the scope of its own attributes. -/
  | object (cls : ClassId) (table : ScopeId)
  | module (module : ModuleId)
  | union (members : List TypeId)
deriving DecidableEq, Repr, Inhabited

/-- A type to be built: an existing one, or a new container of such. -/
inductive Recipe
  | existing (type : TypeId)
  | list (element : Recipe)
  | tuple (elements : List Recipe)
  | dict (key value : Recipe)
  /-- A union, made simple when it has fewer than two members. -/
  | union (members : List Recipe)
  | rawUnion (members : List Recipe)
deriving Inhabited

/-- The parse that a piece of code belongs to. Code without a file has no locations. -/
structure UnitRef where
  number : Nat
  file : Option String
deriving DecidableEq, Repr, Inhabited

/-- A syntax node, told from every other one of the session. -/
structure NodeRef where
  unit : Nat
  node : Nat
deriving DecidableEq, Repr, Inhabited

/-- The definition that a function comes from. -/
structure Code where
  unit : UnitRef
  node : Nat
  params : Params Expr
  body : Body

def Code.ref (c : Code) : NodeRef := ⟨c.unit.number, c.node⟩

structure Function where
  name : String
  code : Option Code
  type : TypeId
  table : ScopeId
  env : Option ScopeId := none
  defaults : Table String TypeId := {}
  cls : Option ClassId := none
  isStatic : Bool := false
  isClassMethod : Bool := false
  isProperty : Bool := false
  /-- Parameter types that the function was applied to, as tuples, with the results; oldest first. -/
  arrows : List (TypeId × TypeId) := []
  returns : TypeId
  called : Bool := false
  /-- The union of what the running application has yielded. -/
  yields : Option TypeId := none
  native : Option Recipe := none

structure ClassInfo where
  name : String
  type : TypeId
  table : ScopeId
  superclass : Option TypeId := none
  /-- What a construction gives, for a class of plain values. -/
  factory : Option Recipe := none
  /-- The object that stands for all objects of the class. -/
  canon : Option TypeId := none
deriving Inhabited

structure ModuleInfo where
  name : String
  type : TypeId
  table : ScopeId
  file : Option String
  qname : String
deriving Inhabited

/-- An environment of names. -/
structure Scope where
  kind : ScopeKind
  /-- What qualified names of its bindings start with. -/
  path : String := ""
  parent : Option ScopeId := none
  table : Table String (List BindingId) := {}
  supers : List ScopeId := []
  globals : List String := []
  /-- Names declared to belong to a function around. -/
  nonlocals : List String := []
  owner : Option TypeId := none
deriving Inhabited

/-- A use of a name. Two uses at the same place are the same reference. -/
structure Reference where
  file : Option String
  start : Int
  stop : Int
  name : String
  kind : RefKind := .ref
deriving DecidableEq, Repr, Inhabited

def Reference.samePlace (a b : Reference) : Bool := a.start == b.start && a.file == b.file

/-- A name introduced by a program, with what is known of its type. Offsets are -1 where there is none. -/
structure Binding where
  name : String
  origin : Option NodeRef
  qname : String
  type : TypeId
  kind : BindingKind
  refs : List ReferenceId := []
  file : Option String := none
  start : Int := -1
  stop : Int := -1
  bodyStart : Int := -1
  bodyStop : Int := -1
  isStatic : Bool := false
  isSynthetic : Bool := false
  isReadonly : Bool := false
  isDeprecated : Bool := false
  isBuiltin : Bool := false
deriving Inhabited

/-- Everything that has an identity. -/
structure Heap where
  types : Array Ty
  functions : Array Function := #[]
  classes : Array ClassInfo := #[]
  modules : Array ModuleInfo := #[]
  scopes : Array Scope := #[]
  bindings : Array Binding := #[]
  references : Array Reference := #[]

namespace TypeId

def unknown : TypeId := ⟨0⟩
def continues : TypeId := ⟨1⟩
def none : TypeId := ⟨2⟩
def bool : TypeId := ⟨3⟩
def int : TypeId := ⟨4⟩
def float : TypeId := ⟨5⟩
def complex : TypeId := ⟨6⟩
def str : TypeId := ⟨7⟩
def bytes : TypeId := ⟨8⟩

end TypeId

/-- The scalars that exist once, in the order of their identities after the two markers. -/
def scalarNames : List String := ["None", "bool", "int", "float", "complex", "str", "bytes"]

def Heap.initial : Heap where
  types := (Ty.unknown :: Ty.continues :: scalarNames.map Ty.scalar).toArray

instance : Inhabited Heap := ⟨Heap.initial⟩

instance : Inhabited Function := ⟨{ name := "", code := none, type := .unknown, table := ⟨0⟩, returns := .unknown }⟩

namespace Heap

def ty (h : Heap) (t : TypeId) : Ty := h.types.getD t.index .unknown

def function (h : Heap) (f : FunctionId) : Function := h.functions.getD f.index default

def cls (h : Heap) (c : ClassId) : ClassInfo := h.classes.getD c.index default

def module (h : Heap) (m : ModuleId) : ModuleInfo := h.modules.getD m.index default

def scope (h : Heap) (s : ScopeId) : Scope := h.scopes.getD s.index default

def binding (h : Heap) (b : BindingId) : Binding := h.bindings.getD b.index default

def reference (h : Heap) (r : ReferenceId) : Reference := h.references.getD r.index default

def members (h : Heap) (t : TypeId) : List TypeId :=
  match h.ty t with
  | .union ms => ms
  | _ => [t]

def isUnknown (h : Heap) (t : TypeId) : Bool :=
  match h.ty t with
  | .unknown => true
  | _ => false

def tableOf? (h : Heap) (t : TypeId) : Option ScopeId :=
  match h.ty t with
  | .function f _ => some (h.function f).table
  | .classObject c => some (h.cls c).table
  | .object _ table => some table
  | .module m => some (h.module m).table
  | _ => none

end Heap

/-- Work on the heap. -/
abbrev HeapM := StateM Heap

end Concordance
