import Concordance.Graph.Basic

/-!
# Printing types

The text of a type. A type that is being printed further up is shown as `...`, so printing ends on cyclic
type graphs.
-/

namespace Concordance.Heap

def cyclePlaceholder : String := "..."

/-- A piece of the text of a type: words, or the text of a type that is shown inside. -/
inductive Piece
  | words (text : String)
  | type (type : TypeId)

def Piece.fill (inner : TypeId → String) : Piece → String
  | words s => s
  | type t => inner t

def alternatives (texts : List (List Piece)) : List Piece :=
  .words "\x7b" :: [.words " | "].intercalate texts ++ [.words "\x7d"]

/-- The text of a type, in pieces. -/
def layout (h : Heap) (t : TypeId) : List Piece :=
  match h.ty t with
  | .unknown => [.words "?"]
  | .continues => [.words "<cont>"]
  | .scalar name => [.words name]
  | .list e _ => [.words "[", .type e, .words "]"]
  | .tuple [e] => [.words "(", .type e, .words ",)"]
  | .tuple es => .words "(" :: [.words ", "].intercalate (es.map fun e => [.type e]) ++ [.words ")"]
  | .dict k v => [.words "\x7b", .type k, .words ": ", .type v, .words "\x7d"]
  | .function f _ =>
    let function := h.function f
    if function.native.isSome then [.words (function.name ++ "() -> "), .type function.returns]
    else
      match function.arrows.map fun a => [.type a.1, .words " -> ", .type a.2] with
      | [] => [.words "? -> ?"]
      | [arrow] => arrow
      | arrows => alternatives arrows
  | .classObject c => [.words ("<" ++ (h.cls c).name ++ ">")]
  | .object c _ => [.words (h.cls c).name]
  | .module m => [.words ("<module " ++ (h.module m).name ++ ">")]
  | .union ms => alternatives (ms.map fun m => [.type m])

def printIn (h : Heap) : Nat → List TypeId → TypeId → String
  | 0, _, _ => cyclePlaceholder
  | fuel + 1, above, t =>
    if t ∈ above then cyclePlaceholder
    else String.join ((h.layout t).map (Piece.fill (h.printIn fuel (t :: above))))

def print (h : Heap) (t : TypeId) : String := h.printIn (h.types.size + 1) [] t

def kindWord (h : Heap) (t : TypeId) : String :=
  match h.ty t with
  | .unknown => "UnknownType"
  | .continues => "ContType"
  | .scalar _ => "ScalarType"
  | .list .. => "ListType"
  | .tuple _ => "TupleType"
  | .dict .. => "DictType"
  | .function .. => "FuncType"
  | .classObject _ => "ClassType"
  | .object .. => "InstanceType"
  | .module _ => "ModuleType"
  | .union _ => "UnionType"

def describe (h : Heap) (t : TypeId) : String := "<" ++ h.kindWord t ++ ":" ++ h.print t ++ ">"

end Concordance.Heap
