import Concordance.Syntax.Size

/-!
# The regions of a tree

The names in a piece of code belong to the region that the code stands in directly: the file, the body of a function or
class, or a comprehension.
-/

namespace Concordance.Syntax

/-- What a piece of code stands in directly. Definitions and comprehensions are told apart by their numbers. -/
inductive Region
  | file
  | function (node : Nat)
  | cls (node : Nat)
  | comprehension (node : Nat)
deriving DecidableEq, Repr, Inhabited

/-- A piece of code. A name that is bound, declared or looked up in an object counts as an expression. -/
inductive Piece
  | expr (e : Expr)
  | stmt (s : Stmt)
  | pattern (p : Pattern)

/-- A part of a piece of code, with the region that it stands in if it is another one. -/
abbrev Part := Option Region × Piece

namespace Part

def exprs (es : List Expr) : List Part := es.map fun e => (none, .expr e)

def names (is : List Ident) : List Part := is.map fun i => (none, .expr (.name i))

def patterns (ps : List Pattern) : List Part := ps.map fun p => (none, .pattern p)

def block (b : List Stmt) : List Part := b.map fun s => (none, .stmt s)

def ofParam (node : Nat) (p : Param Expr) : List Part :=
  (some (.function node), .expr (.name p.name)) :: exprs (p.hint.toList ++ p.fallback.toList)

def ofParams (node : Nat) (ps : Params Expr) : List Part :=
  (ps.positionalOnly ++ ps.ordinary ++ ps.rest.toList ++ ps.keywordOnly ++ ps.keywordRest.toList).flatMap (ofParam node)

/-- A clause of a comprehension; what it goes through stands in the given region. -/
def ofClause (node : Nat) (outer : Option Region) (c : Clause Expr) : List Part :=
  (some (.comprehension node), .expr c.target) :: (outer, .expr c.iterable)
    :: c.conditions.map fun e => (some (.comprehension node), .expr e)

/-- The clauses of a comprehension: what the first one goes through stands around it. -/
def ofClauses (node : Nat) : List (Clause Expr) → List Part
  | [] => []
  | c :: rest => ofClause node none c ++ rest.flatMap (ofClause node (some (.comprehension node)))

def ofAlias (a : Alias) : List Part := names (a.path ++ a.rename.toList)

end Part

def Index.values {ε : Type} : Index ε → List ε
  | .single e => [e]
  | .slice lower upper step => lower.toList ++ upper.toList ++ step.toList

def DictItem.values {ε : Type} : DictItem ε → List ε
  | .entry key value => [key, value]
  | .spread value => [value]

def Expr.parts : Expr → List Part
  | .name _ | .integer .. | .float _ | .imaginary _ | .string .. | .ellipsis _ => []
  | .attr _ value i => Part.exprs [value] ++ Part.names [i]
  | .subscript _ value index => Part.exprs (value :: index.flatMap Index.values)
  | .call _ callee args => Part.exprs (callee :: args.map Arg.value)
  | .concatenated _ left right | .binary _ _ left right | .boolean _ left right => Part.exprs [left, right]
  | .formatted _ parts | .unmodelled _ parts => Part.exprs parts
  | .list _ elements | .set _ elements | .tuple _ elements => Part.exprs (elements.map Element.value)
  | .dict _ items => Part.exprs (items.flatMap DictItem.values)
  | .comprehension _ node element clauses =>
    (some (.comprehension node), .expr element) :: Part.ofClauses node clauses
  | .dictComprehension _ node key value clauses =>
    (some (.comprehension node), .expr key) :: (some (.comprehension node), .expr value) :: Part.ofClauses node clauses
  | .lambda _ node params body => Part.ofParams node params ++ [(some (.function node), .expr body)]
  | .unary _ _ operand | .await _ operand => Part.exprs [operand]
  | .comparison _ first others => Part.exprs (first :: others)
  | .conditional _ test body orelse => Part.exprs [test, body, orelse]
  | .assignment _ target value => Part.exprs [target, value]
  | .yield _ value => Part.exprs value.toList
  | .yieldFrom _ source => Part.exprs [source]
  | .starred _ value => Part.exprs [value]

def Pattern.parts : Pattern → List Part
  | .value e => Part.exprs [e]
  | .capture inner name => Part.patterns inner.toList ++ Part.names name.toList
  | .star name => Part.names name.toList
  | .mapping entries rest =>
    (entries.flatMap fun e => [(none, .expr e.1), (none, .pattern e.2)]) ++ Part.names rest.toList
  | .classOf cls positional keyword => Part.exprs [cls] ++ Part.patterns (positional ++ keyword)
  | .sequence patterns | .alternatives patterns => Part.patterns patterns

/-- The parts of a statement, in the order of the text; of a try statement, the final block before the other one. -/
def Stmt.parts : Stmt → List Part
  | .functionDef _ node name params body decorators =>
    Part.names [name] ++ Part.ofParams node params ++ body.map (fun s => (some (.function node), .stmt s))
      ++ Part.exprs decorators
  | .classDef _ node name bases keywords body decorators =>
    Part.names [name] ++ Part.exprs (bases ++ keywords) ++ body.map (fun s => (some (.cls node), .stmt s))
      ++ Part.exprs decorators
  | .line parts => Part.block parts
  | .assign targets value => Part.exprs (targets ++ [value])
  | .declare target hint value => Part.exprs (target :: hint :: value.toList)
  | .augment target _ value => Part.exprs [target, value]
  | .typeAlias name value => Part.names [name] ++ Part.exprs [value]
  | .delete target => Part.exprs [target]
  | .importModules modules => modules.flatMap Part.ofAlias
  | .importNames _ source names => Part.names source ++ names.flatMap Part.ofAlias
  | .importAll _ source => Part.names source
  | .expr value => Part.exprs [value]
  | .giveBack value => Part.exprs value.toList
  | .raise exception cause => Part.exprs (exception.toList ++ cause.toList)
  | .assert test message => Part.exprs (test :: message.toList)
  | .global names | .nonlocal names => Part.names names
  | .pass | .leaveLoop | .nextRound => []
  | .branch test body orelse | .whileLoop test body orelse =>
    Part.exprs [test] ++ Part.block body ++ Part.block (orelse.getD [])
  | .forLoop target iterable body orelse =>
    Part.exprs [target, iterable] ++ Part.block body ++ Part.block (orelse.getD [])
  | .tryBlock body handlers orelse final =>
    Part.block body
      ++ (handlers.flatMap fun h => Part.exprs (h.caught.toList ++ h.target.toList) ++ Part.block h.body)
      ++ Part.block (final.getD []) ++ Part.block (orelse.getD [])
  | .withBlock contexts body => Part.exprs (contexts.flatMap fun c => c.value :: c.target.toList) ++ Part.block body
  | .matchBlock subject cases =>
    Part.exprs [subject]
      ++ cases.flatMap fun c => Part.patterns [c.pattern] ++ Part.exprs c.guard.toList ++ Part.block c.body
  | .unmodelled parts => Part.exprs parts

namespace Piece

def numbers : Piece → List Nat
  | .expr (.name i) => [i.node]
  | .expr (.comprehension _ node ..) | .expr (.dictComprehension _ node ..) | .expr (.lambda _ node ..) => [node]
  | .stmt (.functionDef _ node ..) | .stmt (.classDef _ node ..) => [node]
  | _ => []

def parts : Piece → List Part
  | .expr e => e.parts
  | .stmt s => s.parts
  | .pattern p => p.parts

/-- A piece of code that stands in a region, and everything in it, down to the given depth. -/
def below : Nat → Region → Piece → List (Region × Piece)
  | 0, region, p => [(region, p)]
  | depth + 1, region, p => (region, p) :: p.parts.flatMap fun x => below depth (x.1.getD region) x.2

end Piece

/-- All pieces of code in the statements of a file, with the regions that they stand in, in the order of the text. -/
def piecesOf (body : List Stmt) : List (Region × Piece) :=
  let depth := Stmt.sizeOfBlock body
  body.flatMap fun s => Piece.below depth .file (.stmt s)

def ascends : List Nat → Bool
  | a :: b :: rest => a < b && ascends (b :: rest)
  | _ => true

end Concordance.Syntax
