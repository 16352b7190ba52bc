import Concordance.Document
import Concordance.Syntax.Module

/-!
# Reading syntax trees

A parser hands its trees over as documents: every node is a table with its kind under `t`, its span under `p` if it has
one, and its parts under their names.
-/

namespace Concordance.Syntax.Reading

/-- Reading with a counter for node numbers; a document that is no tree is refused. -/
abbrev Reader := StateT Nat Option

def fresh : Reader Nat := modifyGet fun n => (n, n + 1)

def kind (d : Document) : String := ((d.field? "t").bind Document.text?).getD ""

def span (d : Document) : Option Span :=
  match (d.field? "p").map Document.items with
  | some [a, b] => match a.int?, b.int? with
    | some a, some b => some ⟨a.toNat, b.toNat⟩
    | _, _ => none
  | _ => none

def part (d : Document) (name : String) : Reader Document :=
  match d.field? name with
  | some p => pure p
  | none => failure

/-- The nodes of a part that is a row of nodes; an absent part is an empty row. -/
def parts (d : Document) (name : String) : List Document := ((d.field? name).map Document.items).getD []

def textOf (d : Document) (name : String) : String := ((d.field? name).bind Document.text?).getD ""

def optional {α : Type} (read : Document → Reader α) (d : Document) (name : String) : Reader (Option α) :=
  match d.field? name with
  | some p => some <$> read p
  | none => pure none

def ident (d : Document) : Reader Ident := do
  if kind d != "Name" then failure
  return ⟨← fresh, textOf d "value", span d⟩

def binaryOp (d : Document) : Option BinaryOp :=
  match kind d with
  | "Add" | "AddAssign" => some .add
  | "Subtract" | "SubtractAssign" => some .subtract
  | "Multiply" | "MultiplyAssign" => some .multiply
  | "Divide" | "DivideAssign" => some .divide
  | "FloorDivide" | "FloorDivideAssign" => some .floorDivide
  | "Modulo" | "ModuloAssign" => some .modulo
  | "Power" | "PowerAssign" => some .power
  | "MatrixMultiply" | "MatrixMultiplyAssign" => some .matrixMultiply
  | "LeftShift" | "LeftShiftAssign" => some .leftShift
  | "RightShift" | "RightShiftAssign" => some .rightShift
  | "BitAnd" | "BitAndAssign" => some .bitAnd
  | "BitOr" | "BitOrAssign" => some .bitOr
  | "BitXor" | "BitXorAssign" => some .bitXor
  | _ => none

def unaryOp (d : Document) : Option UnaryOp :=
  match kind d with
  | "Not" => some .not
  | "Minus" => some .minus
  | "Plus" => some .plus
  | "BitInvert" => some .invert
  | _ => none

section Parts

variable (expr : Document → Reader Expr)

def element (d : Document) : Reader (Element Expr) :=
  match kind d with
  | "Element" => return ⟨false, ← expr (← part d "value")⟩
  | "StarredElement" => return ⟨true, ← expr (← part d "value")⟩
  | _ => failure

def dictItem (d : Document) : Reader (DictItem Expr) :=
  match kind d with
  | "DictElement" => return .entry (← expr (← part d "key")) (← expr (← part d "value"))
  | "StarredDictElement" => return .spread (← expr (← part d "value"))
  | _ => failure

def index (d : Document) : Reader (Index Expr) := do
  let d ← part d "slice"
  match kind d with
  | "Index" => return .single (← expr (← part d "value"))
  | "Slice" => return .slice (← optional expr d "lower") (← optional expr d "upper") (← optional expr d "step")
  | _ => failure

def arg (d : Document) : Reader (Arg Expr) := do
  let value ← expr (← part d "value")
  match textOf d "star", d.field? "keyword" with
  | "*", _ => return .items value
  | "**", _ => return .entries value
  | _, some k => return .keyword (textOf k "value") value
  | _, none => return .positional value

/-- The clauses of a comprehension, outermost first; `fuel` bounds their number. -/
def clauses : Nat → Document → Reader (List (Clause Expr))
  | 0, _ => failure
  | fuel + 1, d => do
    let target ← expr (← part d "target")
    let iterable ← expr (← part d "iter")
    let conditions ← (parts d "ifs").mapM fun c => do expr (← part c "test")
    let inner ← optional (clauses fuel) d "inner_for_in"
    return ⟨target, iterable, conditions⟩ :: inner.getD []

def hint (d : Document) : Reader Expr := do expr (← part d "annotation")

def param (d : Document) : Reader (Param Expr) := do
  return ⟨← ident (← part d "name"), ← optional (hint expr) d "annotation", ← optional expr d "default"⟩

def paramOrMarker (d : Document) (name : String) : Reader (Option (Param Expr)) :=
  match d.field? name with
  | some p => if kind p = "Param" then some <$> param expr p else pure none
  | none => pure none

def params (d : Document) : Reader (Params Expr) := do
  return ⟨← (parts d "posonly_params").mapM (param expr), ← (parts d "params").mapM (param expr),
    ← paramOrMarker expr d "star_arg", ← (parts d "kwonly_params").mapM (param expr),
    ← paramOrMarker expr d "star_kwarg"⟩

end Parts

def isBytes (letters : String) : Bool := letters.toList.any fun c => c == 'b' || c == 'B'

def exprOf : Nat → Document → Reader Expr
  | 0, _ => failure
  | fuel + 1, d => do
    let here := span d
    let expr := exprOf fuel
    let one (name : String) : Reader Expr := do expr (← part d name)
    match kind d with
    | "Name" => .name <$> ident d
    | "Attribute" => return .attr here (← one "value") (← ident (← part d "attr"))
    | "Subscript" => return .subscript here (← one "value") (← (parts d "slice").mapM (index expr))
    | "Call" => return .call here (← one "func") (← (parts d "args").mapM (arg expr))
    | "Integer" => return .integer here (textOf d "value")
    | "Float" => return .float here
    | "Imaginary" => return .imaginary here
    | "SimpleString" => return .string here (isBytes (textOf d "prefix"))
    | "Ellipsis" => return .ellipsis here
    | "ConcatenatedString" => return .concatenated here (← one "left") (← one "right")
    | "FormattedString" =>
      let shown := (parts d "parts").filter fun p => kind p == "FormattedStringExpression"
      return .formatted here (← shown.mapM fun p => do expr (← part p "expression"))
    | "List" => return .list here (← (parts d "elements").mapM (element expr))
    | "Set" => return .set here (← (parts d "elements").mapM (element expr))
    | "Tuple" => return .tuple here (← (parts d "elements").mapM (element expr))
    | "Dict" => return .dict here (← (parts d "elements").mapM (dictItem expr))
    | "ListComp" | "SetComp" | "GeneratorExp" =>
      return .comprehension here (← fresh) (← one "elt") (← clauses expr fuel (← part d "for_in"))
    | "DictComp" =>
      return .dictComprehension here (← fresh) (← one "key") (← one "value")
        (← clauses expr fuel (← part d "for_in"))
    | "Lambda" => return .lambda here (← fresh) (← params expr (← part d "params")) (← one "body")
    | "BinaryOperation" =>
      match binaryOp (← part d "operator") with
      | some op => return .binary here op (← one "left") (← one "right")
      | none => failure
    | "BooleanOperation" => return .boolean here (← one "left") (← one "right")
    | "UnaryOperation" =>
      match unaryOp (← part d "operator") with
      | some op => return .unary here op (← one "expression")
      | none => failure
    | "Comparison" =>
      return .comparison here (← one "left")
        (← (parts d "comparisons").mapM fun c => do expr (← part c "comparator"))
    | "IfExp" => return .conditional here (← one "test") (← one "body") (← one "orelse")
    | "NamedExpr" => return .assignment here (← one "target") (← one "value")
    | "Yield" =>
      match d.field? "value" with
      | none => return .yield here none
      | some v =>
        if kind v = "From" then return .yieldFrom here (← expr (← part v "item"))
        else return .yield here (some (← expr v))
    | "Await" => return .await here (← one "expression")
    | "StarredElement" => return .starred here (← one "value")
    | "StarredDictComp" => return .unmodelled here [← one "value"]
    | "TemplatedString" => return .unmodelled here []
    | _ => failure

def expr (d : Document) : Reader Expr := exprOf (d.depth + 1) d

def dotted (d : Document) : Reader (List Ident) := Expr.dotted <$> expr d

def importAlias (d : Document) : Reader Alias := do
  let path ← dotted (← part d "name")
  let rename ← match d.field? "asname" with
    | some a => some <$> do ident (← part a "name")
    | none => pure none
  return ⟨path, rename⟩

def patternOf : Nat → Document → Reader Pattern
  | 0, _ => failure
  | fuel + 1, d => do
    let pattern := patternOf fuel
    match kind d with
    | "MatchAs" => return .capture (← optional pattern d "pattern") (← optional ident d "name")
    | "MatchStar" => return .star (← optional ident d "name")
    | "MatchValue" | "MatchSingleton" => return .value (← expr (← part d "value"))
    | "MatchMapping" =>
      let entries ← (parts d "elements").mapM fun e => do
        return (← expr (← part e "key"), ← pattern (← part e "pattern"))
      return .mapping entries (← optional ident d "rest")
    | "MatchClass" =>
      return .classOf (← expr (← part d "cls"))
        (← (parts d "patterns").mapM fun e => do pattern (← part e "value"))
        (← (parts d "kwds").mapM fun e => do pattern (← part e "pattern"))
    | "MatchList" | "MatchTuple" =>
      return .sequence (← (parts d "patterns").mapM fun e => do
        if kind e = "MatchSequenceElement" then pattern (← part e "value") else pattern e)
    | "MatchOr" => return .alternatives (← (parts d "patterns").mapM fun e => do pattern (← part e "pattern"))
    | _ => failure

def pattern (d : Document) : Reader Pattern := patternOf (d.depth + 1) d

def decorators (d : Document) : Reader (List Expr) :=
  (parts d "decorators").mapM fun e => do expr (← part e "decorator")

def asTarget (d : Document) : Reader Expr := do expr (← part d "name")

def argValues (d : Document) (name : String) : Reader (List Expr) :=
  (parts d name).mapM fun e => do expr (← part e "value")

def stmtOf : Nat → Document → Reader Stmt
  | 0, _ => failure
  | fuel + 1, d => do
    let here := span d
    let stmts (name : String) (d : Document) : Reader (List Stmt) := (parts d name).mapM (stmtOf fuel)
    let block (name : String) : Reader (List Stmt) := do stmts "body" (← part d name)
    -- What follows `else` is a block; a chained `elif` is a block of one statement.
    let orelse : Reader (Option (List Stmt)) := match d.field? "orelse" with
      | none => pure none
      | some e => some <$> do
        if kind e = "Else" then stmts "body" (← part e "body") else return [← stmtOf fuel e]
    let one (name : String) : Reader Expr := do expr (← part d name)
    match kind d with
    | "FunctionDef" =>
      return .functionDef here (← fresh) (← ident (← part d "name")) (← params expr (← part d "params"))
        (← block "body") (← decorators d)
    | "ClassDef" =>
      return .classDef here (← fresh) (← ident (← part d "name")) (← argValues d "bases")
        (← argValues d "keywords") (← block "body") (← decorators d)
    | "SimpleStatementLine" => return .line (← stmts "body" d)
    | "Assign" =>
      return .assign (← (parts d "targets").mapM fun t => do expr (← part t "target")) (← one "value")
    | "AnnAssign" =>
      return .declare (← one "target") (← hint expr (← part d "annotation")) (← optional expr d "value")
    | "AugAssign" =>
      match binaryOp (← part d "operator") with
      | some op => return .augment (← one "target") op (← one "value")
      | none => failure
    | "TypeAlias" => return .typeAlias (← ident (← part d "name")) (← one "value")
    | "Del" => return .delete (← one "target")
    | "Import" => return .importModules (← (parts d "names").mapM importAlias)
    | "ImportFrom" =>
      let level := (((d.field? "relative").bind Document.int?).getD 0).toNat
      let source := (← optional dotted d "module").getD []
      let names ← part d "names"
      if kind names = "ImportStar" then return .importAll level source
      else return .importNames level source (← names.items.mapM importAlias)
    | "Expr" => return .expr (← one "value")
    | "Return" => return .giveBack (← optional expr d "value")
    | "Raise" =>
      let exception ← optional expr d "exc"
      let cause ← optional (fun c => do expr (← part c "item")) d "cause"
      return .raise exception cause
    | "Assert" => return .assert (← one "test") (← optional expr d "msg")
    | "Global" => return .global (← (parts d "names").mapM fun n => do ident (← part n "name"))
    | "Nonlocal" => return .nonlocal (← (parts d "names").mapM fun n => do ident (← part n "name"))
    | "Pass" => return .pass
    | "Break" => return .leaveLoop
    | "Continue" => return .nextRound
    | "If" => return .branch (← one "test") (← block "body") (← orelse)
    | "While" => return .whileLoop (← one "test") (← block "body") (← orelse)
    | "For" => return .forLoop (← one "target") (← one "iter") (← block "body") (← orelse)
    | "Try" | "TryStar" =>
      let body ← block "body"
      let handlers ← (parts d "handlers").mapM fun h => do
        return ⟨← optional expr h "type", ← optional asTarget h "name", ← stmts "body" (← part h "body")⟩
      let final ← match d.field? "finalbody" with
        | none => pure none
        | some f => some <$> do stmts "body" (← part f "body")
      return .tryBlock body handlers (← orelse) final
    | "With" =>
      let contexts ← (parts d "items").mapM fun i => do
        return ⟨← expr (← part i "item"), ← optional asTarget i "asname"⟩
      return .withBlock contexts (← block "body")
    | "Match" =>
      let subject ← one "subject"
      let cases ← (parts d "cases").mapM fun c => do
        return ⟨← pattern (← part c "pattern"), ← optional expr c "guard", ← stmts "body" (← part c "body")⟩
      return .matchBlock subject cases
    | "LazyImport" => return .unmodelled []
    | "LazyImportFrom" => return .unmodelled (← optional expr d "module").toList
    | _ => failure

/-- The tree with the given statements; nodes that share a number are refused. -/
def ofBody (span : Option Span) (body : List Stmt) : Option Module :=
  if h : (definitionNodes.block body).Nodup ∧ ascends ((piecesOf body).flatMap fun x => x.2.numbers) = true then
    some ⟨span, body, h.1, h.2⟩
  else none

def module (d : Document) : Option Module :=
  if kind d = "Module" then
    (((parts d "body").mapM (stmtOf (d.depth + 1))).run' 0).bind (ofBody (span d))
  else none

def expression (d : Document) : Option Expr := (expr d).run' 0

end Concordance.Syntax.Reading
