/-!
# Syntax trees

The parts of a Python program that the analysis looks at.
-/

namespace Concordance.Syntax

/-- The byte offsets at which a node starts and ends. -/
structure Span where
  start : Nat
  stop : Nat
deriving DecidableEq, Repr, Inhabited

/-- A name as it stands in a program. -/
structure Ident where
  node : Nat
  text : String
  span : Option Span
deriving DecidableEq, Repr, Inhabited

/-- The operators that compute a value from two. -/
inductive BinaryOp
  | add | subtract | multiply | divide | floorDivide | modulo | power | matrixMultiply
  | leftShift | rightShift | bitAnd | bitOr | bitXor
deriving DecidableEq, Repr, Inhabited

inductive UnaryOp
  | not | minus | plus | invert
deriving DecidableEq, Repr, Inhabited

inductive Arg (ε : Type)
  | positional (value : ε)
  | keyword (name : String) (value : ε)
  | items (value : ε)
  | entries (value : ε)

structure Element (ε : Type) where
  starred : Bool
  value : ε

inductive DictItem (ε : Type)
  | entry (key value : ε)
  | spread (value : ε)

inductive Index (ε : Type)
  | single (value : ε)
  | slice (lower upper step : Option ε)

/-- One `for … in … if …` clause of a comprehension. -/
structure Clause (ε : Type) where
  target : ε
  iterable : ε
  conditions : List ε

structure Param (ε : Type) where
  name : Ident
  hint : Option ε
  fallback : Option ε

structure Params (ε : Type) where
  positionalOnly : List (Param ε)
  ordinary : List (Param ε)
  /-- The parameter that takes the surplus of positional arguments. -/
  rest : Option (Param ε)
  keywordOnly : List (Param ε)
  /-- The parameter that takes the surplus of keyword arguments. -/
  keywordRest : Option (Param ε)

inductive Expr
  | name (ident : Ident)
  | attr (span : Option Span) (value : Expr) (name : Ident)
  | subscript (span : Option Span) (value : Expr) (index : List (Index Expr))
  | call (span : Option Span) (callee : Expr) (args : List (Arg Expr))
  | integer (span : Option Span) (text : String)
  | float (span : Option Span)
  | imaginary (span : Option Span)
  | string (span : Option Span) (bytes : Bool)
  | ellipsis (span : Option Span)
  | concatenated (span : Option Span) (left right : Expr)
  | formatted (span : Option Span) (parts : List Expr)
  | list (span : Option Span) (elements : List (Element Expr))
  | set (span : Option Span) (elements : List (Element Expr))
  | tuple (span : Option Span) (elements : List (Element Expr))
  | dict (span : Option Span) (items : List (DictItem Expr))
  | comprehension (span : Option Span) (node : Nat) (element : Expr) (clauses : List (Clause Expr))
  | dictComprehension (span : Option Span) (node : Nat) (key value : Expr) (clauses : List (Clause Expr))
  | lambda (span : Option Span) (node : Nat) (params : Params Expr) (body : Expr)
  | binary (span : Option Span) (op : BinaryOp) (left right : Expr)
  | boolean (span : Option Span) (left right : Expr)
  | unary (span : Option Span) (op : UnaryOp) (operand : Expr)
  | comparison (span : Option Span) (first : Expr) (others : List Expr)
  | conditional (span : Option Span) (test body orelse : Expr)
  /-- An assignment inside an expression, `target := value`. -/
  | assignment (span : Option Span) (target value : Expr)
  | yield (span : Option Span) (value : Option Expr)
  | yieldFrom (span : Option Span) (source : Expr)
  | await (span : Option Span) (operand : Expr)
  | starred (span : Option Span) (value : Expr)
  /-- An expression without a rule of its own: its parts are looked at, its value is unknown. -/
  | unmodelled (span : Option Span) (parts : List Expr)
deriving Inhabited

inductive Pattern
  | value (expr : Expr)
  /-- A capture of what an inner pattern matches; without both parts, the wildcard. -/
  | capture (inner : Option Pattern) (name : Option Ident)
  | star (name : Option Ident)
  /-- Keys with the patterns of their values, and a name for what is left. -/
  | mapping (entries : List (Expr × Pattern)) (rest : Option Ident)
  | classOf (cls : Expr) (positional keyword : List Pattern)
  | sequence (patterns : List Pattern)
  | alternatives (patterns : List Pattern)
deriving Inhabited

/-- What an import statement names: a dotted path, and the name to bind it to if another is given. -/
structure Alias where
  path : List Ident
  rename : Option Ident
deriving Inhabited

structure Context where
  value : Expr
  target : Option Expr

structure Handler (σ : Type) where
  caught : Option Expr
  target : Option Expr
  body : List σ

structure Case (σ : Type) where
  pattern : Pattern
  guard : Option Expr
  body : List σ

inductive Stmt
  | functionDef (span : Option Span) (node : Nat) (name : Ident) (params : Params Expr) (body : List Stmt)
      (decorators : List Expr)
  | classDef (span : Option Span) (node : Nat) (name : Ident) (bases keywords : List Expr) (body : List Stmt)
      (decorators : List Expr)
  | line (parts : List Stmt)
  | assign (targets : List Expr) (value : Expr)
  /-- An assignment (or declaration, without a value) with a declared type. -/
  | declare (target hint : Expr) (value : Option Expr)
  | augment (target : Expr) (op : BinaryOp) (value : Expr)
  | typeAlias (name : Ident) (value : Expr)
  | delete (target : Expr)
  | importModules (modules : List Alias)
  | importNames (level : Nat) (source : List Ident) (names : List Alias)
  | importAll (level : Nat) (source : List Ident)
  | expr (value : Expr)
  | giveBack (value : Option Expr)
  | raise (exception cause : Option Expr)
  | assert (test : Expr) (message : Option Expr)
  | global (names : List Ident)
  | nonlocal (names : List Ident)
  | pass
  | leaveLoop
  | nextRound
  | branch (test : Expr) (body : List Stmt) (orelse : Option (List Stmt))
  | whileLoop (test : Expr) (body : List Stmt) (orelse : Option (List Stmt))
  | forLoop (target iterable : Expr) (body : List Stmt) (orelse : Option (List Stmt))
  | tryBlock (body : List Stmt) (handlers : List (Handler Stmt)) (orelse final : Option (List Stmt))
  | withBlock (contexts : List Context) (body : List Stmt)
  | matchBlock (subject : Expr) (cases : List (Case Stmt))
  /-- A statement without a rule of its own: its parts are looked at. -/
  | unmodelled (parts : List Expr)
deriving Inhabited

/-- What a function does when it is applied. -/
inductive Body
  | block (statements : List Stmt)
  | value (expr : Expr)
deriving Inhabited

def Arg.value {ε : Type} : Arg ε → ε
  | .positional v | .keyword _ v | .items v | .entries v => v

namespace Expr

def span : Expr → Option Span
  | name i => i.span
  | attr s .. | subscript s .. | call s .. | integer s .. | float s | imaginary s | string s .. | ellipsis s
  | concatenated s .. | formatted s .. | list s .. | set s .. | tuple s .. | dict s .. | comprehension s ..
  | dictComprehension s .. | lambda s .. | binary s .. | boolean s .. | unary s .. | comparison s ..
  | conditional s .. | assignment s .. | yield s .. | yieldFrom s .. | await s .. | starred s ..
  | unmodelled s .. => s

def dotted : Expr → List Ident
  | name i => [i]
  | attr _ value i => match value.dotted with
    | [] => []
    | path => path ++ [i]
  | _ => []

def lastName : Expr → String
  | name i => i.text
  | attr _ _ i => i.text
  | call _ callee _ => callee.lastName
  | _ => ""

mutual

/-- The targets that a pattern of tuples, lists and stars is made of, left to right. -/
def leaves : Expr → List Expr
  | list _ elements => leavesOf elements
  | tuple _ elements => leavesOf elements
  | starred _ value => value.leaves
  | e => [e]
termination_by structural e => e

def leavesOf : List (Element Expr) → List Expr
  | [] => []
  | ⟨_, e⟩ :: rest => e.leaves ++ leavesOf rest
termination_by structural es => es

end

end Expr

end Concordance.Syntax
