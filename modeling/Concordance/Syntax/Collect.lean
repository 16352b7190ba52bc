import Concordance.Syntax.Basic

/-!
# Collecting from syntax trees

A walk over the names that a piece of code uses and the definitions in it. What is noted of each of them is up to a
collector, which also decides whether the bodies of definitions count.
-/

namespace Concordance.Syntax

/-- What to note of a piece of code. -/
structure Collector (β : Type) where
  use : Ident → List β
  /-- What to note of a function, given what was noted of its parameters and of its body. -/
  function : (node : Nat) → (params : Params Expr) → (body : Body) → (ofParams ofBody : List β) → List β
  /-- What to note of a class, given what was noted of its body. -/
  cls : (node : Nat) → (body : List Stmt) → (ofBody : List β) → List β

namespace Collector

variable {β : Type} (c : Collector β)

mutual

def expr : Expr → List β
  | .name i => c.use i
  | .integer .. | .float _ | .imaginary _ | .string .. | .ellipsis _ => []
  | .attr _ value _ => expr value
  | .subscript _ value index => expr value ++ indexes index
  | .call _ callee args => expr callee ++ arguments args
  | .concatenated _ left right => expr left ++ expr right
  | .formatted _ parts => exprs parts
  | .list _ es => elements es
  | .set _ es => elements es
  | .tuple _ es => elements es
  | .dict _ items => dictItems items
  | .comprehension _ _ element cs => clauses cs ++ expr element
  | .dictComprehension _ _ key value cs => clauses cs ++ (expr key ++ expr value)
  | .lambda _ node ps body => c.function node ps (.value body) (params ps) (expr body)
  | .binary _ _ left right => expr left ++ expr right
  | .boolean _ left right => expr left ++ expr right
  | .unary _ _ operand => expr operand
  | .comparison _ first others => expr first ++ exprs others
  | .conditional _ test body orelse => expr test ++ (expr body ++ expr orelse)
  | .assignment _ goal value => expr value ++ target goal
  | .yield _ value => exprOption value
  | .yieldFrom _ source => expr source
  | .await _ operand => expr operand
  | .starred _ value => expr value
  | .unmodelled _ parts => exprs parts
termination_by structural e => e

/-- What is noted of an expression that is bound to a value. One that cannot be bound is not looked at. -/
def target : Expr → List β
  | .attr _ object _ => expr object
  | .subscript _ object index => expr object ++ indexes index
  | .list _ es => targets es
  | .tuple _ es => targets es
  | .starred _ inner => target inner
  | _ => []
termination_by structural e => e

def targets : List (Element Expr) → List β
  | [] => []
  | ⟨_, e⟩ :: rest => target e ++ targets rest
termination_by structural es => es

def exprOption : Option Expr → List β
  | none => []
  | some e => expr e
termination_by structural e => e

def exprs : List Expr → List β
  | [] => []
  | e :: rest => expr e ++ exprs rest
termination_by structural es => es

def elements : List (Element Expr) → List β
  | [] => []
  | ⟨_, e⟩ :: rest => expr e ++ elements rest
termination_by structural es => es

def dictItems : List (DictItem Expr) → List β
  | [] => []
  | .entry key value :: rest => expr key ++ (expr value ++ dictItems rest)
  | .spread value :: rest => expr value ++ dictItems rest
termination_by structural es => es

def arguments : List (Arg Expr) → List β
  | [] => []
  | .positional e :: rest => expr e ++ arguments rest
  | .keyword _ e :: rest => expr e ++ arguments rest
  | .items e :: rest => expr e ++ arguments rest
  | .entries e :: rest => expr e ++ arguments rest
termination_by structural es => es

def indexes : List (Index Expr) → List β
  | [] => []
  | .single e :: rest => expr e ++ indexes rest
  | .slice lower upper step :: rest => exprOption lower ++ (exprOption upper ++ (exprOption step ++ indexes rest))
termination_by structural es => es

def clauses : List (Clause Expr) → List β
  | [] => []
  | ⟨goal, iterable, conditions⟩ :: rest => expr iterable ++ (target goal ++ (exprs conditions ++ clauses rest))
termination_by structural es => es

def param : Param Expr → List β
  | ⟨_, hint, fallback⟩ => exprOption hint ++ exprOption fallback
termination_by structural p => p

/-- What is noted of a parameter for surplus arguments: it has a declared type but no default. -/
def paramOption : Option (Param Expr) → List β
  | none => []
  | some ⟨_, hint, _⟩ => exprOption hint
termination_by structural p => p

def paramList : List (Param Expr) → List β
  | [] => []
  | p :: rest => param p ++ paramList rest
termination_by structural ps => ps

/-- What is noted of the parameters of a function: of their declared types and their defaults. -/
def params : Params Expr → List β
  | ⟨positionalOnly, ordinary, surplus, keywordOnly, keywordSurplus⟩ =>
    paramList positionalOnly ++ (paramList ordinary ++ (paramList keywordOnly
      ++ (paramOption surplus ++ paramOption keywordSurplus)))
termination_by structural ps => ps

end

mutual

def pattern : Pattern → List β
  | .value e => c.expr e
  | .capture inner _ => patternOption inner
  | .star _ => []
  | .mapping es _ => entries es
  | .classOf cls positional keyword => c.expr cls ++ (patterns positional ++ patterns keyword)
  | .sequence ps => patterns ps
  | .alternatives ps => patterns ps
termination_by structural p => p

def patternOption : Option Pattern → List β
  | none => []
  | some p => pattern p
termination_by structural p => p

def entries : List (Expr × Pattern) → List β
  | [] => []
  | (key, p) :: rest => c.expr key ++ (pattern p ++ entries rest)
termination_by structural es => es

def patterns : List Pattern → List β
  | [] => []
  | p :: rest => pattern p ++ patterns rest
termination_by structural ps => ps

end

def context (x : Context) : List β :=
  c.expr x.value ++ match x.target with
    | none => []
    | some e => c.target e

mutual

def stmt : Stmt → List β
  | .functionDef _ node _ ps body decorators =>
    c.exprs decorators ++ c.function node ps (.block body) (c.params ps) (block body)
  | .classDef _ node _ bases keywords body decorators =>
    c.exprs decorators ++ (c.exprs bases ++ (c.exprs keywords ++ c.cls node body (block body)))
  | .line parts => block parts
  | .assign goals value => c.expr value ++ goals.flatMap c.target
  | .declare goal hint value => c.expr hint ++ (c.exprOption value ++ c.target goal)
  -- The target of an augmented assignment is evaluated before it is bound.
  | .augment goal _ value => c.expr goal ++ c.expr value
  | .typeAlias _ value => c.expr value
  | .delete target => c.expr target
  | .importModules _ | .importNames .. | .importAll .. | .global _ | .nonlocal _ => []
  | .pass | .leaveLoop | .nextRound => []
  | .expr value => c.expr value
  | .giveBack value => c.exprOption value
  | .raise exception cause => c.exprOption exception ++ c.exprOption cause
  | .assert test message => c.expr test ++ c.exprOption message
  | .branch test body orelse => c.expr test ++ (block body ++ blockOption orelse)
  | .whileLoop test body orelse => c.expr test ++ (block body ++ blockOption orelse)
  | .forLoop goal iterable body orelse =>
    c.expr iterable ++ (c.target goal ++ (block body ++ blockOption orelse))
  | .tryBlock body hs orelse final => block body ++ (handlers hs ++ (blockOption orelse ++ blockOption final))
  | .withBlock contexts body => contexts.flatMap c.context ++ block body
  | .matchBlock subject cs => c.expr subject ++ cases cs
  | .unmodelled parts => c.exprs parts
termination_by structural s => s

def block : List Stmt → List β
  | [] => []
  | s :: rest => stmt s ++ block rest
termination_by structural b => b

def blockOption : Option (List Stmt) → List β
  | none => []
  | some b => block b
termination_by structural b => b

def handlers : List (Handler Stmt) → List β
  | [] => []
  | ⟨caught, goal, body⟩ :: rest =>
    c.exprOption caught ++ ((match goal with
      | none => []
      | some e => c.target e) ++ (block body ++ handlers rest))
termination_by structural hs => hs

def cases : List (Case Stmt) → List β
  | [] => []
  | ⟨p, guard, body⟩ :: rest => c.pattern p ++ (c.exprOption guard ++ (block body ++ cases rest))
termination_by structural cs => cs

end

def body : Body → List β
  | .block statements => c.block statements
  | .value e => c.expr e

end Collector

/-- Collects the numbers of the functions and classes defined anywhere in a piece of code. -/
def definitionNodes : Collector Nat where
  use _ := []
  function node _ _ ofParams ofBody := node :: (ofParams ++ ofBody)
  cls node _ ofBody := node :: ofBody

end Concordance.Syntax
