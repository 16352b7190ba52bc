import Concordance.Syntax.Basic

/-!
# Sizes of syntax trees

The number of expressions, patterns and statements in a tree. Whoever walks down a tree takes at most as many
steps as its size says.
-/

namespace Concordance.Syntax

namespace Expr

mutual

def size : Expr → Nat
  | name _ | integer .. | float _ | imaginary _ | string .. | ellipsis _ => 1
  | attr _ value _ => value.size + 1
  | subscript _ value index => value.size + sizeOfIndex index + 1
  | call _ callee args => callee.size + sizeOfArgs args + 1
  | concatenated _ left right => left.size + right.size + 1
  | formatted _ parts => sizeOfList parts + 1
  | list _ elements => sizeOfElements elements + 1
  | set _ elements => sizeOfElements elements + 1
  | tuple _ elements => sizeOfElements elements + 1
  | dict _ items => sizeOfItems items + 1
  | comprehension _ _ element clauses => element.size + sizeOfClauses clauses + 1
  | dictComprehension _ _ key value clauses => key.size + value.size + sizeOfClauses clauses + 1
  | lambda _ _ params body => sizeOfParams params + body.size + 1
  | binary _ _ left right => left.size + right.size + 1
  | boolean _ left right => left.size + right.size + 1
  | unary _ _ operand => operand.size + 1
  | comparison _ first others => first.size + sizeOfList others + 1
  | conditional _ test body orelse => test.size + body.size + orelse.size + 1
  | assignment _ target value => target.size + value.size + 1
  | yield _ value => sizeOfOption value + 1
  | yieldFrom _ source => source.size + 1
  | await _ operand => operand.size + 1
  | starred _ value => value.size + 1
  | unmodelled _ parts => sizeOfList parts + 1
termination_by structural e => e

def sizeOfOption : Option Expr → Nat
  | none => 0
  | some e => e.size
termination_by structural e => e

def sizeOfList : List Expr → Nat
  | [] => 0
  | e :: rest => e.size + sizeOfList rest
termination_by structural es => es

def sizeOfElements : List (Element Expr) → Nat
  | [] => 0
  | ⟨_, e⟩ :: rest => e.size + sizeOfElements rest
termination_by structural es => es

def sizeOfItems : List (DictItem Expr) → Nat
  | [] => 0
  | .entry key value :: rest => key.size + value.size + sizeOfItems rest
  | .spread value :: rest => value.size + sizeOfItems rest
termination_by structural es => es

def sizeOfArgs : List (Arg Expr) → Nat
  | [] => 0
  | .positional e :: rest => e.size + sizeOfArgs rest
  | .keyword _ e :: rest => e.size + sizeOfArgs rest
  | .items e :: rest => e.size + sizeOfArgs rest
  | .entries e :: rest => e.size + sizeOfArgs rest
termination_by structural es => es

def sizeOfIndex : List (Index Expr) → Nat
  | [] => 0
  | .single e :: rest => e.size + sizeOfIndex rest
  | .slice lower upper step :: rest =>
    sizeOfOption lower + sizeOfOption upper + sizeOfOption step + sizeOfIndex rest
termination_by structural es => es

def sizeOfClauses : List (Clause Expr) → Nat
  | [] => 0
  | ⟨target, iterable, conditions⟩ :: rest =>
    target.size + iterable.size + sizeOfList conditions + sizeOfClauses rest
termination_by structural es => es

def sizeOfParam : Param Expr → Nat
  | ⟨_, hint, fallback⟩ => sizeOfOption hint + sizeOfOption fallback
termination_by structural p => p

def sizeOfParamOption : Option (Param Expr) → Nat
  | none => 0
  | some p => sizeOfParam p
termination_by structural p => p

def sizeOfParamList : List (Param Expr) → Nat
  | [] => 0
  | p :: rest => sizeOfParam p + sizeOfParamList rest
termination_by structural ps => ps

def sizeOfParams : Params Expr → Nat
  | ⟨positionalOnly, ordinary, surplus, keywordOnly, keywordSurplus⟩ =>
    sizeOfParamList positionalOnly + sizeOfParamList ordinary + sizeOfParamOption surplus
      + sizeOfParamList keywordOnly + sizeOfParamOption keywordSurplus
termination_by structural ps => ps

end

end Expr

namespace Pattern

mutual

def size : Pattern → Nat
  | value e => e.size + 1
  | capture inner _ => sizeOfOption inner + 1
  | star _ => 1
  | mapping entries _ => sizeOfEntries entries + 1
  | classOf cls positional keyword => cls.size + sizeOfList positional + sizeOfList keyword + 1
  | sequence patterns => sizeOfList patterns + 1
  | alternatives patterns => sizeOfList patterns + 1
termination_by structural p => p

def sizeOfOption : Option Pattern → Nat
  | none => 0
  | some p => p.size
termination_by structural p => p

def sizeOfEntries : List (Expr × Pattern) → Nat
  | [] => 0
  | (key, p) :: rest => key.size + p.size + sizeOfEntries rest
termination_by structural es => es

def sizeOfList : List Pattern → Nat
  | [] => 0
  | p :: rest => p.size + sizeOfList rest
termination_by structural ps => ps

end

end Pattern

namespace Stmt

def sizeOfContexts : List Context → Nat
  | [] => 0
  | c :: rest => c.value.size + Expr.sizeOfOption c.target + sizeOfContexts rest

mutual

def size : Stmt → Nat
  | functionDef _ _ _ params body decorators =>
    Expr.sizeOfParams params + sizeOfBlock body + Expr.sizeOfList decorators + 1
  | classDef _ _ _ bases keywords body decorators =>
    Expr.sizeOfList bases + Expr.sizeOfList keywords + sizeOfBlock body + Expr.sizeOfList decorators + 1
  | line parts => sizeOfBlock parts + 1
  | assign targets value => Expr.sizeOfList targets + value.size + 1
  | declare target hint value => target.size + hint.size + Expr.sizeOfOption value + 1
  | augment target _ value => target.size + value.size + 1
  | typeAlias _ value => value.size + 2
  | delete target => target.size + 1
  | importModules _ | importNames .. | importAll .. | global _ | nonlocal _ => 1
  | pass | leaveLoop | nextRound => 1
  | expr value => value.size + 1
  | giveBack value => Expr.sizeOfOption value + 1
  | raise exception cause => Expr.sizeOfOption exception + Expr.sizeOfOption cause + 1
  | assert test message => test.size + Expr.sizeOfOption message + 1
  | branch test body orelse => test.size + sizeOfBlock body + sizeOfBlockOption orelse + 1
  | whileLoop test body orelse => test.size + sizeOfBlock body + sizeOfBlockOption orelse + 1
  | forLoop target iterable body orelse =>
    target.size + iterable.size + sizeOfBlock body + sizeOfBlockOption orelse + 1
  | tryBlock body handlers orelse final =>
    sizeOfBlock body + sizeOfHandlers handlers + sizeOfBlockOption orelse + sizeOfBlockOption final + 1
  | withBlock contexts body => sizeOfContexts contexts + sizeOfBlock body + 1
  | matchBlock subject cases => subject.size + sizeOfCases cases + 1
  | unmodelled parts => Expr.sizeOfList parts + 1
termination_by structural s => s

def sizeOfBlock : List Stmt → Nat
  | [] => 0
  | s :: rest => s.size + sizeOfBlock rest
termination_by structural b => b

def sizeOfBlockOption : Option (List Stmt) → Nat
  | none => 0
  | some b => sizeOfBlock b
termination_by structural b => b

def sizeOfHandlers : List (Handler Stmt) → Nat
  | [] => 0
  | ⟨caught, target, body⟩ :: rest =>
    Expr.sizeOfOption caught + Expr.sizeOfOption target + sizeOfBlock body + sizeOfHandlers rest
termination_by structural hs => hs

def sizeOfCases : List (Case Stmt) → Nat
  | [] => 0
  | ⟨pattern, guard, body⟩ :: rest =>
    pattern.size + Expr.sizeOfOption guard + sizeOfBlock body + sizeOfCases rest
termination_by structural cs => cs

end

end Stmt

def Body.size : Body → Nat
  | .block statements => Stmt.sizeOfBlock statements
  | .value e => e.size

end Concordance.Syntax
