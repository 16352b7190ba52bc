/-!
# Faults

What can end a step of an analysis before it is done. A fault leaves the session as it is at that moment,
apart from the stacks, which are always put back.
-/

namespace Concordance

inductive Resource
  | memory
  | nesting
deriving DecidableEq, Repr, Inhabited

/-- The part of the work in which a resource is made to run out. -/
inductive Stage
  | parsing
  | resolving
deriving DecidableEq, Repr, Inhabited

/-- A resource made to run out on purpose at every visit of a stage. -/
structure Injection where
  stage : Stage
  resource : Resource
deriving DecidableEq, Repr, Inhabited

/-- Why a step ended early. -/
inductive Fault
  /-- The parser refused a tree that it had built itself. -/
  | invalidTree
  | exhausted (resource : Resource)
  /-- A configured search path is no directory that can be read. -/
  | unreadableSearchPath (path : String)
  /-- A path holds a null character, which no file name has. -/
  | nullCharacter
  /-- A path, or a name in it, is longer than the file system takes. -/
  | nameTooLong
  /-- A text that is to be shown closes a style that is not open. -/
  | badMarkup
  /-- There is nothing at the place that was asked for. -/
  | badIndex
  /-- A statement that is asked for has no value, or its file no tree. -/
  | noValue
  /-- A statement that is asked for stands on no line of its own. -/
  | notOnLine
  /-- The bound on the number of nested evaluations was too small. -/
  | outOfFuel
deriving DecidableEq, Repr, Inhabited

namespace Fault

def message : Fault → String
  | invalidTree => "the parser refused its own tree"
  | exhausted .memory => "out of memory"
  | exhausted .nesting => "nested too deeply"
  | unreadableSearchPath path => "search path is not a readable directory: " ++ path
  | nullCharacter => "embedded null byte"
  | nameTooLong => "file name too long"
  | badMarkup => "a closing tag matches no open tag"
  | badIndex => "index out of range"
  | noValue => "the statement has no value"
  | notOnLine => "the statement is no line of simple statements"
  | outOfFuel => "evaluation bound reached"

end Fault

end Concordance
