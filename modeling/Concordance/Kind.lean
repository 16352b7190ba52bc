/-!
# Tags

The closed sets of tags that bindings, scopes, references and diagnostics carry, each with the one
word it is shown by.
-/

namespace Concordance

/-- What a binding stands for at the place that introduced it. -/
inductive BindingKind
  /-- A name set through `.` on an object, class or module. -/
  | attrName
  | className
  | constructor
  | function
  | method
  | module
  | parameter
  /-- A loop or comprehension variable, or a segment of a library module's name. -/
  | scope
  | variableName
deriving DecidableEq, Repr, Inhabited

namespace BindingKind

def text : BindingKind → String
  | attrName => "attribute"
  | className => "class"
  | constructor => "constructor"
  | function => "function"
  | method => "method"
  | module => "module"
  | parameter => "parameter"
  | scope => "scope"
  | variableName => "variable"

def all : List BindingKind :=
  [attrName, className, constructor, function, method, module, parameter, scope, variableName]

def ofText? (s : String) : Option BindingKind :=
  all.find? fun k => k.text == s

end BindingKind

/-- What kind of environment a scope is. -/
inductive ScopeKind
  | global
  | module
  | function
  | classBody
  | object
deriving DecidableEq, Repr, Inhabited

namespace ScopeKind

def text : ScopeKind → String
  | global => "global"
  | module => "module"
  | function => "function"
  | classBody => "class"
  | object => "instance"

def all : List ScopeKind := [global, module, function, classBody, object]

def ofText? (s : String) : Option ScopeKind :=
  all.find? fun k => k.text == s

end ScopeKind

/-- How a name is used: plainly, as the callee of a call, or as the class of a construction. -/
inductive RefKind
  | ref
  | call
  | new
deriving DecidableEq, Repr, Inhabited

namespace RefKind

def text : RefKind → String
  | ref => "ref"
  | call => "call"
  | new => "new"

def all : List RefKind := [ref, call, new]

def ofText? (s : String) : Option RefKind :=
  all.find? fun k => k.text == s

end RefKind

/-- How serious a diagnostic is. -/
inductive Severity
  | info
  | warning
  | error
deriving DecidableEq, Repr, Inhabited

namespace Severity

def text : Severity → String
  | info => "info"
  | warning => "warning"
  | error => "error"

def all : List Severity := [info, warning, error]

def ofText? (s : String) : Option Severity :=
  all.find? fun k => k.text == s

end Severity

/-- The category of a diagnostic. -/
inductive ProblemKind
  | parseError
  | unboundVariable
  | tooManyValues
  | notEnoughValues
  | unpackNonIterable
  | invalidTarget
  | wrongSubscript
  | notSliceable
  | notIterable
  | unusedVariable
deriving DecidableEq, Repr, Inhabited

namespace ProblemKind

def text : ProblemKind → String
  | parseError => "parse_error"
  | unboundVariable => "unbound_variable"
  | tooManyValues => "too_many_values"
  | notEnoughValues => "not_enough_values"
  | unpackNonIterable => "unpack_non_iterable"
  | invalidTarget => "invalid_target"
  | wrongSubscript => "wrong_subscript"
  | notSliceable => "not_sliceable"
  | notIterable => "not_iterable"
  | unusedVariable => "unused_variable"

def all : List ProblemKind :=
  [parseError, unboundVariable, tooManyValues, notEnoughValues, unpackNonIterable, invalidTarget,
    wrongSubscript, notSliceable, notIterable, unusedVariable]

def ofText? (s : String) : Option ProblemKind :=
  all.find? fun k => k.text == s

end ProblemKind

end Concordance
