/-!
# Rejections

What can be wrong with a field that comes from outside.
-/

namespace Concordance

inductive Rejection
  | missing
  | notText
  | notPath
  | notList
  | notInteger
  | unreadableInteger
  | oversizedInteger
  | fraction
  /-- A number is infinite or undefined where a whole one is needed. -/
  | notFinite
  | notBoolean
  | unreadableBoolean
  | unknownTag
  | negative (field : String) (value : Int)
deriving DecidableEq, Repr, Inhabited

namespace Rejection

def text : Rejection → String
  | missing => "missing"
  | notText => "string_type"
  | notPath => "path_type"
  | notList => "list_type"
  | notInteger => "int_type"
  | unreadableInteger => "int_parsing"
  | oversizedInteger => "int_parsing_size"
  | fraction => "int_from_float"
  | notFinite => "finite_number"
  | notBoolean => "bool_type"
  | unreadableBoolean => "bool_parsing"
  | unknownTag => "enum"
  | negative .. => "value_error"

def sentence : Rejection → String
  | missing => "Field required"
  | notText => "Input should be a valid string"
  | notPath => "Input is not a valid path"
  | notList => "Input should be a valid list"
  | notInteger => "Input should be a valid integer"
  | unreadableInteger => "Input should be a valid integer, unable to parse string as an integer"
  | oversizedInteger => "Unable to parse input string as an integer, exceeded maximum size"
  | fraction => "Input should be a valid integer, got a number with a fractional part"
  | notFinite => "Input should be a finite number"
  | notBoolean => "Input should be a valid boolean"
  | unreadableBoolean => "Input should be a valid boolean, unable to interpret input"
  | unknownTag => "Input should be a known word"
  | negative field value => s!"Value error, {field} must be >= 0, got {value}"

/-- The sentence that goes with a mistake in a value that is of the right kind. -/
def message? (r : Rejection) : Option String :=
  match r with
  | negative .. => some r.sentence
  | _ => none

end Rejection

end Concordance
