import Concordance.Number.Shortest
import Concordance.Text.Quoted
import Concordance.Validation

/-!
# Descriptions of rejected fields

What is said about rejected fields: a headline with their number, and for each field its place, a sentence and the
value that was given, cut short in the middle if it is long.
-/

namespace Concordance

mutual

def Document.literal : Document → String
  | .null => "None"
  | .bool b => if b then "True" else "False"
  | .int n => toString n
  | .float x => x.text
  | .text s => Text.quoted s
  | .list ds => "[" ++ ", ".intercalate (Document.itemLiterals ds) ++ "]"
  | .table fs => "\x7b" ++ ", ".intercalate (Document.fieldLiterals fs) ++ "\x7d"
termination_by structural d => d

def Document.itemLiterals : List Document → List String
  | [] => []
  | d :: ds => d.literal :: Document.itemLiterals ds
termination_by structural ds => ds

def Document.fieldLiterals : List (String × Document) → List String
  | [] => []
  | (name, d) :: fs => (Text.quoted name ++ ": " ++ d.literal) :: Document.fieldLiterals fs
termination_by structural fs => fs

end

def Document.kindName : Document → String
  | .null => "NoneType"
  | .bool _ => "bool"
  | .int _ => "int"
  | .float _ => "float"
  | .text _ => "str"
  | .list _ => "list"
  | .table _ => "dict"

namespace FieldError

def longestLiteral : Nat := 50

def takeBytes : Nat → List Char → List Char
  | _, [] => []
  | n, c :: rest => if c.utf8Size ≤ n then c :: takeBytes (n - c.utf8Size) rest else []

def shortened (s : String) : String :=
  if s.utf8ByteSize ≤ longestLiteral then s
  else
    let half := (longestLiteral + 1) / 2
    let cs := s.toList
    String.ofList (takeBytes half cs) ++ "..." ++ String.ofList (takeBytes (half - 1) cs.reverse).reverse

def description (e : FieldError) : String :=
  ".".intercalate e.place ++ "\n  " ++ e.rejection.sentence ++ " [type=" ++ e.rejection.text ++ ", input_value="
    ++ shortened e.input.literal ++ ", input_type=" ++ e.input.kindName ++ "]"

def headline (count : Nat) : String :=
  toString count ++ " validation error" ++ (if count = 1 then "" else "s") ++ " for AnalysisConfig"

/-- What is said about rejected fields: the headline and the lines about each. -/
def summary (errors : List FieldError) : String :=
  "\n".intercalate (headline errors.length :: errors.map description)

end FieldError

end Concordance
