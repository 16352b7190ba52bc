import Concordance.Text.Numeral
import Concordance.Validation.Rejection

/-!
# Whole numbers as text

A whole number is taken in its plain form: an optional minus sign and digits, of which only zero starts with zero.
-/

namespace Concordance.Validation

/-- Reads a number in its plain form. A row of digits that is too long is refused whatever follows it. -/
def plainInteger (cs : List Char) : Except Rejection Int :=
  let negative := cs.head? == some '-'
  let start := if negative then cs.drop 1 else cs
  let (digits, rest) := start.span Char.isDigit
  if digits.head? == some '0' then
    if start.length = 1 then .ok 0 else .error .unreadableInteger
  else if Text.Numeral.digitLimit < digits.length + (cs.length - start.length) then .error .oversizedInteger
  else match Text.Numeral.digits? 10 digits with
    | some n => if rest.isEmpty then .ok (if negative then -n else n) else .error .unreadableInteger
    | none => .error .unreadableInteger

def startsPlain (c : Char) : Bool := c == '-' || (c.isDigit && c != '0')

/-- Leaves out zeros, and underscores between them, before a number; `last` is the character before. -/
def afterZeros (last : Char) : List Char → Option (List Char)
  | [] => some [last]
  | c :: rest =>
    if c == '0' || c == '_' then afterZeros c rest
    else if c == '.' then some (last :: c :: rest)
    else if startsPlain c then some (c :: rest)
    else none

def withoutZeros : List Char → Option (List Char)
  | [] => none
  | c :: rest => if c == '0' then afterZeros c rest else if startsPlain c then some (c :: rest) else none

def withoutPlus : List Char → Option (List Char)
  | '+' :: '-' :: _ => none
  | '+' :: rest => some rest
  | cs => some cs

def withoutFraction (cs : List Char) : List Char :=
  match cs.span (· != '.') with
  | (whole, _ :: zeros) => if !zeros.isEmpty && zeros.all (· == '0') then whole else cs
  | _ => cs

def hasDoubleUnderscore : List Char → Bool
  | '_' :: '_' :: _ => true
  | _ :: rest => hasDoubleUnderscore rest
  | [] => false

def withoutUnderscores (cs : List Char) : List Char :=
  if cs.head? == some '_' || cs.getLast? == some '_' || hasDoubleUnderscore cs then cs
  else cs.filter (· != '_')

def toPlain (cs : List Char) : Option (List Char) := do
  let cs ← withoutPlus (Text.trimWhile Text.isWhiteSpace cs)
  return withoutUnderscores (withoutFraction (← withoutZeros cs))

def integerOfText (s : String) : Except Rejection Int :=
  match plainInteger s.toList with
  | .error .unreadableInteger => match (toPlain s.toList).map plainInteger with
    | some (.ok n) => .ok n
    | _ => .error .unreadableInteger
  | result => result

end Concordance.Validation
