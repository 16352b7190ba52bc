import Concordance.Text.Blank
import Concordance.Text.Digit

/-!
# Numerals

Whole numbers as text: digits of a base with single underscores between them, as literals of programs and as
decimal values given by people.
-/

namespace Concordance.Text.Numeral

def digit? (base : Nat) (c : Char) : Option Nat :=
  let value :=
    if c.isDigit then some (c.toNat - '0'.toNat)
    else if 'a' ≤ c ∧ c ≤ 'f' then some (c.toNat - 'a'.toNat + 10)
    else if 'A' ≤ c ∧ c ≤ 'F' then some (c.toNat - 'A'.toNat + 10)
    else none
  value.filter (· < base)

/-- The value of the digits that follow those of value `n`; `gap` holds at the start and after an underscore,
where a digit has to follow. -/
def digitsFrom? (base : Nat) (gap : Bool) (n : Nat) : List Char → Option Nat
  | [] => if gap then none else some n
  | c :: rest =>
    match digit? base c with
    | some d => digitsFrom? base false (base * n + d) rest
    | none => if c == '_' && !gap then digitsFrom? base true n rest else none

def digits? (base : Nat) (cs : List Char) : Option Nat := digitsFrom? base true 0 cs

/-- The digits after the mark of a base, which one underscore may part from them. -/
def afterMark : List Char → List Char
  | '_' :: rest => rest
  | cs => cs

def decimal? (cs : List Char) : Option Nat :=
  (digits? 10 cs).filter fun n => n = 0 || cs.head? != some '0'

def literal? (s : String) : Option Nat :=
  match s.toList with
  | '0' :: 'x' :: rest | '0' :: 'X' :: rest => digits? 16 (afterMark rest)
  | '0' :: 'o' :: rest | '0' :: 'O' :: rest => digits? 8 (afterMark rest)
  | '0' :: 'b' :: rest | '0' :: 'B' :: rest => digits? 2 (afterMark rest)
  | cs => decimal? cs

def sign : List Char → Bool × List Char
  | '-' :: rest => (true, rest)
  | '+' :: rest => (false, rest)
  | cs => (false, cs)

def signed? (cs : List Char) : Option Int :=
  let (negative, rest) := sign cs
  (digits? 10 rest).map fun n => if negative then -n else n

def digitLimit : Nat := 4300

def oversizeMessage (digits : Nat) : String :=
  s!"Exceeds the limit ({digitLimit} digits) for integer string conversion: value has {digits} digits; "
    ++ "use sys.set_int_max_str_digits() to increase the limit"

def plainDigit (c : Char) : Char :=
  match decimalDigit? c with
  | some d => Char.ofNat ('0'.toNat + d)
  | none => c

/-- The value of a decimal number given by people: digits of any script with an optional sign, white space around
them, and not too many of them. -/
def general? (s : String) : Option Int :=
  let cs := (trimWhile isWhiteSpace s.toList).map plainDigit
  if digitLimit < cs.countP Char.isDigit then none else signed? cs

end Concordance.Text.Numeral
