import Concordance.Document
import Concordance.Toml.Scan

/-!
# Numbers and dates

Numbers, dates and times of the TOML format, each as the longest text of its kind.
-/

namespace Concordance.Toml

/-- What a pattern takes from the front of some characters: what it took, and what is left. -/
abbrev Taken := Option (List Char × List Char)

def one (test : Char → Bool) : List Char → Taken
  | c :: rest => if test c then some ([c], rest) else none
  | [] => none

def andThen (p q : List Char → Taken) (cs : List Char) : Taken := do
  let (a, rest) ← p cs
  let (b, rest) ← q rest
  return (a ++ b, rest)

def perhaps (p : List Char → Taken) (cs : List Char) : Taken := (p cs).or (some ([], cs))

def orElse (p q : List Char → Taken) (cs : List Char) : Taken := (p cs).or (q cs)

def sequence (ps : List (List Char → Taken)) (cs : List Char) : Taken :=
  (ps.foldr andThen fun cs => some ([], cs)) cs

/-- Digits that follow a first one; an underscore may stand before each of them. -/
def moreDigits (isDigit : Char → Bool) : List Char → List Char × List Char
  | '_' :: c :: rest =>
    if isDigit c then
      let (taken, left) := moreDigits isDigit rest
      ('_' :: c :: taken, left)
    else ([], '_' :: c :: rest)
  | c :: rest =>
    if isDigit c then
      let (taken, left) := moreDigits isDigit rest
      (c :: taken, left)
    else ([], c :: rest)
  | [] => ([], [])

def digits (isDigit : Char → Bool) (cs : List Char) : Taken := do
  let (first, rest) ← one isDigit cs
  let (more, rest) := moreDigits isDigit rest
  return (first ++ more, rest)

def sign : List Char → Taken := one fun c => c == '+' || c == '-'

def markedDigits (mark : Char) (isDigit : Char → Bool) : List Char → Taken :=
  sequence [one (· == '0'), one (· == mark), digits isDigit]

def isDigitOf (base : Nat) (c : Char) : Bool := (Text.Numeral.digit? base c).isSome

def markedNumber : List Char → Taken :=
  orElse (markedDigits 'x' (isDigitOf 16)) (orElse (markedDigits 'b' (isDigitOf 2)) (markedDigits 'o' (isDigitOf 8)))

/-- The whole part of a decimal number; only zero starts with the digit zero. -/
def wholePart : List Char → Taken
  | '0' :: rest => some (['0'], rest)
  | cs => digits Char.isDigit cs

structure Decimal where
  sign : List Char
  whole : List Char
  fraction : List Char
  exponent : List Char

def decimal? (cs : List Char) : Option (Decimal × List Char) := do
  let (sign, rest) ← perhaps sign cs
  let (whole, rest) ← wholePart rest
  let (fraction, rest) ← perhaps (andThen (one (· == '.')) (digits Char.isDigit)) rest
  let mark := one fun c => c == 'e' || c == 'E'
  let (exponent, rest) ← perhaps (sequence [mark, perhaps Toml.sign, digits Char.isDigit]) rest
  return (⟨sign, whole, fraction, exponent⟩, rest)

def valueOf (cs : List Char) : Nat := (Text.Numeral.digits? 10 (cs.filter Char.isDigit)).getD 0

/-- The value of a decimal number: a whole one if it has neither a fraction nor a power of ten. -/
def Decimal.value (d : Decimal) : Except Reason Document :=
  let negative := d.sign == ['-']
  let mantissa := valueOf (d.whole ++ d.fraction)
  if d.fraction.isEmpty && d.exponent.isEmpty then
    let digits := d.whole.countP Char.isDigit
    if Text.Numeral.digitLimit < digits then .error (.oversized digits)
    else .ok (.int (if negative then -mantissa else mantissa))
  else
    let power : Int := if d.exponent.contains '-' then -valueOf d.exponent else valueOf d.exponent
    .ok (.float (.ofDecimal negative mantissa (power - d.fraction.countP Char.isDigit)))

def number? (cs : List Char) : Option (Except Reason Document × List Char) :=
  match markedNumber cs with
  | some (text, rest) => some (.ok (.nat ((Text.Numeral.literal? (String.ofList text)).getD 0)), rest)
  | none => (decimal? cs).map fun d => (d.1.value, d.2)

def pairIn (low high : Nat) (cs : List Char) : Taken := do
  let (text, rest) ← andThen (one Char.isDigit) (one Char.isDigit) cs
  if low ≤ valueOf text ∧ valueOf text ≤ high then some (text, rest) else none

def exactly (c : Char) : List Char → Taken := one (· == c)

def someDigits (cs : List Char) : Taken :=
  match cs.span Char.isDigit with
  | ([], _) => none
  | taken => some taken

def time : List Char → Taken :=
  sequence [pairIn 0 23, exactly ':', pairIn 0 59, exactly ':', pairIn 0 59,
    perhaps (andThen (exactly '.') someDigits)]

def offset : List Char → Taken :=
  orElse (one fun c => c == 'Z' || c == 'z') (sequence [sign, pairIn 0 23, exactly ':', pairIn 0 59])

def date : List Char → Taken :=
  sequence [one Char.isDigit, one Char.isDigit, one Char.isDigit, one Char.isDigit, exactly '-', pairIn 1 12,
    exactly '-', pairIn 1 31]

def dateTime : List Char → Taken :=
  andThen date (perhaps (sequence [one fun c => c == 'T' || c == 't' || c == ' ', time, perhaps offset]))

def isLeap (year : Nat) : Bool := year % 4 == 0 && (year % 100 != 0 || year % 400 == 0)

def daysIn (year month : Nat) : Nat :=
  if month = 2 then (if isLeap year then 29 else 28)
  else if month ∈ [4, 6, 9, 11] then 30 else 31

def isCalendarDate (text : List Char) : Bool :=
  let part (start length : Nat) : Nat := valueOf ((text.drop start).take length)
  part 0 4 ≥ 1 && part 8 2 ≤ daysIn (part 0 4) (part 5 2)

end Concordance.Toml
