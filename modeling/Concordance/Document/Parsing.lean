import Concordance.Document
import Concordance.Text.Numeral

/-!
# Reading documents

Documents in the JSON format, with words for the numbers that are not finite. A reader works on the characters
that are left and fails where they do not fit.
-/

namespace Concordance.Document

/-- Work on the characters that are left. -/
abbrev Reader := StateT (List Char) Option

namespace Reader

def isBlank (c : Char) : Bool := c == ' ' || c == '\n' || c == '\r' || c == '\t'

def skipBlanks : Reader Unit := modify (List.dropWhile isBlank)

def accept (expected : List Char) : Reader Bool := do
  let rest ← get
  if expected.isPrefixOf rest then
    set (rest.drop expected.length)
    return true
  return false

def expect (expected : List Char) : Reader Unit := do
  if !(← accept expected) then failure

def takeWhile (test : Char → Bool) : Reader (List Char) :=
  modifyGet fun rest => rest.span test

def codeUnit : Reader Nat := do
  let rest ← get
  let digits ← ((rest.take 4).mapM (Text.Numeral.digit? 16) : Option (List Nat))
  if digits.length < 4 then failure
  set (rest.drop 4)
  return digits.foldl (fun n d => 16 * n + d) 0

/-- The unit that a further escape stands for, if it comes next and is the second of a pair. -/
def lowUnit? : Reader (Option Nat) := do
  let saved ← get
  if ← accept ['\\', 'u'] then
    let low ← codeUnit
    if 0xdc00 ≤ low ∧ low < 0xe000 then return some low
  set saved
  return none

def replacement : Char := Char.ofNat 0xfffd

def unicode : Reader Char := do
  let high ← codeUnit
  if 0xd800 ≤ high ∧ high < 0xdc00 then
    match ← lowUnit? with
    | some low => return Char.ofNat (0x10000 + (high - 0xd800) * 0x400 + (low - 0xdc00))
    | none => return replacement
  return if high.isValidChar then Char.ofNat high else replacement

def escapes : List (Char × Char) :=
  [('"', '"'), ('\\', '\\'), ('/', '/'), ('b', Char.ofNat 8), ('f', Char.ofNat 12), ('n', '\n'), ('r', '\r'),
    ('t', '\t')]

def escaped : Reader Char := do
  match ← get with
  | [] => failure
  | c :: rest =>
    set rest
    if c == 'u' then unicode
    else match escapes.find? fun e => e.1 == c with
      | some (_, meaning) => return meaning
      | none => failure

/-- The rest of a text, after the characters `done`, latest first; every round takes a character. -/
def textFrom : Nat → List Char → Reader String
  | 0, _ => failure
  | fuel + 1, done => do
    match ← get with
    | [] => failure
    | '"' :: rest =>
      set rest
      return String.ofList done.reverse
    | '\\' :: rest =>
      set rest
      let c ← escaped
      textFrom fuel (c :: done)
    | c :: rest =>
      guard (0x20 ≤ c.toNat)
      set rest
      textFrom fuel (c :: done)

def text : Reader String := do textFrom ((← get).length + 1) []

/-- The number with the given digits before and after the point, and a power of ten if one is given. -/
def numberOf (negative : Bool) (whole : List Char) (fraction exponent : Option (List Char)) : Option Document := do
  let places := (fraction.getD []).length
  let digits ← Text.Numeral.digits? 10 (whole ++ fraction.getD [])
  match fraction, exponent with
  | none, none => return int (if negative then -digits else digits)
  | _, _ =>
    let power ← Text.Numeral.signed? (exponent.getD ['0'])
    return float (.ofDecimal negative digits (power - places))

/-- Whether digits may stand before the point: there are some, and none follows a leading zero. -/
def isWhole (digits : List Char) : Bool := digits == ['0'] || (!digits.isEmpty && digits.head? != some '0')

def numeral : Reader Document := do
  let negative ← accept ['-']
  if ← accept "Infinity".toList then return float (.infinite negative)
  let whole ← takeWhile Char.isDigit
  guard (isWhole whole)
  let fraction ← if ← accept ['.'] then some <$> takeWhile Char.isDigit else pure none
  guard (fraction != some [])
  let marked ← if ← accept ['e'] then pure true else accept ['E']
  let isExponent (c : Char) : Bool := c.isDigit || c == '+' || c == '-'
  let exponent ← if marked then some <$> takeWhile isExponent else pure none
  numberOf negative whole fraction exponent

/-- The further items of a list, after the items `done`, latest first; every round takes a character. -/
def itemsFrom (value : Reader Document) : Nat → List Document → Reader Document
  | 0, _ => failure
  | fuel + 1, done => do
    let done := (← value) :: done
    skipBlanks
    if ← accept [','] then itemsFrom value fuel done
    else
      expect [']']
      return list done.reverse

def field (value : Reader Document) : Reader (String × Document) := do
  skipBlanks
  expect ['"']
  let name ← text
  skipBlanks
  expect [':']
  return (name, ← value)

/-- The further fields of a table, after the fields `done`, latest first; every round takes a character. -/
def fieldsFrom (value : Reader Document) : Nat → List (String × Document) → Reader Document
  | 0, _ => failure
  | fuel + 1, done => do
    let done := (← field value) :: done
    skipBlanks
    if ← accept [','] then fieldsFrom value fuel done
    else
      expect ['\x7d']
      return ofFields done.reverse

def listBody (value : Reader Document) : Reader Document := do
  skipBlanks
  if ← accept [']'] then return list []
  itemsFrom value ((← get).length + 1) []

def tableBody (value : Reader Document) : Reader Document := do
  skipBlanks
  if ← accept ['\x7d'] then return table []
  fieldsFrom value ((← get).length + 1) []

def document : Nat → Reader Document
  | 0 => failure
  | fuel + 1 => do
    skipBlanks
    if ← accept ['"'] then return .text (← text)
    if ← accept ['['] then return ← listBody (document fuel)
    if ← accept ['\x7b'] then return ← tableBody (document fuel)
    if ← accept "null".toList then return null
    if ← accept "true".toList then return bool true
    if ← accept "false".toList then return bool false
    if ← accept "NaN".toList then return float .undefined
    numeral

end Reader

def parse? (s : String) : Option Document :=
  let cs := s.toList
  match (Reader.document (cs.length + 1)).run cs with
  | some (d, rest) => if rest.all Reader.isBlank then some d else none
  | none => none

end Concordance.Document
