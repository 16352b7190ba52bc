import Concordance.Text.Numeral
import Concordance.Text.Quoted

/-!
# Scanning settings files

Blanks, comments, strings and keys of the TOML format. A scanner works on the characters that are left; a
mistake remembers how many were left where it was found.
-/

namespace Concordance.Toml

inductive Reason
  | invalidStatement
  | noEndOfStatement
  | declaredTwice (key : List String)
  | overwritten
  | unclosedHeader
  | unclosedListHeader
  | immutable (key : List String)
  | redefined (key : List String)
  | noEqualsSign
  | invalidKey
  | missing (expected : String)
  | invalidCharacter (c : Char)
  | unclosedArray
  | unclosedTable
  | duplicateKey (key : String)
  | unescaped
  | invalidHex
  | noScalarValue
  | unterminated
  | illegalCharacter (c : Char)
  | invalidDate
  | invalidValue
  | oversized (digits : Nat)
deriving DecidableEq, Repr, Inhabited

def keyText (key : List String) : String :=
  match key with
  | [k] => "(" ++ Text.quoted k ++ ",)"
  | ks => "(" ++ ", ".intercalate (ks.map Text.quoted) ++ ")"

def Reason.message : Reason → String
  | invalidStatement => "Invalid statement"
  | noEndOfStatement => "Expected newline or end of document after a statement"
  | declaredTwice key => "Cannot declare " ++ keyText key ++ " twice"
  | overwritten => "Cannot overwrite a value"
  | unclosedHeader => "Expected ']' at the end of a table declaration"
  | unclosedListHeader => "Expected ']]' at the end of an array declaration"
  | immutable key => "Cannot mutate immutable namespace " ++ keyText key
  | redefined key => "Cannot redefine namespace " ++ keyText key
  | noEqualsSign => "Expected '=' after a key in a key/value pair"
  | invalidKey => "Invalid initial character for a key part"
  | missing expected => "Expected " ++ Text.quoted expected
  | invalidCharacter c => "Found invalid character " ++ Text.quoted (String.ofList [c])
  | unclosedArray => "Unclosed array"
  | unclosedTable => "Unclosed inline table"
  | duplicateKey key => "Duplicate inline table key " ++ Text.quoted key
  | unescaped => "Unescaped '\\' in a string"
  | invalidHex => "Invalid hex value"
  | noScalarValue => "Escaped character is not a Unicode scalar value"
  | unterminated => "Unterminated string"
  | illegalCharacter c => "Illegal character " ++ Text.quoted (String.ofList [c])
  | invalidDate => "Invalid date or datetime"
  | invalidValue => "Invalid value"
  | oversized digits => Text.Numeral.oversizeMessage digits

/-- A mistake, and how many characters were left where it was found. -/
structure Mistake where
  reason : Reason
  left : Nat
deriving DecidableEq, Repr, Inhabited

/-- Work on the characters that are left. -/
abbrev Scan := StateT (List Char) (Except Mistake)

def fail {α : Type} (reason : Reason) : Scan α := do throw ⟨reason, (← get).length⟩

def skip (skipped : Char → Bool) : Scan Unit := modify (List.dropWhile skipped)

def isGap (c : Char) : Bool := c == ' ' || c == '\t'

def isSpace (c : Char) : Bool := isGap c || c == '\n'

def isControl (c : Char) : Bool := (c.toNat < 32 && c != '\t') || c.toNat == 127

def isMultilineControl (c : Char) : Bool := isControl c && c != '\n'

def accept (expected : List Char) : Scan Bool := do
  let rest ← get
  if expected.isPrefixOf rest then
    set (rest.drop expected.length)
    return true
  return false

/-- The characters before the first occurrence of the given ones, and what starts there. -/
def cutAt (expected : List Char) : List Char → Option (List Char × List Char)
  | [] => if expected.isEmpty then some ([], []) else none
  | c :: rest =>
    if expected.isPrefixOf (c :: rest) then some ([], c :: rest)
    else (cutAt expected rest).map fun p => (c :: p.1, p.2)

/-- The characters up to the given ones, which have to come unless `mayEnd` holds; none of them may be
forbidden. -/
def takeUntil (expected : List Char) (forbidden : Char → Bool) (mayEnd : Bool) : Scan (List Char) := do
  let rest ← get
  let (before, after) ← match cutAt expected rest with
    | some cut => pure cut
    | none => if mayEnd then pure (rest, []) else throw ⟨.missing (String.ofList expected), 0⟩
  match before.dropWhile (!forbidden ·) with
  | c :: more => throw ⟨.invalidCharacter c, more.length + 1 + after.length⟩
  | [] =>
    set after
    return before

def skipComment : Scan Unit := do
  if ← accept ['#'] then discard <| takeUntil ['\n'] isControl true

def skipSpaceFrom : Nat → Scan Unit
  | 0 => return
  | fuel + 1 => do
    let before := (← get).length
    skip isSpace
    skipComment
    if (← get).length < before then skipSpaceFrom fuel

def skipSpace : Scan Unit := do skipSpaceFrom ((← get).length + 1)

def escapes : List (Char × Char) :=
  [('b', Char.ofNat 8), ('t', '\t'), ('n', '\n'), ('f', Char.ofNat 12), ('r', '\r'), ('"', '"'), ('\\', '\\')]

def hexCharacter (digits : Nat) : Scan (List Char) := do
  let rest ← get
  match (rest.take digits).mapM (Text.Numeral.digit? 16) with
  | some values =>
    if values.length < digits then fail .invalidHex
    set (rest.drop digits)
    let n := values.foldl (fun n d => 16 * n + d) 0
    if n.isValidChar then return [Char.ofNat n] else fail .noScalarValue
  | none => fail .invalidHex

def skipLineEnd (blank : Char) : Scan (List Char) := do
  if blank != '\n' then
    skip isGap
    match ← get with
    | [] => return []
    | '\n' :: rest => set rest
    | _ => fail .unescaped
  skip isSpace
  return []

def escaped (multiline : Bool) : Scan (List Char) := do
  match ← get with
  | [] => fail .unescaped
  | c :: rest =>
    set rest
    if multiline && isSpace c then skipLineEnd c
    else if c == 'u' then hexCharacter 4
    else if c == 'U' then hexCharacter 8
    else match escapes.find? fun e => e.1 == c with
      | some (_, meaning) => return [meaning]
      | none => fail .unescaped

/-- The rest of a quoted string, after the characters `done`, latest first; every round takes a character. -/
def quotedFrom (multiline : Bool) : Nat → List Char → Scan String
  | 0, _ => fail .unterminated
  | fuel + 1, done => do
    match ← get with
    | [] => fail .unterminated
    | '"' :: rest =>
      if !multiline then
        set rest
        return String.ofList done.reverse
      else if ← accept ['"', '"', '"'] then return String.ofList done.reverse
      else
        set rest
        quotedFrom multiline fuel ('"' :: done)
    | '\\' :: rest =>
      set rest
      quotedFrom multiline fuel ((← escaped multiline).reverse ++ done)
    | c :: rest =>
      if (if multiline then isMultilineControl c else isControl c) then fail (.illegalCharacter c)
      set rest
      quotedFrom multiline fuel (c :: done)

def quotedString (multiline : Bool) : Scan String := do quotedFrom multiline ((← get).length + 1) []

def literalString : Scan String := do
  let text ← takeUntil ['\''] isControl false
  discard <| accept ['\'']
  return String.ofList text

/-- At most two more of the closing characters belong to a string of several lines. -/
def closingCharacters (delimiter : Char) : Scan String := do
  if ← accept [delimiter] then
    if ← accept [delimiter] then return String.ofList [delimiter, delimiter]
    return String.ofList [delimiter]
  return ""

def multilineString (delimiter : Char) : Scan String := do
  discard <| accept ['\n']
  let text ← if delimiter == '"' then quotedString true else do
    let text ← takeUntil ['\'', '\'', '\''] isMultilineControl false
    discard <| accept ['\'', '\'', '\'']
    pure (String.ofList text)
  return text ++ (← closingCharacters delimiter)

def isBare (c : Char) : Bool := c.isAlphanum || c == '-' || c == '_'

def startsKey (c : Char) : Bool := isBare c || c == '"' || c == '\''

def keyPart : Scan String := do
  match ← get with
  | '"' :: rest =>
    set rest
    quotedString false
  | '\'' :: rest =>
    set rest
    literalString
  | rest =>
    match rest.span isBare with
    | ([], _) => fail .invalidKey
    | (name, after) =>
      set after
      return String.ofList name

/-- The further parts of a key, each after a dot; every round takes a character. -/
def keyFrom : Nat → List String → Scan (List String)
  | 0, done => return done
  | fuel + 1, done => do
    skip isGap
    if ← accept ['.'] then
      skip isGap
      keyFrom fuel (done ++ [← keyPart])
    else return done

def key : Scan (List String) := do
  let first ← keyPart
  keyFrom ((← get).length + 1) [first]

end Concordance.Toml
