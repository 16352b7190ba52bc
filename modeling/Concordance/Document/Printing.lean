import Concordance.Document
import Concordance.Number.Shortest
import Concordance.Text.Quoted

/-!
# Printing documents

Documents in the JSON format, one item to a line and two blanks for every level. Everything beyond ASCII is
escaped.
-/

namespace Concordance.Document

def escapeUnit (n : Nat) : List Char := '\\' :: 'u' :: Text.hex 4 n

def shortEscapes : List (Char × Char) :=
  [('"', '"'), ('\\', '\\'), ('\n', 'n'), ('\r', 'r'), ('\t', 't'), (Char.ofNat 8, 'b'), (Char.ofNat 12, 'f')]

/-- A character inside a text; one that takes more than sixteen bits is written as two units. -/
def escapeChar (c : Char) : List Char :=
  match shortEscapes.find? fun e => e.1 == c with
  | some (_, letter) => ['\\', letter]
  | none =>
    let n := c.toNat
    if 0x20 ≤ n ∧ n < 0x80 then [c]
    else if n < 0x10000 then escapeUnit n
    else
      let rest := n - 0x10000
      escapeUnit (0xd800 + rest / 0x400) ++ escapeUnit (0xdc00 + rest % 0x400)

def textLiteral (s : String) : String := "\"" ++ String.ofList (s.toList.flatMap escapeChar) ++ "\""

def lineStart (level : Nat) : String := "\n" ++ String.ofList (List.replicate (2 * level) ' ')

/-- Rows between brackets, one to a line; without rows the brackets stand together. -/
def bracketed (opening closing : String) (level : Nat) (rows : List String) : String :=
  if rows.isEmpty then opening ++ closing
  else
    opening ++ lineStart (level + 1) ++ ("," ++ lineStart (level + 1)).intercalate rows ++ lineStart level ++ closing

mutual

def printAt : Document → Nat → String
  | null, _ => "null"
  | bool b, _ => if b then "true" else "false"
  | int n, _ => toString n
  | float x, _ => x.text
  | text s, _ => textLiteral s
  | list ds, level => bracketed "[" "]" level (printItems ds (level + 1))
  | table fs, level => bracketed "\x7b" "\x7d" level (printFields fs (level + 1))
termination_by structural d => d

def printItems : List Document → Nat → List String
  | [], _ => []
  | d :: ds, level => d.printAt level :: printItems ds level
termination_by structural ds => ds

def printFields : List (String × Document) → Nat → List String
  | [], _ => []
  | (name, d) :: fs, level => (textLiteral name ++ ": " ++ d.printAt level) :: printFields fs level
termination_by structural fs => fs

end

def print (d : Document) : String := d.printAt 0

end Concordance.Document
