import Concordance.Text.Style

/-!
# Console markup

Log lines and messages carry style tags such as `[path]` and `[/path]`. A tag is an opening bracket, a lower-case letter
or one of `#`, `/`, `@`, any characters that are no opening brackets, and a closing bracket.
-/

namespace Concordance.Text.Markup

inductive Piece
  | plain (text : List Char)
  | tag (body : List Char)
deriving DecidableEq, Repr, Inhabited

def opensTag (c : Char) : Bool :=
  ('a' ≤ c && c ≤ 'z') || c == '#' || c == '/' || c == '@'

/-- The body of a tag whose opening bracket has been taken, and what follows the tag. -/
def tagBody? (cs : List Char) : Option (List Char × List Char) :=
  match cs with
  | [] => none
  | c :: _ =>
    if opensTag c then match cs.span fun d => d != ']' && d != '[' with
      | (body, ']' :: rest) => some (body, rest)
      | _ => none
    else none

def tagPieces (slashes : Nat) (body : List Char) : List Piece :=
  [.plain (List.replicate (slashes / 2) '\\'),
    if slashes % 2 = 0 then .tag body else .plain ('[' :: body ++ [']'])]

/-- The pieces of a text, after the plain characters `done`, latest first; every round takes a character. -/
def piecesFrom : Nat → List Char → List Char → List Piece
  | 0, done, _ => [.plain done.reverse]
  | _, done, [] => [.plain done.reverse]
  | fuel + 1, done, c :: rest =>
    let (slashes, after) := (c :: rest).span (· == '\\')
    match after with
    | '[' :: inside => match tagBody? inside with
      | some (body, left) =>
        .plain done.reverse :: tagPieces slashes.length body ++ piecesFrom fuel [] left
      | none => piecesFrom fuel ('[' :: slashes ++ done) inside
    | _ =>
      if slashes.isEmpty then piecesFrom fuel (c :: done) rest else piecesFrom fuel (slashes ++ done) after

def pieces (cs : List Char) : List Piece := piecesFrom (cs.length + 1) [] cs

def unescape : List Char → List Char
  | '\\' :: '[' :: rest => '[' :: unescape rest
  | c :: rest => c :: unescape rest
  | [] => []

def movesCursor (c : Char) : Bool := c.toNat ∈ [7, 8, 11, 12, 13]

def plainText (cs : List Char) : List Char :=
  (unescape cs).filter fun c => !movesCursor c

/-- The styles that are open after a tag, innermost first; none if the tag has nothing to close. -/
def applyTag (isOpen : List String) (body : List Char) : Option (List String) :=
  match body.takeWhile (· != '=') with
  | '/' :: name =>
    if name.all isBlank then match isOpen with
      | [] => none
      | _ :: outer => some outer
    else
      let style := Style.normalize (String.ofList name)
      if isOpen.contains style then some (isOpen.erase style) else none
  | name => some (Style.normalize (String.ofList name) :: isOpen)

def showPieces : List String → List Piece → Option (List Char)
  | _, [] => some []
  | isOpen, .plain cs :: rest => (showPieces isOpen rest).map (plainText cs ++ ·)
  | isOpen, .tag body :: rest => (applyTag isOpen body).bind (showPieces · rest)

def render? (s : String) : Option String := (showPieces [] (pieces s.toList)).map String.ofList

/-- Puts a backslash before every tag of a text and doubles those that stand there; every round takes a
character. -/
def escapeFrom : Nat → List Char → List Char
  | 0, cs => cs
  | _, [] => []
  | fuel + 1, c :: rest =>
    let (slashes, after) := (c :: rest).span (· == '\\')
    match after with
    | '[' :: inside => match tagBody? inside with
      | some (body, left) => slashes ++ slashes ++ '\\' :: '[' :: body ++ ']' :: escapeFrom fuel left
      | none => slashes ++ '[' :: escapeFrom fuel inside
    | _ => if slashes.isEmpty then c :: escapeFrom fuel rest else slashes ++ escapeFrom fuel after

/-- A text whose tags are shown instead of being removed. -/
def escape (s : String) : String :=
  let cs := escapeFrom s.length s.toList
  match cs.reverse with
  | '\\' :: '\\' :: _ => String.ofList cs
  | '\\' :: _ => String.ofList (cs ++ ['\\'])
  | _ => String.ofList cs

/-- The lines of a text as they stand on a screen: tabs are blanks, runs of spaces are made one, and lines
without anything to see are left out. -/
def screenLines (s : String) : List String :=
  let line (cs : List Char) : String :=
    String.ofList (trimWhile isBlank (collapseSpaces (cs.map fun c => if c = '\t' then ' ' else c)))
  ((split '\n' s.toList).map line).filter (· ≠ "")

end Concordance.Text.Markup
