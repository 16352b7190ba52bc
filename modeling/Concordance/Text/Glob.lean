/-!
# Glob patterns

Shell-style patterns over whole texts: `*` stands for any text, `?` for any character, `[…]` for one character of a set
and `[!…]` for one outside it.
-/

namespace Concordance.Text.Glob

inductive Token
  | many
  | one
  | literal (c : Char)
  /-- A character in (or, negated, outside) the given characters and ranges. -/
  | oneOf (negated : Bool) (chars : List Char) (ranges : List (Char × Char))
deriving Repr, DecidableEq

/-- Cuts the body of a set at the hyphens that make ranges: the first has at least `least` characters before it, and
every further one at least two after the one before. -/
def cutRanges : Nat → Nat → List Char → List (List Char)
  | 0, _, cs => [cs]
  | fuel + 1, least, cs =>
    let (before, after) := (cs.drop least).span (· != '-')
    match after with
    | [] => [cs]
    | _ :: rest =>
      let piece := cs.take least ++ before
      if rest.isEmpty then [piece ++ ['-']] else piece :: cutRanges fuel 2 rest

/-- Joins a piece with the pieces after it when the range between them is empty. -/
def dropEmptyRange (piece : List Char) : List (List Char) → List (List Char)
  | [] => [piece]
  | next :: rest =>
    match piece.getLast?, next with
    | some low, high :: more => if high < low then (piece.dropLast ++ more) :: rest else piece :: next :: rest
    | _, _ => piece :: next :: rest

def rangesOf : List (List Char) → List (Char × Char)
  | piece :: next :: rest =>
    match piece.getLast?, next.head? with
    | some low, some high => (low, high) :: rangesOf (next :: rest)
    | _, _ => rangesOf (next :: rest)
  | _ => []

def tokenOfSet (body : List Char) : Token :=
  let least := if body.head? == some '!' then 2 else 1
  let (negated, pieces) :=
    match (cutRanges body.length least body).foldr dropEmptyRange [] with
    | ('!' :: piece) :: rest => (true, piece :: rest)
    | pieces => (false, pieces)
  -- A hyphen with nothing before it stands for itself.
  let hyphen := match pieces with
    | [] :: _ :: _ => ['-']
    | _ => []
  .oneOf negated (hyphen ++ pieces.flatten) (rangesOf pieces)

/-- Splits what follows an opening bracket into the body of the set and the rest of the pattern. -/
def closeSet (cs : List Char) : Option (List Char × List Char) :=
  let (bang, cs) := match cs with
    | '!' :: rest => (['!'], rest)
    | _ => ([], cs)
  let (first, cs) := match cs with
    | ']' :: rest => ([']'], rest)
    | _ => ([], cs)
  let (body, after) := cs.span (· != ']')
  match after with
  | [] => none
  | _ :: rest => some (bang ++ first ++ body, rest)

def tokensFrom : Nat → List Char → List Token
  | 0, _ => []
  | _, [] => []
  | fuel + 1, c :: rest =>
    if c = '*' then .many :: tokensFrom fuel rest
    else if c = '?' then .one :: tokensFrom fuel rest
    else if c = '[' then
      match closeSet rest with
      | none => .literal '[' :: tokensFrom fuel rest
      | some (body, after) => tokenOfSet body :: tokensFrom fuel after
    else .literal c :: tokensFrom fuel rest

def tokens (pattern : List Char) : List Token := tokensFrom pattern.length pattern

def inSet (chars : List Char) (ranges : List (Char × Char)) (c : Char) : Bool :=
  chars.contains c || ranges.any fun r => r.1 ≤ c && c ≤ r.2

def anyFromHere : List Bool → List Bool
  | [] => []
  | b :: rest =>
    let later := anyFromHere rest
    (b || later.headD false) :: later

/-- For every ending of a text, whether its first character passes a test and what follows is accepted; `accepted`
says that of every ending. -/
def firstThen (test : Char → Bool) (text : List Char) (accepted : List Bool) : List Bool :=
  List.zipWith (fun c b => test c && b) text (accepted.drop 1) ++ [false]

/-- For every ending of a text, whether it begins with what a piece stands for and goes on as accepted; `accepted`
says of every ending whether it is one to go on with. -/
def Token.accepts (text : List Char) (token : Token) (accepted : List Bool) : List Bool :=
  match token with
  | .many => anyFromHere accepted
  | .one => firstThen (fun _ => true) text accepted
  | .literal d => firstThen (· == d) text accepted
  | .oneOf negated chars ranges => firstThen (fun c => inSet chars ranges c != negated) text accepted

def describes (pattern text : String) : Bool :=
  let cs := text.toList
  let onlyEnd := List.replicate cs.length false ++ [true]
  ((tokens pattern.toList).foldr (Token.accepts cs) onlyEnd).headD false

end Concordance.Text.Glob
