import Concordance.Toml.Value

/-!
# Reading settings files

A TOML document is a row of statements: headers, which open a table, and entries, which go to the open table.
No table is opened twice and no value is set twice.
-/

namespace Concordance.Toml

/-- Why a key is closed. -/
inductive Seal
  /-- Written as a whole: nothing can be added at or below it. -/
  | frozen
  | opened
deriving DecidableEq, Repr, Inhabited

/-- A document while it is read. -/
structure Draft where
  fields : Fields := []
  seals : List (List String × Seal) := []
  /-- Tables made by dotted keys; they are closed when the next header comes. -/
  pending : List (List String) := []
  header : List String := []

namespace Draft

def isFrozen (d : Draft) (k : List String) : Bool :=
  d.seals.any fun s => s.2 = .frozen && leadsTo s.1 k

def isOpened (d : Draft) (k : List String) : Bool := d.seals.contains (k, .opened)

def settle (d : Draft) : Draft :=
  { d with seals := d.seals ++ d.pending.map (·, .opened), pending := [] }

end Draft

/-- Work on the text and the document. -/
abbrev Read := StateT Draft Scan

def tableHeader : Read Unit := do
  skip isGap
  let k ← key
  let d ← get
  if d.isOpened k || d.isFrozen k then fail (.declaredTwice k)
  match changeTable true some k d.fields with
  | none => fail .overwritten
  | some fields =>
    set { d with fields, seals := (k, .opened) :: d.seals, header := k }
    if !(← accept [']']) then fail .unclosedHeader

def appendTable (name : String) (fields : Fields) : Option Fields :=
  match fieldOf? fields name with
  | none => some (Document.setField name (.list [.table []]) fields)
  | some (.list ds) => some (Document.setField name (.list (ds ++ [.table []])) fields)
  | some _ => none

def listHeader : Read Unit := do
  skip isGap
  let k ← key
  let d ← get
  if d.isFrozen k then fail (.immutable k)
  match changeTable true (appendTable (k.getLast?.getD "")) k.dropLast d.fields with
  | none => fail .overwritten
  | some fields =>
    let seals := d.seals.filter fun s => !leadsTo k s.1
    set { d with fields, seals := (k, .opened) :: seals, header := k }
    if !(← accept [']', ']']) then fail .unclosedListHeader

def tablesOnTheWay (header k : List String) : List (List String) :=
  (List.range (k.length - 1)).map fun i => header ++ k.take (i + 1)

def passThrough (k : List String) : Read Unit := do
  if (← get).isOpened k then fail (.redefined k)
  modify fun d => { d with pending := d.pending ++ [k] }

def entry : Read Unit := do
  let (k, v) ← (pair value : Scan (List String × Document))
  let header := (← get).header
  (tablesOnTheWay header k).forM passThrough
  let d ← get
  let stem := k.getLast?.getD ""
  let parent := header ++ k.dropLast
  if d.isFrozen parent then fail (.immutable parent)
  let add (inner : Fields) : Option Fields :=
    if (fieldOf? inner stem).isSome then none else some (Document.setField stem v inner)
  match changeTable true add parent d.fields with
  | none => fail .overwritten
  | some fields =>
    let seals := if isContainer v then (header ++ k, .frozen) :: d.seals else d.seals
    set { d with fields, seals }

def statement (next : Char) : Read Unit := do
  if startsKey next then
    entry
    skip isGap
  else if next == '[' then
    modify Draft.settle
    if ← accept ['[', '['] then listHeader
    else
      discard <| accept ['[']
      tableHeader
    skip isGap
  else if next != '#' then fail .invalidStatement

def statements : Nat → Read Unit
  | 0 => return
  | fuel + 1 => do
    skip isGap
    match ← (get : Scan (List Char)) with
    | [] => return
    | '\n' :: rest =>
      (set rest : Scan Unit)
      statements fuel
    | c :: _ =>
      statement c
      skipComment
      match ← (get : Scan (List Char)) with
      | [] => return
      | '\n' :: rest =>
        (set rest : Scan Unit)
        statements fuel
      | _ => fail .noEndOfStatement

def unixLines : List Char → List Char
  | '\r' :: '\n' :: rest => '\n' :: unixLines rest
  | c :: rest => c :: unixLines rest
  | [] => []

def placeText (text : List Char) (left : Nat) : String :=
  if left = 0 then "end of document"
  else
    let before := text.take (text.length - left)
    let line := before.count '\n' + 1
    let column := (before.reverse.takeWhile (· != '\n')).length + 1
    s!"line {line}, column {column}"

/-- Why a text has no document. -/
inductive Failure
  | mistake (message : String)
  /-- A whole number has more decimal digits than are read. -/
  | oversized (digits : Nat)
deriving DecidableEq, Repr, Inhabited

def Mistake.failure (text : List Char) (m : Mistake) : Failure :=
  match m.reason with
  | .oversized digits => .oversized digits
  | reason => .mistake (reason.message ++ " (at " ++ placeText text m.left ++ ")")

def read (text : String) : Except Failure Document :=
  let cs := unixLines text.toList
  match ((statements (cs.length + 1)).run {}).run cs with
  | .ok ((_, draft), _) => .ok (.table draft.fields)
  | .error m => .error (m.failure cs)

end Concordance.Toml
