import Concordance.Toml.Scalar

/-!
# Values

Values of the TOML format. Inline tables and arrays cannot be added to once they are written.
-/

namespace Concordance.Toml

abbrev Fields := List (String × Document)

def fieldOf? (fields : Fields) (name : String) : Option Document :=
  (fields.find? fun f => f.1 == name).map Prod.snd

/-- Changes the table that a key leads to; missing tables are made. -/
def changeTable (throughLists : Bool) (change : Fields → Option Fields) : List String → Fields → Option Fields
  | [], fields => change fields
  | k :: rest, fields =>
    match fieldOf? fields k with
    | none => (changeTable throughLists change rest []).map fun t => Document.setField k (.table t) fields
    | some (.table inner) =>
      (changeTable throughLists change rest inner).map fun t => Document.setField k (.table t) fields
    | some (.list ds) =>
      match throughLists, ds.getLast? with
      | true, some (.table inner) =>
        (changeTable throughLists change rest inner).map fun t => Document.setField k (.list (ds.dropLast ++ [.table t])) fields
      | _, _ => none
    | some _ => none

def isContainer : Document → Bool
  | .list _ | .table _ => true
  | _ => false

def leadsTo (outer key : List String) : Bool := outer.isPrefixOf key

def pair (value : Scan Document) : Scan (List String × Document) := do
  let k ← key
  if ← accept ['='] then
    skip isGap
    return (k, ← value)
  fail .noEqualsSign

/-- The further items of an array, after the items `done`, latest first; every round takes a character. -/
def arrayFrom (value : Scan Document) : Nat → List Document → Scan Document
  | 0, _ => fail .unclosedArray
  | fuel + 1, done => do
    skipSpace
    if ← accept [']'] then return .list done.reverse
    let done := (← value) :: done
    skipSpace
    if ← accept [']'] then return .list done.reverse
    if ← accept [','] then arrayFrom value fuel done else fail .unclosedArray

/-- Adds an entry to an inline table; the containers in `closed` cannot be added to. -/
def addInline (closed : List (List String)) (fields : Fields) (k : List String) (v : Document) : Scan Fields := do
  if closed.any (leadsTo · k) then fail (.immutable k)
  let stem := k.getLast?.getD ""
  match changeTable false some k.dropLast fields with
  | none => fail .overwritten
  | some _ =>
    let add (inner : Fields) : Option Fields :=
      if (fieldOf? inner stem).isSome then none else some (Document.setField stem v inner)
    match changeTable false add k.dropLast fields with
    | none => fail (.duplicateKey stem)
    | some fields => return fields

def inlineFrom (value : Scan Document) : Nat → List (List String) → Fields → Scan Document
  | 0, _, _ => fail .unclosedTable
  | fuel + 1, closed, fields => do
    let (k, v) ← pair value
    let fields ← addInline closed fields k v
    skip isGap
    if ← accept ['\x7d'] then return .table fields
    if ← accept [','] then
      skip isGap
      inlineFrom value fuel (if isContainer v then k :: closed else closed) fields
    else fail .unclosedTable

def inlineTable (value : Scan Document) : Scan Document := do
  skip isGap
  if ← accept ['\x7d'] then return .table []
  inlineFrom value ((← get).length + 1) [] []

def specialNumbers : List (List Char × Number.Binary64) :=
  [("inf".toList, .infinite false), ("nan".toList, .undefined), ("-inf".toList, .infinite true),
    ("+inf".toList, .infinite false), ("-nan".toList, .undefined), ("+nan".toList, .undefined)]

/-- A date, time or number. No settings hold dates or times: they are read, and have no value. -/
def scalar : Scan Document := do
  let rest ← get
  match dateTime rest with
  | some (text, after) =>
    if !isCalendarDate text then fail .invalidDate
    set after
    return .null
  | none =>
    match time rest with
    | some (_, after) =>
      set after
      return .null
    | none =>
      match number? rest with
      | some (.ok d, after) =>
        set after
        return d
      | some (.error reason, _) => fail reason
      | none =>
        match specialNumbers.find? (·.1.isPrefixOf rest) with
        | some (word, x) =>
          set (rest.drop word.length)
          return .float x
        | none => fail .invalidValue

def valueFrom : Nat → Scan Document
  | 0 => fail .invalidValue
  | fuel + 1 => do
    if ← accept ['"', '"', '"'] then return .text (← multilineString '"')
    if ← accept ['"'] then return .text (← quotedString false)
    if ← accept ['\'', '\'', '\''] then return .text (← multilineString '\'')
    if ← accept ['\''] then return .text (← literalString)
    if ← accept "true".toList then return .bool true
    if ← accept "false".toList then return .bool false
    if ← accept ['['] then return ← arrayFrom (valueFrom fuel) ((← get).length + 1) []
    if ← accept ['\x7b'] then return ← inlineTable (valueFrom fuel)
    scalar

def value : Scan Document := do valueFrom ((← get).length + 1)

end Concordance.Toml
