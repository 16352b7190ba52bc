import Concordance.Digest
import Concordance.Table
import Concordance.Workspace

/-!
# Source units

A source unit is one parsed file. Parsing never fails silently: what has no tree yields a parse failure with
its reason. A cache keeps the units by path, so that a file is parsed once; running out of memory empties it.
-/

namespace Concordance

/-- Why a file has no tree. -/
structure ParseFailure where
  path : String
  reason : String
  line : Int := 0
  column : Int := 0
  outOfMemory : Bool := false
deriving DecidableEq, Repr, Inhabited

def ParseFailure.describe (f : ParseFailure) : String :=
  if f.line = 0 then f.reason else s!"{f.reason} (line {f.line}, column {f.column})"

def ParseFailure.memory (path : String) : ParseFailure :=
  ⟨path, (Fault.exhausted .memory).message, 0, 0, true⟩

structure SourceUnit where
  /-- Tells this parse from every other one of the session. -/
  number : Nat
  path : String
  content : ByteArray
  tree : Syntax.Module
deriving Inhabited

def SourceUnit.digest (u : SourceUnit) : String := Digest.sha1 u.content

structure UnitCache where
  units : Table String SourceUnit := {}
  parses : Nat := 0
  weight : Nat := 0
deriving Inhabited

/-- A parse gives a unit or a failure, unless a fault ends it. -/
abbrev Parsing := ExceptT Fault (StateM UnitCache) (Except ParseFailure SourceUnit)

namespace UnitCache

def clear (c : UnitCache) : UnitCache := { c with units := {} }

/-- Parses a text as the content of a path and keeps the unit. -/
def parse (shortage : Option Resource) (path : String) (content : ByteArray) (outcome : ParseOutcome) :
    Parsing := do
  match shortage, outcome with
  | some .nesting, _ => return .error ⟨path, "nesting too deep to parse", 0, 0, false⟩
  | some .memory, _ =>
    modify clear
    return .error (.memory path)
  | none, .failure reason line column => return .error ⟨path, reason, line, column, false⟩
  | none, .invalid => throw .invalidTree
  | none, .tree module =>
    let unit : SourceUnit := ⟨(← get).parses, path, content, module⟩
    modify fun c => ⟨c.units.insert path unit, c.parses + 1, c.weight + module.size⟩
    return .ok unit

/-- The unit of a path, read and parsed on first use. A file that is no text fails before it is parsed. -/
def read (shortage : Option Resource) (w : Workspace) (path : String) : Parsing := do
  match (← get).units.get? path with
  | some unit => return .ok unit
  | none =>
    match w.read (Path.ofString path) with
    | .error .nullCharacter => throw .nullCharacter
    | .error e =>
      return .error ⟨path, "cannot read file: " ++ e.message (Path.ofString path), 0, 0, false⟩
    | .ok file =>
      let source := file.source
      if source.validateUTF8 then parse shortage path source file.outcome
      else match file.outcome with
        | .failure reason line column => return .error ⟨path, reason, line, column, false⟩
        | _ => return .error ⟨path, "cannot read file: no text", 0, 0, false⟩

end UnitCache

end Concordance
