/-!
# Lines and columns

Byte offsets of a file as lines and columns, both counted from one. A line ends with a line feed.
-/

namespace Concordance

/-- The offsets at which the lines of a file start, in order. -/
structure LineMap where
  starts : List Nat
deriving DecidableEq, Repr, Inhabited

namespace LineMap

/-- The starts of the lines after the first, in bytes that stand at the given offset. -/
def startsFrom : Nat → List UInt8 → List Nat
  | _, [] => []
  | offset, b :: rest =>
    if b = 10 then (offset + 1) :: startsFrom (offset + 1) rest else startsFrom (offset + 1) rest

def ofBytes (bytes : List UInt8) : LineMap := ⟨0 :: startsFrom 0 bytes⟩

/-- The number of the line that an offset is in; an offset before the file is in line zero. -/
def lineOf (m : LineMap) (offset : Int) : Nat :=
  m.starts.countP fun start : Nat => decide ((start : Int) ≤ offset)

def startOf (m : LineMap) (line : Nat) : Nat :=
  match line with
  | 0 => m.starts.getLast?.getD 0
  | n + 1 => m.starts.getD n 0

def position (m : LineMap) (offset : Int) : Nat × Int :=
  let line := m.lineOf offset
  (line, offset - m.startOf line + 1)

end LineMap

end Concordance
