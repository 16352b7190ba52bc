import Concordance.Text.Quoted

/-!
# Bytes as text

The UTF-8 encoding. A row of bytes that is no text has a first mistake: a byte that starts no character, a
character that goes on with a wrong byte, or one that the end cuts off.
-/

namespace Concordance.Text.Utf8

/-- What is wrong with some bytes. -/
inductive Reason
  | invalidStart
  | invalidContinuation
  | unexpectedEnd
deriving DecidableEq, Repr, Inhabited

def Reason.text : Reason → String
  | invalidStart => "invalid start byte"
  | invalidContinuation => "invalid continuation byte"
  | unexpectedEnd => "unexpected end of data"

/-- A mistake in a row of bytes: the bytes that it takes up, and how many are before them. -/
structure Mistake where
  start : Nat
  bytes : List UInt8
  reason : Reason
deriving DecidableEq, Repr, Inhabited

def Mistake.message (m : Mistake) : String :=
  let place := match m.bytes with
    | [b] => "byte 0x" ++ String.ofList (hex 2 b.toNat) ++ s!" in position {m.start}"
    | bytes => s!"bytes in position {m.start}-{m.start + bytes.length - 1}"
  "'utf-8' codec can't decode " ++ place ++ ": " ++ m.reason.text

/-- How many bytes follow the first one of a character, and the value that the first one contributes. -/
def lead? (b : Nat) : Option (Nat × Nat) :=
  if b < 0x80 then some (0, b)
  else if b < 0xc2 then none
  else if b < 0xe0 then some (1, b - 0xc0)
  else if b < 0xf0 then some (2, b - 0xe0)
  else if b < 0xf5 then some (3, b - 0xf0)
  else none

/-- The least and greatest byte that may follow the first one of a character. -/
def secondRange (b : Nat) : Nat × Nat :=
  if b = 0xe0 then (0xa0, 0xbf)
  else if b = 0xed then (0x80, 0x9f)
  else if b = 0xf0 then (0x90, 0xbf)
  else if b = 0xf4 then (0x80, 0x8f)
  else (0x80, 0xbf)

/-- The value of a character of which `n` more bytes have to come, the next one in the given range, and what follows
it; or the bytes of the mistake. -/
def rest (taken : List UInt8) (value : Nat) (range : Nat × Nat) :
    Nat → List UInt8 → Except (List UInt8 × Reason) (Nat × List UInt8)
  | 0, bs => .ok (value, bs)
  | _ + 1, [] => .error (taken.reverse, .unexpectedEnd)
  | n + 1, b :: bs =>
    if range.1 ≤ b.toNat ∧ b.toNat ≤ range.2 then
      rest (b :: taken) (64 * value + (b.toNat - 0x80)) (0x80, 0xbf) n bs
    else .error (taken.reverse, .invalidContinuation)

def character (b : UInt8) (bs : List UInt8) : Except (List UInt8 × Reason) (Char × List UInt8) :=
  match lead? b.toNat with
  | none => .error ([b], .invalidStart)
  | some (more, value) =>
    (rest [b] value (secondRange b.toNat) more bs).map fun r => (Char.ofNat r.1, r.2)

/-- Reads bytes after the characters `done`, latest first; every round takes a byte. -/
def decodeFrom (size : Nat) : Nat → List Char → List UInt8 → Except Mistake String
  | 0, done, _ => .ok (String.ofList done.reverse)
  | _, done, [] => .ok (String.ofList done.reverse)
  | fuel + 1, done, b :: bs =>
    match character b bs with
    | .ok (c, left) => decodeFrom size fuel (c :: done) left
    | .error (bytes, reason) => .error ⟨size - (bs.length + 1), bytes, reason⟩

def decode (bytes : List UInt8) : Except Mistake String := decodeFrom bytes.length bytes.length [] bytes

end Concordance.Text.Utf8
