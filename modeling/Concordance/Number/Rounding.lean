/-!
# Rounding

Quotients rounded to whole numbers, to a number of decimal places and to the nearest number with a binary
significand of 53 bits, all in exact arithmetic. A half goes to the even neighbour.
-/

namespace Concordance.Number

/-- A quotient of two natural numbers. -/
structure Ratio where
  num : Nat
  den : Nat
deriving DecidableEq, Repr, Inhabited

namespace Ratio

def round (x : Ratio) : Nat :=
  let whole := x.num / x.den
  let rest := x.num % x.den
  if 2 * rest < x.den then whole
  else if x.den < 2 * rest then whole + 1
  else if whole % 2 = 0 then whole else whole + 1

def times (x : Ratio) (n : Nat) : Ratio := ⟨x.num * n, x.den⟩

def precision : Nat := 53

def nearestBinary (x : Ratio) : Ratio :=
  if x.num = 0 then ⟨0, 1⟩
  else
    -- Scaled by a power of two so that the whole part has 53 digits, or 54 before one is dropped.
    let up := precision + x.den.log2
    let down := x.num.log2
    let scaled : Ratio := ⟨x.num * Nat.pow 2 up, x.den * Nat.pow 2 down⟩
    let down := if scaled.num / scaled.den < Nat.pow 2 precision then down else down + 1
    let significand := Ratio.round ⟨x.num * Nat.pow 2 up, x.den * Nat.pow 2 down⟩
    ⟨significand * Nat.pow 2 down, Nat.pow 2 up⟩

def units (x : Ratio) (places : Nat) : Nat := (x.times (Nat.pow 10 places)).round

end Ratio

/-- The text of a number of hundredths or other units with that many decimal places. -/
def fixedText (units places : Nat) : String :=
  let fraction := toString (units % Nat.pow 10 places)
  let zeros := String.ofList (List.replicate (places - fraction.length) '0')
  toString (units / Nat.pow 10 places) ++ "." ++ zeros ++ fraction

end Concordance.Number
