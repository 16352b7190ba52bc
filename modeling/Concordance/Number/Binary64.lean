import Concordance.Number.Rounding

/-!
# Binary numbers of 64 bits

The numbers of the binary64 format: a significand of at most 53 binary digits times a power of two, the two infinities
and the undefined number.
-/

namespace Concordance.Number

/-- A number of the binary64 format. -/
inductive Binary64
  /-- The number `significand * 2 ^ exponent`, or its negative. -/
  | finite (negative : Bool) (significand : Nat) (exponent : Int)
  | infinite (negative : Bool)
  | undefined
deriving DecidableEq, Repr, Inhabited

def Ratio.scaled (x : Ratio) (base : Nat) (exponent : Int) : Ratio :=
  ⟨x.num * Nat.pow base exponent.toNat, x.den * Nat.pow base (-exponent).toNat⟩

namespace Binary64

def leastExponent : Int := -1074

def greatestExponent : Int := 971

/-- The exponent that leaves a positive quotient a whole part of at most 53 binary digits, and one of exactly
so many unless that is below the least exponent. -/
def exponentOf (x : Ratio) : Int :=
  let low : Int := (x.num.log2 : Int) - x.den.log2 - Ratio.precision
  let scaled := x.scaled 2 (-low)
  max leastExponent (if scaled.num / scaled.den < Nat.pow 2 Ratio.precision then low else low + 1)

def ofRatio (negative : Bool) (x : Ratio) : Binary64 :=
  if x.num = 0 then finite negative 0 leastExponent
  else
    let exponent := exponentOf x
    let significand := (x.scaled 2 (-exponent)).round
    -- Rounding can give a significand one more digit, the last of which is zero.
    let (significand, exponent) :=
      if significand < Nat.pow 2 Ratio.precision then (significand, exponent) else (significand / 2, exponent + 1)
    if exponent ≤ greatestExponent then finite negative significand exponent else infinite negative

def decimalCeiling : Int := 310

def decimalFloor : Int := -330

/-- The nearest number to `mantissa * 10 ^ exponent`, or to its negative. -/
def ofDecimal (negative : Bool) (mantissa : Nat) (exponent : Int) : Binary64 :=
  if mantissa = 0 || (mantissa.log2 / 3 + 1 : Nat) + exponent < decimalFloor then finite negative 0 leastExponent
  else if decimalCeiling < (mantissa.log2 / 4 : Nat) + exponent then infinite negative
  else ofRatio negative ((Ratio.mk mantissa 1).scaled 10 exponent)

def ratio (significand : Nat) (exponent : Int) : Ratio := (Ratio.mk significand 1).scaled 2 exponent

def isZero : Binary64 → Bool
  | finite _ significand _ => significand == 0
  | _ => false

def whole? : Binary64 → Option Int
  | finite negative significand exponent =>
    let x := ratio significand exponent
    if x.num % x.den = 0 then
      let n : Int := (x.num / x.den : Nat)
      some (if negative then -n else n)
    else none
  | _ => none

end Binary64

end Concordance.Number
