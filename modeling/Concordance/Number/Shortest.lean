import Concordance.Number.Binary64

/-!
# Shortest decimal text

The text of a binary number: the fewest decimal digits that read back as the number, and of those the nearest to it.
-/

namespace Concordance.Number

namespace Ratio

def belowTenTo (x : Ratio) (exponent : Int) : Bool :=
  x.num * Nat.pow 10 (-exponent).toNat < Nat.pow 10 exponent.toNat * x.den

/-- The greatest power of ten that a positive quotient is not less than. -/
def decimalExponent (x : Ratio) : Int :=
  let binary : Int := (x.num.log2 : Int) - x.den.log2
  let guess := binary * 30103 / 100000
  if x.belowTenTo guess then guess - 1 else if x.belowTenTo (guess + 1) then guess else guess + 1

end Ratio

/-- Decimal digits as a whole number, times a power of ten. -/
structure Scientific where
  digits : Nat
  exponent : Int
deriving DecidableEq, Repr, Inhabited

namespace Binary64

/-- The neighbours of a positive number among the numbers with the given count of decimal digits, the nearer one
first, and the even one if both are as near. -/
def neighbours (x : Ratio) (count : Nat) : List Scientific :=
  let exponent := x.decimalExponent - (count - 1 : Nat)
  let scaled := x.scaled 10 (-exponent)
  let low := scaled.num / scaled.den
  let candidates := if scaled.round = low then [low, low + 1] else [low + 1, low]
  candidates.map (⟨·, exponent⟩)

/-- The fewest digits that read back as a positive number; seventeen always do. -/
def shortest (significand : Nat) (exponent : Int) : Scientific :=
  let x := ratio significand exponent
  let readsBack (s : Scientific) : Bool := ofDecimal false s.digits s.exponent == ofRatio false x
  (((List.range 17).flatMap fun i => neighbours x (i + 1)).find? readsBack).getD ⟨x.num / x.den, 0⟩

end Binary64

namespace Scientific

def positional (digits : List Char) (point : Int) : List Char :=
  if point ≤ 0 then '0' :: '.' :: List.replicate (-point).toNat '0' ++ digits
  else
    let whole := digits.take point.toNat ++ List.replicate (point.toNat - digits.length) '0'
    let fraction := digits.drop point.toNat
    whole ++ '.' :: if fraction.isEmpty then ['0'] else fraction

def exponentText (exponent : Int) : List Char :=
  let digits := (toString exponent.natAbs).toList
  'e' :: (if exponent < 0 then '-' else '+') :: List.replicate (2 - digits.length) '0' ++ digits

def text (s : Scientific) : List Char :=
  let all := (toString s.digits).toList
  let digits := (all.reverse.dropWhile (· == '0')).reverse
  let point := s.exponent + all.length
  if -4 < point ∧ point ≤ 16 then positional digits point
  else
    let fraction := digits.drop 1
    digits.take 1 ++ (if fraction.isEmpty then [] else '.' :: fraction) ++ exponentText (point - 1)

end Scientific

def Binary64.text : Binary64 → String
  | finite negative significand exponent =>
    let magnitude := if significand = 0 then ['0', '.', '0'] else (shortest significand exponent).text
    String.ofList (if negative then '-' :: magnitude else magnitude)
  | infinite negative => if negative then "-Infinity" else "Infinity"
  | undefined => "NaN"

end Concordance.Number
