/-!
# Blanks

The blanks of all scripts, and texts without the blanks around them.
-/

namespace Concordance.Text

/-- Whether a character is white space: a space, a tab or line end, or a blank of another script. -/
def isWhiteSpace (c : Char) : Bool :=
  let n := c.toNat
  n == 0x20 || (0x9 ≤ n && n ≤ 0xd) || n == 0x85 || n == 0xa0 || n == 0x1680 || (0x2000 ≤ n && n ≤ 0x200a)
    || n == 0x2028 || n == 0x2029 || n == 0x202f || n == 0x205f || n == 0x3000

/-- Whether a character counts as a blank: white space, or one of the four separators among the controls. -/
def isBlank (c : Char) : Bool := isWhiteSpace c || (0x1c ≤ c.toNat && c.toNat ≤ 0x1f)

def trimWhile (skipped : Char → Bool) (cs : List Char) : List Char :=
  ((cs.dropWhile skipped).reverse.dropWhile skipped).reverse

def trim (s : String) : String := String.ofList (trimWhile isBlank s.toList)

def words (cs : List Char) : List (List Char) :=
  (cs.splitBy fun a b => isBlank a == isBlank b).filter fun w => !w.all isBlank

def collapseSpaces : List Char → List Char
  | ' ' :: ' ' :: rest => collapseSpaces (' ' :: rest)
  | c :: rest => c :: collapseSpaces rest
  | [] => []

end Concordance.Text
