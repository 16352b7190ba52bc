/-!
# Sets of characters

Sets of code points as rows of lengths: how many in a row are not in the set, how many after them are, and so on in
turn.
-/

namespace Concordance.Text

/-- The lengths of the runs of code points outside and inside a set, in turn. -/
abbrev CodeRuns := List Nat

def CodeRuns.covers : CodeRuns → Nat → Bool
  | outside :: inside :: rest, n =>
    if n < outside then false
    else if n < outside + inside then true
    else covers rest (n - (outside + inside))
  | _, _ => false

end Concordance.Text
