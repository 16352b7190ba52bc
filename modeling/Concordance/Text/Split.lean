/-!
# Splitting text

Cutting a text at every occurrence of a character, and the inverse. Main statement: `intercalate_split` says that
joining the pieces again gives the text back.
-/

namespace Concordance.Text

/-- The pieces of a text between the occurrences of `sep`; there is always at least one. -/
def split (sep : Char) : List Char → List (List Char)
  | [] => [[]]
  | c :: rest =>
    if c = sep then [] :: split sep rest
    else
      match split sep rest with
      | [] => [[c]]
      | piece :: pieces => (c :: piece) :: pieces

theorem split_ne_nil (sep : Char) (cs : List Char) : split sep cs ≠ [] := by
  cases cs with
  | nil => simp [split]
  | cons c rest =>
    by_cases h : c = sep
    · simp [split, h]
    · rw [split, if_neg h]
      split <;> simp

theorem intercalate_split (sep : Char) (cs : List Char) :
    [sep].intercalate (split sep cs) = cs := by
  induction cs with
  | nil => simp [split, List.intercalate]
  | cons c rest ih =>
    obtain ⟨p, ps, h⟩ := List.exists_cons_of_ne_nil (split_ne_nil sep rest)
    rw [h] at ih
    by_cases hc : c = sep
    · subst hc
      rw [split, if_pos rfl, h]
      simpa [List.intercalate, List.intersperse] using ih
    · rw [split, if_neg hc, h]
      cases ps with
      | nil => simpa [List.intercalate] using ih
      | cons q qs => simpa [List.intercalate] using ih

def fields (sep : Char) (s : String) : List String :=
  (split sep s.toList).map String.ofList

end Concordance.Text
