import Concordance.Document
import Concordance.Validation.Integer

/-!
# Validation of fields

Fields that come from outside are taken leniently: a number may be written as text, a truth value as a word, a whole
number with a zero fraction.
-/

namespace Concordance

/-- A mistake, where it is (a field, or an item of a field), and the value that was given there. -/
structure FieldError where
  place : List String
  rejection : Rejection
  input : Document
deriving Inhabited

namespace Validation

/-- The whole numbers of 64 bits lie between the negative of this one and it. -/
def wordBound : Int := Nat.pow 2 63

/-- Takes a binary number as a whole one. It must have no fraction and lie between the bounds of 64 bits. -/
def integerOfFloat (x : Number.Binary64) : Except Rejection Int :=
  match x with
  | .finite .. => match x.whole? with
    | none => .error .fraction
    | some n => if -wordBound < n ∧ n < wordBound then .ok n else .error .oversizedInteger
  | _ => .error .notFinite

def integer : Document → Except Rejection Int
  | .bool b => .ok (if b then 1 else 0)
  | .int n => .ok n
  | .float x => integerOfFloat x
  | .text s => integerOfText s
  | _ => .error .notInteger

def booleanWords : List (String × Bool) :=
  [("0", false), ("off", false), ("f", false), ("false", false), ("n", false), ("no", false),
    ("1", true), ("on", true), ("t", true), ("true", true), ("y", true), ("yes", true)]

def booleanOfInteger (n : Int) : Except Rejection Bool :=
  if n = 0 then .ok false else if n = 1 then .ok true else .error .unreadableBoolean

/-- Takes a truth value. A number that is no whole one of 64 bits is of the wrong kind. -/
def boolean : Document → Except Rejection Bool
  | .bool b => .ok b
  | .int n => if -wordBound ≤ n ∧ n < wordBound then booleanOfInteger n else .error .notBoolean
  | .float x => match integerOfFloat x with
    | .ok n => booleanOfInteger n
    | .error _ => .error .notBoolean
  | .text s =>
    let lower := String.ofList (s.toList.map Char.toLower)
    match booleanWords.find? fun w => w.1 == lower with
    | some (_, b) => .ok b
    | none => .error .unreadableBoolean
  | _ => .error .notBoolean

def text : Document → Except Rejection String
  | .text s => .ok s
  | _ => .error .notText

def tag {α : Type} (ofText? : String → Option α) (d : Document) : Except Rejection α :=
  match d.text?.bind ofText? with
  | some a => .ok a
  | none => .error .unknownTag

/-- Gathers the results of checking fields: values, or the mistakes in order. -/
abbrev Check (α : Type) := Except (List FieldError) α

def both {α β : Type} (a : Check α) (b : Check β) : Check (α × β) :=
  match a, b with
  | .ok x, .ok y => .ok (x, y)
  | .error e, .error f => .error (e ++ f)
  | .error e, .ok _ => .error e
  | .ok _, .error f => .error f

def field {α : Type} (name : String) (check : Document → Except Rejection α) (d : Document) : Check α :=
  match check d with
  | .ok a => .ok a
  | .error r => .error [⟨[name], r, d⟩]

/-- A field that can be absent, in which case it has its usual value. -/
def optional {α : Type} (name : String) (usual : α) (check : Document → Check α) (d : Document) : Check α :=
  match d.field? name with
  | some v => check v
  | none => .ok usual

def itemsFrom {α : Type} (name : String) (check : Document → Except Rejection α) :
    Nat → List Document → Check (List α)
  | _, [] => .ok []
  | i, d :: rest =>
    let first : Check α := match check d with
      | .ok a => .ok a
      | .error r => .error [⟨[name, toString i], r, d⟩]
    (both first (itemsFrom name check (i + 1) rest)).map fun r => r.1 :: r.2

def list {α : Type} (name : String) (check : Document → Except Rejection α) : Document → Check (List α)
  | .list ds => itemsFrom name check 0 ds
  | d => .error [⟨[name], .notList, d⟩]

end Validation

end Concordance
