/-!
# Tables in insertion order

A finite map that remembers the order in which its keys came. Storing under a key that is present replaces the value and
keeps the key's place; erasing a key forgets its place.
-/

namespace Concordance

/-- A finite map with its keys in the order of their first insertion. -/
structure Table (κ β : Type) where
  entries : List (κ × β) := []
deriving Repr

namespace Table

variable {κ β : Type}

instance : Inhabited (Table κ β) := ⟨{}⟩

def keys (t : Table κ β) : List κ := t.entries.map Prod.fst

def values (t : Table κ β) : List β := t.entries.map Prod.snd

def size (t : Table κ β) : Nat := t.entries.length

variable [DecidableEq κ]

def get? (t : Table κ β) (k : κ) : Option β :=
  (t.entries.find? fun e => e.1 = k).map Prod.snd

def contains (t : Table κ β) (k : κ) : Bool := t.entries.any fun e => e.1 = k

/-- Replaces the value of the first entry with key `k`, or adds an entry at the end. -/
def insertEntry (k : κ) (v : β) : List (κ × β) → List (κ × β)
  | [] => [(k, v)]
  | e :: rest => if e.1 = k then (e.1, v) :: rest else e :: insertEntry k v rest

def insert (t : Table κ β) (k : κ) (v : β) : Table κ β :=
  ⟨insertEntry k v t.entries⟩

def erase (t : Table κ β) (k : κ) : Table κ β :=
  ⟨t.entries.filter fun e => e.1 ≠ k⟩

theorem find?_insertEntry_self (k : κ) (v : β) (es : List (κ × β)) :
    ((insertEntry k v es).find? fun e => e.1 = k) = some (k, v) := by
  induction es with
  | nil => simp [insertEntry]
  | cons e rest ih =>
    by_cases h : e.1 = k <;> simp [insertEntry, h, ih]

theorem find?_insertEntry_of_ne {k l : κ} (h : l ≠ k) (v : β) (es : List (κ × β)) :
    ((insertEntry k v es).find? fun e => e.1 = l) = es.find? fun e => e.1 = l := by
  induction es with
  | nil => simp [insertEntry, Ne.symm h]
  | cons e rest ih =>
    by_cases hk : e.1 = k
    · simp [insertEntry, hk, Ne.symm h]
    · by_cases hl : e.1 = l
      · simp [insertEntry, h, hl]
      · simp [insertEntry, hk, hl, ih]

@[simp] theorem get?_insert_self (t : Table κ β) (k : κ) (v : β) :
    (t.insert k v).get? k = some v := by
  simp [get?, insert, find?_insertEntry_self]

theorem get?_insert_of_ne {k l : κ} (h : l ≠ k) (t : Table κ β) (v : β) :
    (t.insert k v).get? l = t.get? l := by
  simp [get?, insert, find?_insertEntry_of_ne h]

end Table

end Concordance
