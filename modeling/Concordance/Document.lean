import Concordance.Number.Binary64

/-!
# Documents

Data as a settings file or an exchange format carries it: null, truth values, whole and binary numbers, text,
lists and tables.
-/

namespace Concordance

inductive Document
  | null
  | bool (value : Bool)
  | int (value : Int)
  | float (value : Number.Binary64)
  | text (value : String)
  | list (items : List Document)
  | table (fields : List (String × Document))
deriving Inhabited

namespace Document

def nat (n : Nat) : Document := int n

/-- The fields of a table with one set; a field that is there already keeps its place. -/
def setField (name : String) (value : Document) : List (String × Document) → List (String × Document)
  | [] => [(name, value)]
  | f :: rest => if f.1 == name then (name, value) :: rest else f :: setField name value rest

/-- The table with the given fields; of several with one name the last one counts. -/
def ofFields (fields : List (String × Document)) : Document :=
  table (fields.foldl (fun done f => setField f.1 f.2 done) [])

def field? (d : Document) (name : String) : Option Document :=
  match d with
  | table fields => (fields.find? fun f => f.1 == name).map Prod.snd
  | _ => none

def items : Document → List Document
  | list ds => ds
  | _ => []

def text? : Document → Option String
  | text s => some s
  | _ => none

def bool? : Document → Option Bool
  | bool b => some b
  | _ => none

def int? : Document → Option Int
  | int n => some n
  | _ => none

mutual

def depth : Document → Nat
  | list ds => depthOfItems ds + 1
  | table fs => depthOfFields fs + 1
  | _ => 1
termination_by structural d => d

def depthOfItems : List Document → Nat
  | [] => 0
  | d :: ds => max d.depth (depthOfItems ds)
termination_by structural ds => ds

def depthOfFields : List (String × Document) → Nat
  | [] => 0
  | (_, d) :: fs => max d.depth (depthOfFields fs)
termination_by structural fs => fs

end

end Document

end Concordance
