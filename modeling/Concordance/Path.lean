import Concordance.Text.Split

/-!
# Paths

Slash-separated paths: a root and segments. Empty segments and `.` vanish when a path is read, `..` stays
until the path is made canonical. A source file has a module name and a qualified name derived from its path.
-/

namespace Concordance

/-- A path: where it starts (`""` for a relative path) and its segments. -/
structure Path where
  root : String
  parts : List String
deriving DecidableEq, Repr, Inhabited

namespace Path

def top : Path := ⟨"/", []⟩

/-- The root that a number of leading slashes stands for: two are kept apart from one. -/
def rootOf (slashes : Nat) : String :=
  if slashes = 0 then "" else if slashes = 2 then "//" else "/"

def ofString (s : String) : Path :=
  let cs := s.toList
  ⟨rootOf (cs.takeWhile (· == '/')).length, (Text.fields '/' s).filter fun p => p ≠ "" ∧ p ≠ "."⟩

/-- A path with segments as they are read: none is empty, a dot or holds a slash. -/
def IsClean (p : Path) : Prop := ∀ s ∈ p.parts, s ≠ "" ∧ s ≠ "." ∧ '/' ∉ s.toList

instance (p : Path) : Decidable p.IsClean := inferInstanceAs (Decidable (∀ s ∈ p.parts, _))

def toString (p : Path) : String :=
  if p.root = "" && p.parts.isEmpty then "." else p.root ++ "/".intercalate p.parts

instance : ToString Path := ⟨Path.toString⟩

def isAbsolute (p : Path) : Bool := p.root ≠ ""

def name (p : Path) : String := p.parts.getLast?.getD ""

def parent (p : Path) : Path := { p with parts := p.parts.dropLast }

def child (p : Path) (segment : String) : Path := { p with parts := p.parts ++ [segment] }

def join (p q : Path) : Path :=
  if q.isAbsolute then q else { p with parts := p.parts ++ q.parts }

def withAncestors (p : Path) : List Path :=
  (List.range (p.parts.length + 1)).map fun n => { p with parts := p.parts.take (p.parts.length - n) }

def splitSuffix (name : String) : String × String :=
  let back := name.toList.reverse
  match back.span (· != '.') with
  | (_, []) | ([], _) | (_, ['.']) => (name, "")
  | (ext, _ :: stem) => (String.ofList stem.reverse, String.ofList ('.' :: ext.reverse))

def suffix (p : Path) : String := (splitSuffix p.name).2

def stem (p : Path) : String := (splitSuffix p.name).1

def withoutSuffix (p : Path) : Path := p.parent.child p.stem

def step (done : List String) (segment : String) : List String :=
  if segment = ".." then done.dropLast else done ++ [segment]

/-- The canonical form of a path as seen from the directory `here`: absolute and without `..`. -/
def canonical (here p : Path) : Path :=
  ⟨"/", (here.join p).parts.foldl step []⟩

def hasNull (p : Path) : Bool := p.parts.any fun s => s.toList.contains (Char.ofNat 0)

def isHidden (p : Path) : Bool :=
  p.name.toList.head? == some '.' && p.name ≠ ".."

/-- A path segment as part of a qualified name: dots separate segments there, so they are escaped. -/
def escapeDots (segment : String) : String :=
  String.ofList (segment.toList.flatMap fun c => if c = '.' then ['%', '2', '0'] else [c])

def packageFile : String := "__init__.py"

/-- The qualified name of the module stored in a file: its segments joined by dots, without the suffix, and
without the file's own name if it makes its directory a package. -/
def qualifiedName (p : Path) : String :=
  let named :=
    if p.name = packageFile then p.parent
    else if p.suffix = ".py" then p.withoutSuffix
    else p
  ".".intercalate (named.parts.map escapeDots)

def moduleName (p : Path) : String :=
  if p.name = packageFile then p.parent.name else p.stem

end Path

end Concordance
