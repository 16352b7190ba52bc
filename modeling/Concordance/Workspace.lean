import Concordance.Fault
import Concordance.Path
import Concordance.Syntax.Module
import Concordance.Text.Quoted

/-!
# Workspaces

The files and directories that an analysis can see, each source file together with what the parser makes of
it. Entries of a directory are kept in the order of their names.
-/

namespace Concordance

/-- What the parser makes of a source text. -/
inductive ParseOutcome
  | tree (module : Syntax.Module)
  | failure (reason : String) (line column : Int)
  /-- The parser ends with an error of its own that no one handles. -/
  | invalid
deriving Inhabited

structure File where
  content : ByteArray
  outcome : ParseOutcome
deriving Inhabited

/-- A text as it is read: every line ends with a line feed, whichever mark the file uses. -/
def normalizeLineEnds : List UInt8 → List UInt8
  | [] => []
  | 13 :: 10 :: rest => 10 :: normalizeLineEnds rest
  | 13 :: rest => 10 :: normalizeLineEnds rest
  | b :: rest => b :: normalizeLineEnds rest

def File.source (f : File) : ByteArray := ⟨(normalizeLineEnds f.content.toList).toArray⟩

inductive Node
  | file (file : File)
  | directory (entries : List (String × Node))
deriving Inhabited

namespace Node

def isFile : Node → Bool
  | file _ => true
  | directory _ => false

def isDirectory (n : Node) : Bool := !n.isFile

/-- Changes the entry with the given name (none if absent), keeping the order of names. -/
def updateEntry (name : String) (change : Option Node → Node) : List (String × Node) → List (String × Node)
  | [] => [(name, change none)]
  | (n, node) :: rest =>
    if n = name then (n, change (some node)) :: rest
    else if name < n then (name, change none) :: (n, node) :: rest
    else (n, node) :: updateEntry name change rest

/-- Puts a node at the end of a path below this one, with the directories that it needs. -/
def put (leaf : Node) : List String → Node → Node
  | [], old => match leaf, old with
    | directory [], directory es => directory es
    | _, _ => leaf
  | segment :: rest, old =>
    let entries := match old with
      | directory es => es
      | file _ => []
    directory (updateEntry segment (fun inner => put leaf rest (inner.getD (directory []))) entries)

end Node

inductive ReadError
  | missing
  | notDirectory
  | isDirectory
  | nameTooLong
  | nullCharacter
deriving DecidableEq, Repr, Inhabited

def ReadError.message (path : Path) : ReadError → String
  | missing => "[Errno 2] No such file or directory: " ++ Text.quoted path.toString
  | notDirectory => "[Errno 20] Not a directory: " ++ Text.quoted path.toString
  | isDirectory => "[Errno 21] Is a directory: " ++ Text.quoted path.toString
  | nameTooLong => "[Errno 36] File name too long: " ++ Text.quoted path.toString
  | nullCharacter => Fault.nullCharacter.message

/-- The files that an analysis can see. -/
structure Workspace where
  top : Node
  here : Path
  /-- The directories in the environment's module search variable, if it is set. -/
  searchVariable : Option (List String)
  /-- The current directory is a path as it is read. -/
  clean : here.IsClean

namespace Workspace

def home : Path := ⟨"/", ["w"]⟩

/-- A workspace with the given files and further directories, named relative to the current directory. -/
def ofFiles (files : List (String × File)) (directories : List String) (searchVariable : Option (List String)) :
    Workspace :=
  let place (name : String) := (Path.canonical home (Path.ofString name)).parts
  let empty := Node.put (.directory []) home.parts (.directory [])
  let withDirectories := directories.foldl (fun n d => Node.put (.directory []) (place d) n) empty
  ⟨files.foldl (fun n f => Node.put (.file f.2) (place f.1) n) withDirectories, home, searchVariable, by decide⟩

instance : Inhabited Workspace := ⟨ofFiles [] [] none⟩

def longestName : Nat := 255

def longestPath : Nat := 4095

/-- Follows path segments from the innermost of a chain of nested directories. -/
def follow : List Node → List String → Except ReadError Node
  | [], _ => .error .missing
  | node :: _, [] => .ok node
  | node :: above, segment :: rest =>
    match node with
    | .file _ => .error .notDirectory
    | .directory entries =>
      if segment = ".." then follow (if above.isEmpty then [node] else above) rest
      else if longestName < segment.utf8ByteSize then .error .nameTooLong
      else match entries.find? fun e => e.1 == segment with
        | none => .error .missing
        | some (_, inner) => follow (inner :: node :: above) rest

def lookup (w : Workspace) (p : Path) : Except ReadError Node :=
  if p.hasNull then .error .nullCharacter
  else if longestPath < p.toString.utf8ByteSize then .error .nameTooLong
  else follow [w.top] (w.here.join p).parts

def isFile (w : Workspace) (p : Path) : Bool :=
  match w.lookup p with
  | .ok (.file _) => true
  | _ => false

def isDirectory (w : Workspace) (p : Path) : Bool :=
  match w.lookup p with
  | .ok (.directory _) => true
  | _ => false

/-- Whether a path leads to a node that passes a test. There is no answer for a path that is too long. -/
def probe (w : Workspace) (test : Node → Bool) (p : Path) : Except Fault Bool :=
  match w.lookup p with
  | .ok node => .ok (test node)
  | .error .nameTooLong => .error .nameTooLong
  | .error _ => .ok false

def read (w : Workspace) (p : Path) : Except ReadError File :=
  match w.lookup p with
  | .ok (.file f) => .ok f
  | .ok (.directory _) => .error .isDirectory
  | .error e => .error e

/-- The canonical form of a path given as text. What is left of the path may hold no null character. -/
def canonical (w : Workspace) (path : String) : Except Fault Path :=
  let p := Path.canonical w.here (Path.ofString path)
  if p.hasNull then .error .nullCharacter else .ok p

def resolved (w : Workspace) (p : Path) : Except Fault Path :=
  if p.hasNull then .error .nullCharacter else .ok (Path.canonical w.here p)

end Workspace

namespace Node

mutual

def weight : Node → Nat
  | file f => match f.outcome with
    | .tree m => m.size + 1
    | _ => 1
  | directory entries => weightOfEntries entries + 1
termination_by structural n => n

def weightOfEntries : List (String × Node) → Nat
  | [] => 0
  | (_, n) :: rest => n.weight + weightOfEntries rest
termination_by structural es => es

end

def fileNames (entries : List (String × Node)) : List String :=
  entries.filterMap fun e => match e.2 with
    | file _ => some e.1
    | directory _ => none

mutual

/-- The files in a node that pass the tests for files and directories, both given the path from the start of the walk.
-/
def files (keepFile keepDirectory : Path → Bool) (here : Path) : Node → List Path
  | file _ => []
  | directory entries =>
    ((fileNames entries).map here.child).filter keepFile
      ++ filesBelow keepFile keepDirectory here entries
termination_by structural n => n

def filesBelow (keepFile keepDirectory : Path → Bool) (here : Path) : List (String × Node) → List Path
  | [] => []
  | (name, node) :: rest =>
    (if keepDirectory (here.child name) then node.files keepFile keepDirectory (here.child name) else [])
      ++ filesBelow keepFile keepDirectory here rest
termination_by structural es => es

end

end Node

end Concordance
