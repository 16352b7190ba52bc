import Concordance.Log
import Concordance.Text.Utf8
import Concordance.Toml.Read
import Concordance.Validation
import Concordance.Workspace

/-!
# Settings

What an analysis can be told: from the nearest settings file above a directory, and from explicit values,
which win. Search paths in a settings file are relative to the directory of the file.
-/

namespace Concordance

structure Settings where
  searchPaths : List String := []
  /-- Whether the environment's search variable counts as well. -/
  useSearchVariable : Bool := true
  /-- Whether names that are never used are reported. -/
  reportUnused : Bool := true
  /-- Patterns of files and directories to leave out. -/
  excludes : List String := []
  maxErrorsShown : Nat := 50
  /-- Whether a search path that is no directory is an error. -/
  strictPaths : Bool := false
deriving DecidableEq, Repr, Inhabited

/-- Why there are no settings. -/
inductive SettingsError
  | rejected (errors : List FieldError)
  /-- The settings file has something other than a table where its tables are. -/
  | noTable
  /-- The settings file has something other than a row of texts where a row is read. -/
  | noRow
  | undecodable (mistake : Text.Utf8.Mistake)
  /-- The settings file has a whole number with too many decimal digits. -/
  | oversized (digits : Nat)
  | fault (fault : Fault)
deriving Inhabited

/-- A settings file that was left aside because it could not be read. -/
structure Unreadable where
  path : Path
  reason : String
deriving DecidableEq, Repr, Inhabited

namespace Settings

def limit (d : Document) : Except Rejection Nat :=
  match Validation.integer d with
  | .error r => .error r
  | .ok n => if n < 0 then .error (.negative "max_errors_shown" n) else .ok n.toNat

def path (d : Document) : Except Rejection String :=
  match d with
  | .text s => .ok (Path.ofString s).toString
  | _ => .error .notPath

/-- Settings from the fields of a document; absent fields have their usual value. -/
def ofDocument (d : Document) : Validation.Check Settings :=
  let flag (name : String) (usual : Bool) : Validation.Check Bool :=
    Validation.optional name usual (Validation.field name Validation.boolean) d
  let fields := Validation.both (Validation.optional "search_paths" [] (Validation.list "search_paths" path) d)
    (Validation.both (flag "use_pythonpath" true)
      (Validation.both (flag "report_unused" true)
        (Validation.both (Validation.optional "excludes" [] (Validation.list "excludes" Validation.text) d)
          (Validation.both (Validation.optional "max_errors_shown" 50 (Validation.field "max_errors_shown" limit) d)
            (flag "strict_paths" false)))))
  fields.map fun ⟨paths, variable', unused, excludes, shown, strict⟩ =>
    ⟨paths, variable', unused, excludes, shown, strict⟩

/-- Settings from the fields of a document, or the reason why there are none. -/
def fromDocument (d : Document) : Except SettingsError Settings :=
  match ofDocument d with
  | .ok s => .ok s
  | .error es => .error (.rejected es)

def fileName : String := "pyproject.toml"

def firstFile (w : Workspace) : List Path → Except Fault (Option (Path × File))
  | [] => .ok none
  | dir :: rest =>
    match w.lookup (dir.child fileName) with
    | .ok (.file f) => .ok (some (dir, f))
    | .error .nameTooLong => .error .nameTooLong
    | _ => firstFile w rest

def findFile (w : Workspace) (start : Path) : Except Fault (Option (Path × File)) :=
  firstFile w start.withAncestors

def subtable (d : Document) (name : String) : Except SettingsError Document :=
  match d with
  | .table _ => .ok ((d.field? name).getD (.table []))
  | _ => .error .noTable

/-- Work that can end in an error of the settings. -/
abbrev Finding := Except SettingsError

def orFault {α : Type} (result : Except Fault α) : Finding α :=
  match result with
  | .ok a => .ok a
  | .error f => .error (.fault f)

/-- The document in a settings file; or what breaks the rules of the format, for which the file is left aside. -/
def documentOf (file : File) : Finding (Except String Document) :=
  match Text.Utf8.decode file.content.toList with
  | .error m => .error (.undecodable m)
  | .ok text => match Toml.read text with
    | .ok d => .ok (.ok d)
    | .error (.mistake message) => .ok (.error message)
    | .error (.oversized digits) => .error (.oversized digits)

def tableOf (d : Document) : Finding Document := do
  let table ← subtable (← subtable d "tool") "pyxref"
  match table with
  | .table _ => return table
  | _ => throw .noTable

/-- What a directory's settings file says. -/
inductive Found
  | nothing
  | unreadable (file : Unreadable)
  /-- The document in a file of the given directory. -/
  | document (document : Document) (directory : Path)
deriving Inhabited

def find (w : Workspace) (start : Path) : Finding Found := do
  match ← orFault (do findFile w (← w.resolved start)) with
  | none => return .nothing
  | some (dir, file) =>
    match ← documentOf file with
    | .ok d => return .document d dir
    | .error reason => return .unreadable ⟨dir.child fileName, reason⟩

def Found.table : Found → Finding (Document × Option Path)
  | .document d dir => return (← tableOf d, some dir)
  | _ => return (.table [], none)

/-- The members of a value that is gone through one by one: the items of a list, the characters of a text, the
keys of a table. -/
def rowOf : Document → Except SettingsError (List Document)
  | .list ds => .ok ds
  | .text s => .ok (s.toList.map fun c => .text (String.ofList [c]))
  | .table fs => .ok (fs.map fun f => .text f.1)
  | _ => .error .noRow

def rowOfOption : Option Document → Except SettingsError (List Document)
  | none | some .null | some (.bool false) | some (.int 0) => .ok []
  | some (.float x) => if x.isZero then .ok [] else .error .noRow
  | some d => rowOf d

def anchored (w : Workspace) (dir : Option Path) (d : Document) : Except SettingsError Document :=
  match d with
  | .text s =>
    let p := Path.ofString s
    let from' := match dir with
      | some dir => dir.join p
      | none => p
    (orFault (w.resolved from')).map fun p => .text p.toString
  | _ => .error .noRow

def given (args : Document) (name : String) : Option Document :=
  match args.field? name with
  | some .null | none => none
  | some d => some d

/-- The fields of the settings: the rows, and of the others the given value or else the one in the file. -/
def combined (table args : Document) (paths excludes : List Document) : Document :=
  let picked (name : String) : List (String × Document) :=
    ((given args name).or (table.field? name)).toList.map fun d => (name, d)
  .table (("search_paths", .list paths) :: ("excludes", .list excludes) ::
    ["use_pythonpath", "report_unused", "max_errors_shown", "strict_paths"].flatMap picked)

/-- The settings that apply where something was found, with explicit values given as fields of a document. -/
def merge (w : Workspace) (found : Found) (args : Document) : Finding Settings := do
  let (table, dir) ← found.table
  let filePaths ← (← rowOf ((table.field? "search_paths").getD (.list []))).mapM (anchored w dir)
  let givenPaths ← (← rowOfOption (given args "search_paths")).mapM (anchored w none)
  let fileExcludes ← rowOf ((table.field? "excludes").getD (.list []))
  let givenExcludes ← rowOfOption (given args "excludes")
  fromDocument (combined table args (filePaths ++ givenPaths) (fileExcludes ++ givenExcludes))

def Found.entry? : Found → Option LogEntry
  | .unreadable u => some ⟨.warning, "ignoring unreadable " ++ u.path.toString ++ ": " ++ u.reason⟩
  | _ => none

def Found.lines (found : Found) : Finding (List String) :=
  match found.entry? with
  | none => .ok []
  | some e => match e.lines? with
    | some lines => .ok lines
    | none => .error (.fault .badMarkup)

/-- The settings that apply in a directory, with explicit values given as fields of a document; and the lines to be
shown before they are used, which are there even if there are no settings. -/
def load (w : Workspace) (start : Path) (args : Document) : Finding Settings × List String :=
  match find w start with
  | .error e => (.error e, [])
  | .ok found => match found.lines with
    | .error e => (.error e, [])
    | .ok lines => (merge w found args, lines)

end Settings

end Concordance
