import Concordance.Kind
import Concordance.Validation

/-!
# Diagnostics

Problems found by the analysis, each at a span of a file. A registry keeps them in the order in which they
were reported and lists them file by file, the files in the order of their names.
-/

namespace Concordance

structure Diagnostic where
  file : String
  start : Int
  stop : Int
  kind : ProblemKind
  message : String
  severity : Severity := .warning
deriving DecidableEq, Repr, Inhabited

namespace Diagnostic

def sameProblem (a b : Diagnostic) : Bool :=
  a.start == b.start && a.stop == b.stop && a.kind == b.kind && a.file == b.file && a.message == b.message

def ofDocument (d : Document) : Validation.Check Diagnostic :=
  let required {α : Type} (name : String) (check : Document → Except Rejection α) : Validation.Check α :=
    match d.field? name with
    | some v => Validation.field name check v
    | none => .error [⟨[name], .missing, d⟩]
  let severity : Validation.Check Severity := match d.field? "severity" with
    | some v => Validation.field "severity" (Validation.tag Severity.ofText?) v
    | none => .ok .warning
  let fields := Validation.both (required "file" Validation.text)
    (Validation.both (required "start" Validation.integer)
      (Validation.both (required "end" Validation.integer)
        (Validation.both (required "kind" (Validation.tag ProblemKind.ofText?))
          (Validation.both (required "message" Validation.text) severity))))
  fields.map fun ⟨file, start, stop, kind, message, severity⟩ => ⟨file, start, stop, kind, message, severity⟩

end Diagnostic

structure Diagnostics where
  reported : List Diagnostic := []
deriving Repr, Inhabited

namespace Diagnostics

def add (ds : Diagnostics) (d : Diagnostic) : Diagnostics := ⟨ds.reported ++ [d]⟩

def forFile (ds : Diagnostics) (file : String) : List Diagnostic :=
  ds.reported.filter fun d => d.file == file

def files (ds : Diagnostics) : List String :=
  (ds.reported.map Diagnostic.file).eraseDups.mergeSort fun a b => decide (a ≤ b)

def count (ds : Diagnostics) : Nat := ds.reported.length

def all (ds : Diagnostics) : List Diagnostic := ds.files.flatMap ds.forFile

end Diagnostics

end Concordance
