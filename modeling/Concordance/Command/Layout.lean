import Concordance.Command.Run
import Concordance.Document.Printing

/-!
# Layout

Reports as plain text: tables with their columns lined up, and findings as a document.
-/

namespace Concordance.Command

def padded (width : Nat) (s : String) : String :=
  s ++ String.ofList (List.replicate (width - s.length) ' ')

def columnWidths : List (List String) → List Nat
  | [] => []
  | row :: rows =>
    let below := columnWidths rows
    (List.range (max row.length below.length)).map fun i =>
      max ((row.map String.length).getD i 0) (below.getD i 0)

def rowText (widths : List Nat) (row : List String) : String :=
  Text.trim ("  ".intercalate (List.zipWith padded widths row))

def Item.lines : Item → List String
  | line s => [s]
  | table title header rows => title :: (header :: rows).map (rowText (columnWidths (header :: rows)))

def decimalDocument (units places : Nat) : Document := .float (.ofDecimal false units (-places))

def diagnosticDocument (d : Diagnostic) : Document :=
  .table [("file", .text d.file), ("start", .int d.start), ("end", .int d.stop), ("kind", .text d.kind.text),
    ("message", .text d.message), ("severity", .text d.severity.text)]

/-- The counts of a session as a document, with the milliseconds that it took. -/
def summaryDocument (elapsed : Nat) (s : Summary) : Document :=
  .table [("modules", .nat s.modules), ("semantic_problems", .nat s.semanticProblems),
    ("parse_failures", .nat s.parseFailures), ("definitions", .nat s.definitions),
    ("cross_references", .nat s.crossReferences), ("references", .nat s.references),
    ("resolved", .nat s.resolved), ("unresolved", .nat s.unresolved),
    ("resolve_rate", decimalDocument s.rateUnits 2), ("functions_called", .nat s.functionsCalled),
    ("elapsed", decimalDocument elapsed 3)]

def Findings.document (elapsed : Nat) (f : Findings) : Document :=
  .table [("diagnostics", .list (f.diagnostics.map diagnosticDocument)), ("summary", summaryDocument elapsed f.summary)]

/-- The lines of a report: what is shown, and the findings if they are given as a document. -/
def Report.lines (elapsed : Nat) (r : Report) : List String :=
  let findings := match r.outcome with
    | .ok o => o.findings
    | .error _ => none
  r.screen.flatMap Item.lines ++ (findings.map fun f => (f.document elapsed).print).toList

def Ending.message : Ending → String
  | exit _ => ""
  | settings .noTable => "the settings file has no table where settings are"
  | settings .noRow => "the settings file has no list of texts where one is needed"
  | settings (.fault f) => f.message
  | settings e => (settingsMessage? e).getD ""
  | fault f => f.message
  | noName => "there is no name to look up"

def usageText : String :=
  "usage: pyxref [-h] [--version] [-v] \x7banalyze,lookup\x7d ...\n"
    ++ "  analyze [--path DIR] [--exclude GLOB] [--json] [--no-unused] [--max-errors N] path\n"
    ++ "  lookup [--path DIR] path qname"

end Concordance.Command
