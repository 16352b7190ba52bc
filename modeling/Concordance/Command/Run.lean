import Concordance.Command.LineMap
import Concordance.Command.Options
import Concordance.Command.Start

/-!
# Commands

The analyze command shows the problems of every file and a summary, or gives both as a document. The lookup
command shows the bindings whose qualified name ends with a given one.
-/

namespace Concordance.Command

def inOrder (ds : List Diagnostic) : List Diagnostic :=
  ds.mergeSort fun a b => decide (a.start < b.start) || (a.start == b.start && decide (a.stop ≤ b.stop))

def lineMapOf (w : Workspace) (file : String) : Except Fault LineMap :=
  match w.read (Path.ofString file) with
  | .ok f => .ok (.ofBytes f.content.toList)
  | .error .nullCharacter => .error .nullCharacter
  | .error _ => .ok (.ofBytes [])

def problemRow (lines : LineMap) (d : Diagnostic) : List String :=
  let (line, column) := lines.position d.start
  [toString line, toString column, d.severity.text, d.kind.text, d.message]

def problemHeader : List String := ["Line", "Col", "Severity", "Kind", "Message"]

def showFile (w : Workspace) (limit : Nat) (ds : List Diagnostic) (file : String) : Screen Unit := do
  let entries := inOrder (ds.filter fun d => d.file == file)
  let lines ← orFault (lineMapOf w file)
  Screen.table file problemHeader ((entries.take limit).map (problemRow lines))
  let more := entries.length - limit
  if more ≠ 0 then Screen.plain (s!"[dim]... {more} more in " ++ file ++ "[/dim]")

def showProblems (w : Workspace) (limit : Nat) (ds : List Diagnostic) : Screen Unit :=
  ((ds.map Diagnostic.file).eraseDups.mergeSort fun a b => decide (a ≤ b)).forM (showFile w limit ds)

def showSummary (path : Path) (s : Summary) : Screen Unit :=
  ["[bold]Analysis Summary for " ++ path.name ++ "[/bold]",
    s!"Modules: {s.modules}",
    s!"Parse failures: {s.parseFailures}",
    s!"Problems: {s.semanticProblems}",
    s!"Definitions: {s.definitions}",
    s!"Cross references: {s.crossReferences}",
    "Resolved names: " ++ s.shortRateText ++ "%"].forM Screen.plain

def AnalyzeRequest.settings (r : AnalyzeRequest) : Document :=
  .table ([("search_paths", .list r.searchPaths), ("excludes", .list r.excludes)]
    ++ (r.reportUnused.map fun b => ("report_unused", .bool b)).toList
    ++ (r.maxErrors.map fun d => ("max_errors_shown", d)).toList)

def LookupRequest.settings (r : LookupRequest) : Document :=
  .table [("search_paths", .list r.searchPaths), ("report_unused", .bool false)]

def failing (ds : List Diagnostic) : Nat := ds.countP fun d => d.severity ≠ .info

def showFindings (r : Running) (path : Path) (found : Findings) : Screen Outcome := do
  showProblems r.env.workspace r.env.settings.maxErrorsShown found.diagnostics
  showSummary path found.summary
  match failing found.diagnostics with
  | 0 =>
    Screen.say .success "No problems found."
    return { exitCode := 0 }
  | n =>
    Screen.say .warning s!"{n} problem(s) found."
    return { exitCode := 1 }

def Running.loadQuietly (r : Running) (path : Path) : Screen Running := do
  let quiet : Running := { r with env := { r.env with shownLevel := .error } }
  let loaded ← quiet.work (do discard (loadBelow path.toString))
  return { loaded with env := r.env }

def analyze (w : Workspace) (verbose : Bool) (request : AnalyzeRequest) : Screen Outcome := do
  let path := request.path
  let r ← start w verbose path request.settings
  let r ← if request.json then r.loadQuietly path else do
    Screen.say .info ("Analyzing [path]" ++ path.toString ++ "[/path]...")
    r.work (do discard (loadBelow path.toString))
  let r ← r.work finish
  let found : Findings := ⟨r.session.diagnostics, r.session.summary⟩
  if request.json then
    return { exitCode := if failing found.diagnostics = 0 then 0 else 1, findings := some found }
  showFindings r path found

def bindingHeader : List String := ["Qualified Name", "Kind", "Type", "Defined At", "Refs"]

def bindingRow (h : Heap) (b : Binding) : List String :=
  let place := b.file.getD "None" ++ s!":{b.start}-{b.stop}"
  [b.qname, b.kind.text, Text.Markup.escape (h.print b.type), place, toString b.refs.length]

def bindingsInOrder (bs : List Binding) : List Binding :=
  bs.mergeSort fun a b =>
    let f := a.file.getD ""
    let g := b.file.getD ""
    decide (f < g) || (f == g && decide (a.start ≤ b.start))

def lookup (w : Workspace) (verbose : Bool) (request : LookupRequest) : Screen Outcome := do
  let r ← start w verbose request.path request.settings
  let r ← r.work (do discard (loadBelow request.path.toString))
  let r ← r.work finish
  let h := r.session.heap
  match request.name with
  | none => throw .noName
  | some name => match bindingsInOrder ((r.session.bindingsNamed name).map h.binding) with
    | [] => Screen.fail ("No binding found for '" ++ name ++ "'")
    | bs =>
      Screen.table ("Bindings of " ++ name) bindingHeader (bs.map (bindingRow h))
      return { exitCode := 0 }

def run (w : Workspace) (invocation : Invocation) : Report :=
  Screen.run (match invocation.request with
    | .analyze request => analyze w invocation.verbose request
    | .lookup request => lookup w invocation.verbose request)

end Concordance.Command
