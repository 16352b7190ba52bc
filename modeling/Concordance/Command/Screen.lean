import Concordance.Session.Query

/-!
# The screen

What a command shows: lines and tables. Showing something can fail, since texts may hold wrong markup; what has been
shown before stays.
-/

namespace Concordance.Command

inductive Item
  | line (text : String)
  | table (title : String) (header : List String) (rows : List (List String))
deriving DecidableEq, Repr, Inhabited

/-- Why a command ends before its work is done. -/
inductive Ending
  | exit (code : Nat)
  /-- The settings have an error that is no wrong value. -/
  | settings (error : SettingsError)
  | fault (fault : Fault)
  | noName

/-- Work that shows items and can end early. -/
abbrev Screen := ExceptT Ending (StateM (List Item))

namespace Screen

def put (items : List Item) : Screen Unit := modify (· ++ items)

def rendered (text : String) : Screen String :=
  match Text.Markup.render? text with
  | some shown => return shown
  | none => throw (.fault .badMarkup)

def plain (text : String) : Screen Unit := do
  put ((Text.Markup.screenLines (← rendered text)).map .line)

def cell (text : String) : Screen String := return Text.trim (← rendered text)

def table (title : String) (header : List String) (rows : List (List String)) : Screen Unit := do
  let title ← cell title
  let rows ← rows.mapM fun row => row.mapM cell
  put [.table title header rows]

def say (level : Level) (text : String) : Screen Unit :=
  match (LogEntry.signed level text).lines? with
  | some lines => put (lines.map .line)
  | none => throw (.fault .badMarkup)

def fail {α : Type} (text : String) : Screen α := do
  say .error text
  throw (.exit 1)

end Screen

structure Findings where
  diagnostics : List Diagnostic
  summary : Summary
deriving Repr, Inhabited

/-- How a command that was not cut short ends. -/
structure Outcome where
  exitCode : Nat
  /-- The findings, if they are given as a document instead of being shown. -/
  findings : Option Findings := none
deriving Repr, Inhabited

/-- How a command went, and what it has shown. -/
structure Report where
  outcome : Except Ending Outcome
  screen : List Item

def Screen.run (work : Screen Outcome) : Report :=
  match (ExceptT.run work).run [] with
  | (.error (.exit code), screen) => ⟨.ok { exitCode := code }, screen⟩
  | (outcome, screen) => ⟨outcome, screen⟩

/-- A session while a command runs. -/
structure Running where
  env : Environment
  session : Session

def Running.work (r : Running) (analysis : Analysis Unit) : Screen Running := do
  let (result, session) := analysis.runOn r.env r.session
  Screen.put (session.log.map .line)
  match result with
  | .ok () => return { r with session := { session with log := [] } }
  | .error f => throw (.fault f)

end Concordance.Command
