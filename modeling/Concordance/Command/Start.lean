import Concordance.Command.Screen
import Concordance.Validation.Description

/-!
# Starting a command

Every command finds the settings that apply to its path and starts a session with them.
-/

namespace Concordance.Command

/-- What is said about an error of the settings that is a wrong value; other errors cut a command short. -/
def settingsMessage? : SettingsError → Option String
  | .rejected es => some (FieldError.summary es)
  | .undecodable m => some m.message
  | .oversized digits => some (Text.Numeral.oversizeMessage digits)
  | .fault .nullCharacter => some Fault.nullCharacter.message
  | _ => none

/-- Says that the settings cannot be used and ends the command. Of a message of several lines only the first one is
shown. -/
def refuse {α : Type} (message : String) : Screen α :=
  match (LogEntry.signed .error ("Invalid configuration: " ++ message)).lines? with
  | some lines => do
    Screen.put ((lines.take 1).map .line)
    throw (.exit 1)
  | none => throw (.fault .badMarkup)

def orFault {α : Type} (result : Except Fault α) : Screen α :=
  match result with
  | .ok a => return a
  | .error f => throw (.fault f)

def start (w : Workspace) (verbose : Bool) (path : Path) (args : Document) : Screen Running := do
  if !(← orFault (w.probe (fun _ => true) path)) then Screen.fail ("Path not found: " ++ path.toString)
  let directory := if w.isDirectory path then path else path.parent
  let (loaded, lines) := Settings.load w directory args
  Screen.put (lines.map .line)
  match loaded with
  | .error e => match settingsMessage? e with
    | some message => refuse message
    | none => throw (.settings e)
  | .ok settings =>
    let env : Environment := { workspace := w, settings, shownLevel := if verbose then .debug else .info }
    let (result, session) := startSession.runOn env Session.empty
    Screen.put (session.log.map .line)
    match result with
    | .ok () => return ⟨env, { session with log := [] }⟩
    | .error (.unreadableSearchPath p) => refuse (Fault.unreadableSearchPath p).message
    | .error .nullCharacter => refuse Fault.nullCharacter.message
    | .error f => throw (.fault f)

end Concordance.Command
