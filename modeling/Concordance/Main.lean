import Concordance.Command.Layout
import Concordance.Document.Parsing
import Concordance.Workspace.Reading

/-!
# The program

Reads a workspace as a document from standard input, carries out the command given by the arguments and prints
its report.
-/

open Concordance

partial def readRest (input : IO.FS.Stream) (before : String) : IO String := do
  let line ← input.getLine
  if line.isEmpty then return before
  readRest input (before ++ line)

def endWith (code : UInt32) (message : String) : IO UInt32 := do
  IO.eprintln message
  return code

def carryOut (invocation : Command.Invocation) : IO UInt32 := do
  let start ← IO.monoMsNow
  match Document.parse? (← readRest (← IO.getStdin) "") with
  | none => endWith 2 "standard input holds no workspace"
  | some d =>
    let report := Command.run (Workspace.ofDocument d) invocation
    let lines := report.lines ((← IO.monoMsNow) - start)
    lines.forM fun l => IO.println l
    match report.outcome with
    | .error ending => endWith 1 ending.message
    | .ok outcome => return outcome.exitCode.toUInt32

def main (args : List String) : IO UInt32 := do
  match Command.readArguments args with
  | .error .usage => endWith 2 Command.usageText
  | .error .help =>
    IO.println Command.usageText
    return 0
  | .error .version =>
    IO.println Command.versionText
    return 0
  | .ok invocation => carryOut invocation
