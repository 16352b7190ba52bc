import Concordance.Inference.Evaluate
import Concordance.Text.Glob

/-!
# Loading into a session

Search paths, single files, texts and whole directories.
-/

namespace Concordance

/-- Checks a directory to be searched. One that is not there is an error only in strict sessions. -/
def checkDirectory (path canonical : String) : Analysis Unit := do
  let env ← read
  if env.workspace.isDirectory (Path.ofString canonical) then return
  else if env.settings.strictPaths then throw (.unreadableSearchPath path)
  else trace ("ignoring missing search path " ++ canonical)

def addPath (path : String) : Analysis Unit := do
  let canonical ← canonicalPath path
  checkDirectory path canonical
  modify fun s =>
    if canonical ∈ s.loading.searchPath then s
    else { s with loading.searchPath := s.loading.searchPath ++ [canonical] }

def setPath (paths : List String) : Analysis Unit := do
  modify fun s => { s with loading.searchPath := [] }
  paths.forM addPath

def Workspace.variableEntries (w : Workspace) : List String :=
  (Text.fields ':' (":".intercalate (w.searchVariable.getD []))).filter (· ≠ "")

def startSession : Analysis Unit := do
  let env ← read
  setPath env.settings.searchPaths
  if env.settings.useSearchVariable then env.workspace.variableEntries.forM addPath

def load (path : String) : Analysis (Option ModuleId) :=
  evaluating 0 fun ev => loadFile ev path

def loadText (path : String) (content : ByteArray) (outcome : ParseOutcome) : Analysis (Option ModuleId) :=
  let size := match outcome with
    | .tree m => m.size
    | _ => 0
  evaluating size fun ev => loadFile ev path (some (content, outcome))

def unnamedText : String := "<string>.py"

/-- Whether one of the patterns describes a path below a directory, by its relative form or its name. -/
def isExcluded (patterns : List String) (root path : Path) : Bool :=
  let relative := "/".intercalate (path.parts.drop root.parts.length)
  patterns.any fun p => Text.Glob.describes p relative || Text.Glob.describes p path.name

/-- The source files below a directory. Hidden directories and excluded paths are left out. -/
def collectFiles (w : Workspace) (excludes : List String) (root : Path) : List Path :=
  match w.lookup root with
  | .error _ => []
  | .ok node =>
    node.files (fun p => p.suffix == ".py" && !isExcluded excludes root p)
      (fun p => !p.isHidden && !isExcluded excludes root p) root

def sourceFiles (root : Path) : Analysis (List Path) := do
  let env ← read
  return collectFiles env.workspace env.settings.excludes root

/-- Adds a directory to the search path, and the one above it if the directory is a package. -/
def addRoot (root : Path) : Analysis Unit := do
  addPath root.toString
  if (← read).workspace.isFile (root.child Path.packageFile) then addPath root.parent.toString

def probe (test : Node → Bool) (p : Path) : Analysis Bool := do
  match (← read).workspace.probe test p with
  | .ok answer => return answer
  | .error f => throw f

def loadDirectoryBy (load : String → Analysis (Option ModuleId)) (root : Path) : Analysis (List String) := do
  addRoot root
  let files := (← sourceFiles root).map Path.toString
  files.forM fun f => discard (load f)
  return files

/-- Loads a file, or all source files below a directory, each by `load`. -/
def loadBelowBy (load : String → Analysis (Option ModuleId)) (path : String) : Analysis (List String) := do
  let root := Path.ofString (← canonicalPath path)
  if ← probe Node.isFile root then
    discard <| load root.toString
    return [root.toString]
  else if ← probe Node.isDirectory root then loadDirectoryBy load root
  else
    log .warning ("Path not found: [path]" ++ path ++ "[/path]")
    return []

def loadBelow (path : String) : Analysis (List String) := loadBelowBy load path

end Concordance
