import Concordance.Document
import Concordance.Path
import Concordance.Text.Numeral

/-!
# Command line arguments

Options can stand anywhere between operands, can be shortened to a prefix that no other option has, and take their value
after `=` or from the next argument.
-/

namespace Concordance.Command

inductive Stop
  | usage
  | help
  | version
deriving DecidableEq, Repr, Inhabited

/-- What an option does to the arguments read so far. -/
inductive Effect (α : Type)
  | stop (reason : Stop)
  | flag (set : α → α)
  /-- Takes a value, which may be empty and may be refused. -/
  | value (set : Option String → α → Option α)

/-- The options that a command knows, by spelling. -/
structure Options (α : Type) where
  known : List (String × Effect α)

/-- What an argument is. -/
inductive Word (α : Type)
  | effects (effects : List (Effect α))
  /-- An option that takes a value, with the value if it is attached. -/
  | valued (set : Option String → α → Option α) (attached : Option String)
  /-- An option with something attached that it does not take. -/
  | mistaken
  | unknown
  | endOfOptions
  | operand (text : String)

def withoutLineEnd (cs : List Char) : List Char :=
  if cs.getLast? == some '\n' then cs.dropLast else cs

def looksNegative (s : String) : Bool :=
  match withoutLineEnd s.toList with
  | '-' :: rest =>
    let (whole, fraction) := rest.span (· != '.')
    match fraction with
    | [] => !whole.isEmpty && whole.all Text.isDecimalDigit
    | _ :: digits => whole.all Text.isDecimalDigit && !digits.isEmpty && digits.all Text.isDecimalDigit
  | _ => false

def cutValue (s : String) : String × Option String :=
  match s.toList.span (· != '=') with
  | (_, []) => (s, none)
  | (name, _ :: value) => (String.ofList name, some (String.ofList value))

def isLong (s : String) : Bool :=
  match s.toList with
  | '-' :: '-' :: _ => true
  | _ => false

namespace Options

variable {α : Type}

def find? (o : Options α) (spelling : String) : Option (Effect α) :=
  (o.known.find? fun k => k.1 == spelling).map Prod.snd

/-- The options that an argument may stand for, each with the value attached to it. -/
def candidates (o : Options α) (arg : String) : List (String × Effect α × Option String) :=
  if isLong arg then
    let (start, attached) := cutValue arg
    (o.known.filter fun k => k.1.startsWith start).map fun k => (k.1, k.2, attached)
  else
    let short := String.ofList (arg.toList.take 2)
    let letters := String.ofList (arg.toList.drop 2)
    o.known.filterMap fun k =>
      if k.1 == short then some (k.1, k.2, some letters)
      else if k.1.startsWith arg then some (k.1, k.2, none)
      else none

/-- The effects of short options given by their letters. An option with a value is wrong among them. -/
def ofLetters? (o : Options α) : List Char → Option (List (Effect α))
  | [] => some []
  | c :: rest =>
    match o.find? (String.ofList ['-', c]) with
    | none | some (.value _) => none
    | some e => (o.ofLetters? rest).map (e :: ·)

/-- The word for an option with what is attached to it: a value, or the letters of further short options. -/
def wordOf (o : Options α) (spelling : String) (effect : Effect α) (attached : Option String) : Word α :=
  match effect, attached with
  | .value set, _ => .valued set attached
  | e, none => .effects [e]
  | e, some value =>
    if isLong spelling || value == "" then .mistaken
    else match o.ofLetters? value.toList with
      | some es => .effects (e :: es)
      | none => .mistaken

/-- What an argument that is spelt like an option stands for. -/
def optionWord (o : Options α) (arg : String) : Except Stop (Word α) :=
  match o.candidates arg with
  | [(spelling, effect, attached)] => .ok (o.wordOf spelling effect attached)
  | [] => .ok (if looksNegative arg || arg.toList.contains ' ' then .operand arg else .unknown)
  | _ => .error .usage

def word (o : Options α) (arg : String) : Except Stop (Word α) :=
  if arg.toList.head? != some '-' then .ok (.operand arg)
  else match o.find? arg with
    | some e => .ok (o.wordOf arg e none)
    | none =>
      if arg == "-" then .ok (.operand arg)
      else match cutValue arg with
        | (name, some value) => match o.find? name with
          | some e => .ok (o.wordOf name e (some value))
          | none => o.optionWord arg
        | (_, none) => o.optionWord arg

def words (o : Options α) : List String → Except Stop (List (Word α))
  | [] => .ok []
  | "--" :: rest => .ok (.endOfOptions :: rest.map .operand)
  | arg :: rest => do
    let w ← o.word arg
    return w :: (← o.words rest)

end Options

/-- What has been read of a command line. -/
structure Progress (α : Type) where
  read : α
  operands : List (Option String → α → α)
  /-- Whether there was an argument with no use for it. -/
  surplus : Bool := false

def applyEffects {α : Type} : List (Effect α) → α → Except Stop α
  | [], a => .ok a
  | .stop reason :: _, _ => .error reason
  | .flag set :: rest, a => applyEffects rest (set a)
  | .value _ :: rest, a => applyEffects rest a

def valueOf (s : String) : Option String := if s = "--" then none else some s

def assign {α : Type} (set : Option String → α → Option α) (value : String) (p : Progress α) :
    Except Stop (Progress α) :=
  match set (valueOf value) p.read with
  | some a => .ok { p with read := a }
  | none => .error .usage

def place {α : Type} (operand : Option String) (p : Progress α) : Progress α :=
  match p.operands with
  | set :: more => { p with read := set operand p.read, operands := more }
  | [] => { p with surplus := true }

/-- Reads words in order. -/
def readWords {α : Type} : List (Word α) → Progress α → Except Stop (Progress α)
  | [], p => .ok p
  | .effects es :: rest, p => do readWords rest { p with read := ← applyEffects es p.read }
  | .valued set (some value) :: rest, p => do readWords rest (← assign set value p)
  | .valued set none :: .operand value :: rest, p => do readWords rest (← assign set value p)
  | .valued _ none :: _, _ => .error .usage
  | .mistaken :: _, _ => .error .usage
  | .unknown :: rest, p => readWords rest { p with surplus := true }
  | .operand s :: .endOfOptions :: rest, p => readWords rest (place (some s) p)
  | .operand s :: rest, p => readWords rest (place (valueOf s) p)
  | .endOfOptions :: .operand s :: rest, p => readWords rest (place (some s) p)
  | .endOfOptions :: rest, p => readWords rest { p with surplus := true }

/-- Reads the options before the first operand. Also gives the number of words that are left, the operand's
included. -/
def readLeading {α : Type} : List (Word α) → Progress α → Except Stop (Progress α × Nat)
  | [], p => .ok (p, 0)
  | .effects es :: rest, p => do readLeading rest { p with read := ← applyEffects es p.read }
  | .valued set (some value) :: rest, p => do readLeading rest (← assign set value p)
  | .valued set none :: .operand value :: rest, p => do readLeading rest (← assign set value p)
  | .valued _ none :: _, _ => .error .usage
  | .mistaken :: _, _ => .error .usage
  | .unknown :: rest, p => readLeading rest { p with surplus := true }
  | rest, p => .ok (p, rest.length)

/-- Reads the arguments of a command; all operands are needed. Also says whether there was an argument with no
use for it. -/
def Options.read {α : Type} (o : Options α) (operands : List (Option String → α → α)) (start : α)
    (args : List String) : Except Stop (α × Bool) := do
  let p ← readWords (← o.words args) { read := start, operands }
  if p.operands.isEmpty then return (p.read, p.surplus) else throw .usage

structure AnalyzeRequest where
  path : Path := ⟨"", []⟩
  searchPaths : List Document := []
  excludes : List Document := []
  json : Bool := false
  reportUnused : Option Bool := none
  maxErrors : Option Document := none
deriving Inhabited

structure LookupRequest where
  path : Path := ⟨"", []⟩
  name : Option String := none
  searchPaths : List Document := []
deriving Inhabited

inductive Request
  | analyze (request : AnalyzeRequest)
  | lookup (request : LookupRequest)
deriving Inhabited

/-- A request, and whether tracing is wanted. -/
structure Invocation where
  verbose : Bool
  request : Request
deriving Inhabited

def valueDocument (read : String → Option Document) : Option String → Option Document
  | some s => read s
  | none => some (.list [])

def pathDocument : Option String → Option Document := valueDocument fun s => some (.text (Path.ofString s).toString)

def pathOperand (s : Option String) : Path := Path.ofString (s.getD "")

/-- The options before the command; the arguments read are whether tracing is wanted. -/
def generalOptions : Options Bool where
  known := [("-h", .stop .help), ("--help", .stop .help), ("--version", .stop .version),
    ("-v", .flag fun _ => true), ("--verbose", .flag fun _ => true)]

def analyzeOptions : Options AnalyzeRequest where
  known := [("-h", .stop .help), ("--help", .stop .help),
    ("--path", .value fun s r => (pathDocument s).map fun d => { r with searchPaths := r.searchPaths ++ [d] }),
    ("--exclude", .value fun s r =>
      (valueDocument (some ∘ .text) s).map fun d => { r with excludes := r.excludes ++ [d] }),
    ("--json", .flag fun r => { r with json := true }),
    ("--no-unused", .flag fun r => { r with reportUnused := some false }),
    ("--max-errors", .value fun s r =>
      (valueDocument (fun s => (Text.Numeral.general? s).map .int) s).map fun d => { r with maxErrors := some d })]

def lookupOptions : Options LookupRequest where
  known := [("-h", .stop .help), ("--help", .stop .help),
    ("--path", .value fun s r => (pathDocument s).map fun d => { r with searchPaths := r.searchPaths ++ [d] })]

def readCommand (name : String) (args : List String) : Except Stop (Request × Bool) :=
  if name = "analyze" then do
    let (r, surplus) ← analyzeOptions.read [fun s r => { r with path := pathOperand s }] {} args
    return (.analyze r, surplus)
  else if name = "lookup" then do
    let operands := [fun s (r : LookupRequest) => { r with path := pathOperand s }, fun s r => { r with name := s }]
    let (r, surplus) ← lookupOptions.read operands {} args
    return (.lookup r, surplus)
  else throw .usage

def versionText : String := "pyxref 0.1.0"

def readArguments (args : List String) : Except Stop Invocation := do
  let (p, left) ← readLeading (← generalOptions.words args) { read := false, operands := [] }
  match args.drop (args.length - left) with
  | [] => throw .usage
  | name :: rest =>
    let (request, surplus) ← readCommand name rest
    if p.surplus || surplus then throw .usage
    return ⟨p.read, request⟩

end Concordance.Command
