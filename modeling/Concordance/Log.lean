import Concordance.Text.Markup

/-!
# Logs

Entries of a log, each with a level. Their texts may hold style tags; an entry is shown as the lines of its text
after the word for its level.
-/

namespace Concordance

inductive Level
  | debug | info | success | warning | error
deriving DecidableEq, Repr, Inhabited

namespace Level

def text : Level → String
  | debug => "DEBUG"
  | info => "INFO"
  | success => "SUCCESS"
  | warning => "WARNING"
  | error => "ERROR"

def sign : Level → String
  | debug => ""
  | info => "ℹ️ "
  | success => "✅ "
  | warning => "⚠️ "
  | error => "❌ "

def rank : Level → Nat
  | debug => 0
  | info => 1
  | success => 2
  | warning => 3
  | error => 4

/-- Whether entries of a level are shown when `least` is the least important level shown. -/
def isShown (least level : Level) : Bool := least.rank ≤ level.rank

end Level

structure LogEntry where
  level : Level
  text : String
deriving DecidableEq, Repr, Inhabited

namespace LogEntry

def signed (level : Level) (text : String) : LogEntry := ⟨level, level.sign ++ text⟩

def lines? (e : LogEntry) : Option (List String) :=
  (Text.Markup.render? e.text).map fun shown => Text.Markup.screenLines (e.level.text ++ " " ++ shown)

end LogEntry

end Concordance
