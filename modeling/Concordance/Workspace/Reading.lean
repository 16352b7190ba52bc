import Concordance.Syntax.Reading
import Concordance.Text.Numeral
import Concordance.Workspace

/-!
# Reading workspaces

Workspaces as documents. A file is its text, or its bytes in hexadecimal, together with what the parser makes
of it: a tree, a failure, or nothing if the parser ends with an error of its own.
-/

namespace Concordance

def Document.textOf (d : Document) (name : String) : String := ((d.field? name).bind text?).getD ""

def Document.intOf (d : Document) (name : String) (usual : Int := 0) : Int := ((d.field? name).bind int?).getD usual

def Document.textsOf (d : Document) (name : String) : List String :=
  ((d.field? name).map items).getD [] |>.filterMap text?

def bytesOfHex : List Char → List UInt8
  | high :: low :: rest =>
    let value (c : Char) : Nat := (Text.Numeral.digit? 16 c).getD 0
    (16 * value high + value low).toUInt8 :: bytesOfHex rest
  | _ => []

def ParseOutcome.ofDocument (d : Document) : ParseOutcome :=
  match d.field? "failure" with
  | some f => .failure (f.textOf "reason") (f.intOf "line") (f.intOf "column")
  | none => match Syntax.Reading.module d with
    | some m => .tree m
    | none => .invalid

def File.ofDocument (d : Document) : File where
  content := match (d.field? "text").bind Document.text? with
    | some s => s.toUTF8
    | none => ⟨(bytesOfHex (d.textOf "hex").toList).toArray⟩
  outcome := .ofDocument ((d.field? "tree").getD .null)

def Workspace.ofDocument (d : Document) : Workspace :=
  let files := match d.field? "files" with
    | some (.table fs) => fs.map fun f => (f.1, File.ofDocument f.2)
    | _ => []
  let search := match d.field? "pythonpath" with
    | some (.list ps) => some (ps.filterMap Document.text?)
    | _ => none
  .ofFiles files (d.textsOf "dirs") search

end Concordance
