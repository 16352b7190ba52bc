import Concordance.Syntax.Collect
import Concordance.Syntax.Region

/-!
# Source files as trees

The tree of a whole file. Numbers tell its names, functions, classes and comprehensions apart.
-/

namespace Concordance.Syntax

structure Module where
  span : Option Span
  body : List Stmt
  distinct : (definitionNodes.block body).Nodup
  numbered : ascends ((piecesOf body).flatMap fun x => x.2.numbers) = true

instance : Inhabited Module := ⟨none, [], List.nodup_nil, rfl⟩

def Module.size (m : Module) : Nat := Stmt.sizeOfBlock m.body + 1

end Concordance.Syntax
