import Concordance.Graph.Printing
import Concordance.Graph.Scope

/-!
# Bindings and references

A binding keeps the references that were resolved to it, at most one for every place.
-/

namespace Concordance

namespace Binding

/-- Places a binding; without an extent of its own, the definition extends as far as the name. -/
def place (b : Binding) (file : Option String) (start stop : Int) (bodyStart bodyStop : Int := -1) : Binding :=
  { b with
    file, start, stop
    bodyStart := if bodyStart ≥ 0 then bodyStart else start
    bodyStop := if bodyStop ≥ 0 then bodyStop else stop }

def flags (b : Binding) : List String :=
  [(b.isStatic, "static"), (b.isSynthetic, "synthetic"), (b.isReadonly, "readonly"),
    (b.isDeprecated, "deprecated"), (b.isBuiltin, "builtin")].filterMap fun f => if f.1 then some f.2 else none

def mark (b : Binding) (flag : String) : Binding :=
  match flag with
  | "static" => { b with isStatic := true }
  | "synthetic" => { b with isSynthetic := true }
  | "readonly" => { b with isReadonly := true }
  | "deprecated" => { b with isDeprecated := true }
  | "builtin" => { b with isBuiltin := true }
  | _ => b

end Binding

def newReference (r : Reference) : HeapM ReferenceId :=
  modifyGet fun h => (⟨h.references.size⟩, { h with references := h.references.push r })

/-- Links a reference to a binding, unless one at the same place is linked already. -/
def addReference (b : BindingId) (r : ReferenceId) : HeapM Unit := do
  let h ← get
  if (h.binding b).refs.any fun q => (h.reference q).samePlace (h.reference r) then return
  modifyBinding b fun binding => { binding with refs := binding.refs ++ [r] }

namespace Heap

def sortedReferences (h : Heap) (b : BindingId) : List Reference :=
  ((h.binding b).refs.map h.reference).mergeSort fun p q =>
    let f := p.file.getD ""
    let g := q.file.getD ""
    decide (f < g) || (f == g && decide (p.start ≤ q.start))

def describeBinding (h : Heap) (b : BindingId) : String :=
  let binding := h.binding b
  let starts := (h.sortedReferences b).map fun r => toString r.start
  let shown := ", ".intercalate (starts.take 10) ++ if starts.length > 10 then ", ..." else ""
  "<Binding:" ++ binding.name ++ ":qname=" ++ binding.qname ++ ":type=" ++ h.print binding.type
    ++ ":kind=" ++ binding.kind.text ++ ":file=" ++ binding.file.getD "None" ++ ":start="
    ++ toString binding.start ++ ":end=" ++ toString binding.stop ++ ":refs=[" ++ shown ++ "]>"

end Heap

end Concordance
