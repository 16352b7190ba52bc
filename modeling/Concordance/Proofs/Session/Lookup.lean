import Concordance.Proofs.Heap.Lookup
import Concordance.Proofs.Tracking.Step

/-!
# The look-up of free names in reachable sessions

In every reachable session, and all through the steps that lead from one to the next, free names are found as
`Heap.LooksUp` says: the two look-ups end and agree, class bodies are seen from class bodies only, and what is declared to
belong to the module is found in its scope or in the outermost one.
-/

namespace Concordance

open Session (globals)

variable {s : Session}

def Verdict.looksUp : Verdict := fun _ _ s _ s' => s.heap.LooksUp ∧ s'.heap.LooksUp

/-- In a reachable session every name of a scope leads to one binding, the two look-ups of free names end and agree, a class
body is seen from itself and from class bodies inside it only, and a name that the first scope to know it declares to belong
to the module is found in the scope of the module or in the outermost one. The same holds all through a step, when a task is
begun and when it is ended: vetting the tasks makes no difference. -/
theorem free_names_found_outwards (hs : Reachable s) : s.heap.LooksUp ∧
    ∀ (env : Environment) (step : SessionStep) (alarm : Fault),
      (step.runBy (.vetting .looksUp alarm)).runOn env s = step.run.runOn env s :=
  ⟨hs.ordered.apart.looksUp,
    hs.runOn_vetting fun _ _ _ _ _ _ _ ho ho' _ _ => ⟨ho.apart.looksUp, ho'.apart.looksUp⟩⟩

/-- A class binds a name and has in its body another class, and a function that declares another name to belong to the
module. -/
def nestedBodies : Environment where
  workspace := .ofFiles [("m.py", ⟨.empty, .tree ⟨some ⟨0, 73⟩,
      [.line [.assign [.name ⟨0, "y", some ⟨0, 1⟩⟩] (.integer (some ⟨4, 5⟩) "1")],
        .classDef (some ⟨6, 72⟩) 1 ⟨2, "A", some ⟨12, 13⟩⟩ [] []
          [.line [.assign [.name ⟨3, "x", some ⟨17, 18⟩⟩] (.integer (some ⟨21, 22⟩) "1")],
            .classDef (some ⟨25, 42⟩) 4 ⟨5, "B", some ⟨31, 32⟩⟩ [] [] [] [],
            .functionDef (some ⟨45, 66⟩) 6 ⟨7, "f", some ⟨49, 50⟩⟩ ⟨[], [], none, [], none⟩
              [.line [.global [⟨8, "y", some ⟨65, 66⟩⟩]]] [],
            .line [.expr (.call (some ⟨69, 72⟩) (.name ⟨9, "f", some ⟨69, 70⟩⟩) [])]] []], by decide, by decide⟩⟩)] [] none
  settings := default

def Heap.seesBody (h : Heap) (x : ScopeId) : Bool :=
  (h.lookupScope x "x").any fun t => t ≠ x && (h.scope t).kind = .classBody

def Heap.seesModule (h : Heap) (x : ScopeId) : Bool :=
  ((h.scope x).local? "y").isNone && decide ("y" ∈ (h.scope x).globals) && (h.lookupScope x "y").isSome

def Session.seesAround (s : Session) : Bool :=
  s.heap.seesBody ⟨s.heap.scopes.size - 2⟩ && s.heap.seesModule ⟨s.heap.scopes.size - 1⟩

theorem nestedBodies_session : (Session.after [(nestedBodies, .load "m.py")]).seesAround = true := by decide +kernel

/-- The inner class sees the names of the outer one, and there is no function between them. The function finds the name that
it declares in the module or in the outermost scope. -/
theorem free_names_found_outwards_nestedBodies : ∃ s, Reachable s ∧
    (∃ x t, t ≠ x ∧ s.heap.lookupScope x "x" = some t ∧ (s.heap.scope t).kind = .classBody ∧ s.heap.Encloses t x ∧
      ∀ z, s.heap.Encloses z x → s.heap.Encloses t z → (s.heap.scope z).kind = .classBody) ∧
    ∃ x t, "y" ∈ (s.heap.scope x).globals ∧ s.heap.lookupScope x "y" = some t ∧ (s.heap.ModuleOf x t ∨ t = globals) ∧
      ∃ b, s.heap.lookup x "y" = some [b] := by
  obtain ⟨s, hs, htest⟩ := Reachable.exists_of_test Session.seesAround nestedBodies_session
  obtain ⟨hbody, hmodule⟩ := Bool.and_eq_true_iff.1 htest
  have hfound := (free_names_found_outwards hs).1
  refine ⟨s, hs, ?_, ?_⟩
  · cases ht : s.heap.lookupScope ⟨s.heap.scopes.size - 2⟩ "x" with
    | none => simp [Heap.seesBody, ht] at hbody
    | some t =>
      simp only [Heap.seesBody, ht, Option.any_some, Bool.and_eq_true, decide_eq_true_eq] at hbody
      obtain ⟨hencloses, _⟩ := hfound.entry _ "x" t ht
      exact ⟨_, t, hbody.1, ht, hbody.2, hencloses, hfound.classes _ "x" t ht hbody.2⟩
  · simp only [Heap.seesModule, Bool.and_eq_true, decide_eq_true_eq, Option.isNone_iff_eq_none, Option.isSome_iff_exists]
      at hmodule
    obtain ⟨⟨hfree, hdeclared⟩, t, ht⟩ := hmodule
    obtain ⟨_, b, hb, _⟩ := hfound.entry _ "y" t ht
    exact ⟨_, t, hdeclared, ht, hfound.declared _ "y" _ t .here hfree hdeclared ht, b, hb⟩

end Concordance
