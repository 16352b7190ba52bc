import Concordance.Proofs.Session.Empty
import Concordance.Proofs.Session.Settle

/-!
# Termination

The rules of inference call each other without end in sight: a function is applied where it is called, a file is loaded
where it is imported, and functions define functions.
-/

namespace Concordance

/-- A session that steps lead to, each in an environment of its own, whether they end well or in a fault. -/
inductive Reachable : Session → Prop
  | empty : Reachable Session.empty
  | step {s : Session} (hs : Reachable s) (env : Environment) (step : SessionStep) :
      Reachable (step.run.runOn env s).2

theorem Session.Idle.isReady {s : Session} (hi : s.Idle) (env : Environment)
    (hb : s.loading.cache.weight + env.workspace.top.weight ≤ bound) :
    s.IsReady env s.loading.cache.weight bound (fuelFor bound) 0 fun _ _ => False where
  grounded := hi.grounded
  frame := .empty
  stacked := by
    refine ⟨?_, ?_, ?_, ?_⟩
    · rw [hi.calls]
      exact List.nodup_nil
    · rw [hi.calls]
      exact fun _ hf => nomatch hf
    · rw [hi.files]
      exact List.nodup_nil
    · rw [hi.files]
      exact fun _ hp => nomatch hp
  funded := .start env _
  bounded := hb
  fuel := by
    calc 0 + (bound + 1) * (bound - s.depth)
        ≤ (bound + 2) * (bound + 2) := by
          rw [Nat.zero_add]
          exact Nat.mul_le_mul (Nat.le_succ _) (Nat.le_trans (Nat.sub_le ..) (Nat.le_add_right ..))
      _ ≤ fuelFor bound + 1 := Nat.le_succ _

theorem fixed_equips (env : Environment) : Equips env (fun _ => True) (· ≠ .outOfFuel) .plain Means.fixed where
  invariant _ _ _ _ _ _ := trivial
  faults _ hf := hf.ne_outOfFuel
  fits bound s hi _ hb := by
    refine ⟨.fueled env s.loading.cache.weight bound (fuelFor bound), hi.isReady env hb, fun f hf => hf.1, fuelFor bound,
      fun n hn => ?_⟩
    exact .of_ladder (Regime.fueled_isLadder env s.loading.cache.weight bound) hn
  sweeps _ := Nat.le_refl _
  sweeps_of_le _ _ hk := hk

theorem step_of_idle (hi : s.Idle) (env : Environment) (step : SessionStep) :
    (step.run.runOn env s).1 ≠ .error .outOfFuel ∧ (∃ b, Move env step b s (step.run.runOn env s).2) ∧
      ∃ N, ∀ n ≥ N, (step.runBy (.fixed n)).runOn env s = step.run.runOn env s := by
  obtain ⟨hN, hout⟩ := (step_settles (fixed_equips env) (fun _ hf => hf.1) step).run hi trivial
  rw [SessionStep.runBy_plain] at hN hout
  rcases hrun : step.run.runOn env s with ⟨f | a, s'⟩ <;> rw [hrun] at hN hout
  · exact ⟨fun heq => hout.2 (Except.error.inj heq), ⟨false, hout.1⟩, hN⟩
  · exact ⟨fun heq => (nomatch heq), ⟨true, hout.1⟩, hN⟩

theorem Reachable.idle (hs : Reachable s) : s.Idle := by
  induction hs with
  | empty => exact Session.empty_idle
  | step _ env step ih =>
    obtain ⟨_, ⟨_, hm⟩, _⟩ := step_of_idle ih env step
    exact hm.idle ih

theorem Reachable.moves (hs : Reachable s) (env : Environment) (step : SessionStep) :
    ∃ b, Move env step b s (step.run.runOn env s).2 := (step_of_idle hs.idle env step).2.1

/-- Every step terminates: in every reachable session and every environment it ends without running out of fuel, as
it does with every amount of fuel and sweeps from some amount on. -/
theorem step_terminates {s : Session} (hs : Reachable s) (env : Environment) (step : SessionStep) :
    (step.run.runOn env s).1 ≠ .error .outOfFuel ∧
      ∃ N, ∀ n ≥ N, (step.runBy (.fixed n)).runOn env s = step.run.runOn env s :=
  ⟨(step_of_idle hs.idle env step).1, (step_of_idle hs.idle env step).2.2⟩

def circularImports : Workspace :=
  .ofFiles [("a.py", ⟨.empty, .tree ⟨none, [.importModules [⟨[⟨0, "b", none⟩], none⟩]], by decide, by decide⟩⟩),
    ("b.py", ⟨.empty, .tree ⟨none, [.importModules [⟨[⟨0, "a", none⟩], none⟩]], by decide, by decide⟩⟩)] [] none

theorem step_terminates_circularImports :
    let env : Environment := { workspace := circularImports, settings := default }
    let s := ((SessionStep.load "a.py").run.runOn env Session.empty).2
    Reachable s ∧ (SessionStep.finish.run.runOn env s).1 ≠ .error .outOfFuel ∧
      ∃ N, ∀ n ≥ N, (SessionStep.finish.runBy (.fixed n)).runOn env s = SessionStep.finish.run.runOn env s :=
  ⟨.step .empty _ _, step_terminates (.step .empty _ _) _ .finish⟩

end Concordance
