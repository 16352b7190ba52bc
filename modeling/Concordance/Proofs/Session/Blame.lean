import Concordance.Proofs.Session.Termination

/-!
# Faults have causes

Loading a file, applying what waits and finishing an analysis end with a fault only if the environment causes it,
whatever the code in the workspace says.
-/

namespace Concordance

open Text (NullFree)

variable {env : Environment} {s : Session}

/-- There is no null character in the path of the directory of the file being loaded. -/
def Session.Located (s : Session) : Prop := ∀ d, s.loading.directory = some d → NullFree d

/-- Evaluators may be asked as long as relative imports can be looked up. Unless fuel runs out, faults have causes. -/
def Regime.caused (env : Environment) : Regime env where
  ready _ _ s := s.Located
  faults f := env.Causes f ∨ f = .outOfFuel
  faults_of_cause _ hf := .inl hf
  params hl _ := hl
  run hl hr d hd := hl d (hr.directory ▸ hd)
  addClass hl _ _ := hl
  enter hl _ _ _ _ _ := hl
  enterFile _ canonical _ parsing _ d hd := by
    obtain ⟨_, q, hq, hpath⟩ := canonical
    rw [Session.addUnit, parsing.directory, Session.enterFile, Option.some.injEq] at hd
    rw [← hd, hpath]
    exact nullFree_directoryOf (Workspace.nullFree_of_canonical hq)

theorem Fits.caused (env : Environment) (fuel : Nat) : Fits (.caused env) (.withFuel fuel) (.withFuel fuel) := by
  induction fuel with
  | zero => exact ⟨⟨_, rfl⟩, fun hl hd => .inr (hl _ hd), fun _ _ _ _ _ _ _ => .throw ⟨.inr rfl, by simp⟩⟩
  | succ fuel ih =>
    refine ⟨⟨_, rfl⟩, fun hl hd => .inr (hl _ hd), fun task n D s hn hd hpre => ?_⟩
    rw [Evaluator.run_withFuel_succ]
    exact (perform_agrees ih task hd hpre).transfer id fun _ h => h

theorem caused_equips (env : Environment) :
    Equips env Session.Located (fun f => env.Causes f ∨ f = .outOfFuel) .plain fun _ => .plain where
  invariant _ _ _ _ hl hm d hd := hl d (hm.directory ▸ hd)
  faults _ hf := .inl hf
  fits _ _ _ hl _ := ⟨.caused env, hl, fun _ hf => hf.1, 0, fun _ _ => .caused env _⟩
  sweeps _ := Nat.le_refl _
  sweeps_of_le _ _ _ := Nat.le_refl _

theorem Reachable.located (hs : Reachable s) : s.Located := by
  have hnone : s.loading.directory = none := by
    induction hs with
    | empty => rfl
    | step hs env step ih =>
      obtain ⟨_, hm⟩ := hs.moves env step
      exact hm.directory.trans ih
  intro d hd
  rw [hnone] at hd
  cases hd

theorem Reachable.causes_of_settles (hs : Reachable s) {step : SessionStep}
    (hx : Settles env step Session.Located (fun f => env.Causes f ∨ f = .outOfFuel) s (step.runBy .plain)
      (fun _ => step.runBy .plain) Q) (hrun : step.run.runOn env s = (.error f, s')) : env.Causes f := by
  obtain ⟨_, hout⟩ := hx.run hs.idle hs.located
  rw [SessionStep.runBy_plain, hrun] at hout
  -- Fuel does not run out in a step of a reachable session.
  refine hout.2.resolve_right ?_
  rintro rfl
  exact (step_terminates hs env step).1 (congrArg Prod.fst hrun)

theorem Reachable.applyUncalled_causes (hs : Reachable s)
    (hrun : SessionStep.applyUncalled.run.runOn env s = (.error f, s')) : env.Causes f :=
  hs.causes_of_settles ((applyUncalled_settles (caused_equips env)).discard (caused_equips env).invariant) hrun

theorem Reachable.finish_causes (hs : Reachable s)
    (hrun : SessionStep.finish.run.runOn env s = (.error f, s')) : env.Causes f :=
  hs.causes_of_settles (finish_settles (caused_equips env)) hrun

end Concordance
