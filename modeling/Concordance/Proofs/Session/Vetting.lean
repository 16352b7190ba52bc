import Concordance.Proofs.Session.Termination

/-!
# Vetting

What holds of a session while a step is going on can be put down in an evaluator: it does every task as the plain one
does, looks at the session before the task, at the result and at the session after it, and raises an alarm if they do
not pass a test.
-/

namespace Concordance

open Syntax (Item frameItems)

variable {env : Environment} {s : Session}

/-- What is said of a task by the session before it, its result and the session after it. -/
abbrev Verdict : Type 1 := (α : Type) → Task α → Session → Except Fault α → Session → Prop

section Vetted

variable (passes : Verdict) (alarm : Fault)

open Classical in
/-- Does some work, but ends with a fault if what it has done does not pass, however it ends. -/
noncomputable def Analysis.vetted {α : Type} (passes : Session → Except Fault α → Session → Prop) (alarm : Fault)
    (x : Analysis α) : Analysis α := do
  let before ← get
  let result ← tryCatch (Except.ok <$> x) fun fault => pure (.error fault)
  if passes before result (← get) then MonadExcept.ofExcept result else throw alarm

open Classical in
theorem runOn_vetted {passes : Session → Except Fault α → Session → Prop}
    {x : Analysis α} (hpass : passes s (x.runOn env s).1 (x.runOn env s).2) :
    (x.vetted passes alarm).runOn env s = x.runOn env s := by
  show (get >>= fun before => tryCatch (Except.ok <$> x) (fun fault => pure (.error fault)) >>= fun result =>
    get >>= fun after => if passes before result after then MonadExcept.ofExcept result else throw alarm).runOn env s = _
  rw [runOn_get_bind, runOn_bind, runOn_tryCatch, map_eq_pure_bind, runOn_bind]
  rcases hrun : x.runOn env s with ⟨f | a, s'⟩ <;> rw [hrun] at hpass
  · show (if passes s (.error f) s' then _ else _ : Analysis α).runOn env s' = _
    rw [if_pos hpass]
    rfl
  · show (if passes s (.ok a) s' then _ else _ : Analysis α).runOn env s' = _
    rw [if_pos hpass]
    rfl

/-- Does a task like `evaluate`, but ends with a fault if the task, or one inside it, does not pass. -/
noncomputable def evaluateVetted : Nat → {α : Type} → Task α → Analysis α
  | 0, _, _ => throw .outOfFuel
  | fuel + 1, α, task => (perform ⟨fun t => evaluateVetted fuel t⟩ task).vetted (passes α task) alarm

noncomputable def Evaluator.vetted (fuel : Nat) : Evaluator := ⟨fun t => evaluateVetted passes alarm fuel t⟩

noncomputable def Means.vetting : Means := ⟨.vetted passes alarm, id⟩

/-- A regime under which evaluators may be asked at any size, and under which every task passes. -/
structure Regime.Upholds {env : Environment} (R : Regime env) (passes : Verdict) : Prop where
  faults : ∀ f, R.faults f
  ready : ∀ {n m : Nat} {D : UnitRef → Item → Prop} {s : Session}, R.ready n D s → R.ready m D s
  passes : ∀ {α : Type} (task : Task α) {n : Nat} {D : UnitRef → Item → Prop} {s : Session}, s.IsSound → R.ready n D s →
    ∀ r s', Ends R D s task.Post (r, s') → passes α task s r s'

/-- A regime under which evaluators may be asked at any size, and under which every task passes that is done by an
evaluator. -/
structure Regime.UpholdsOf {env : Environment} (R : Regime env) (passes : Verdict) : Prop where
  faults : ∀ f, R.faults f
  ready : ∀ {n m : Nat} {D : UnitRef → Item → Prop} {s : Session}, R.ready n D s → R.ready m D s
  passes : ∀ {α : Type} (task : Task α) {fuel n : Nat} {D : UnitRef → Item → Prop} {s : Session},
    Within D task.unit (task.collect frameItems) → s.IsSound → R.ready n D s →
    ∀ r s', (perform (.withFuel fuel) task).runOn env s = (r, s') → Ends R D s task.Post (r, s') → passes α task s r s'

variable {passes}

theorem Regime.Upholds.of {R : Regime env} (hR : R.Upholds passes) : R.UpholdsOf passes where
  faults := hR.faults
  ready := hR.ready
  passes task _ _ _ _ _ hs hr r s' _ hends := hR.passes task hs hr r s' hends

theorem Fits.vetted {R : Regime env} (hR : R.UpholdsOf passes) (fuel : Nat) :
    Fits R (.withFuel fuel) (.vetted passes alarm fuel) := by
  refine .stepwise hR.faults hR.ready (fun _ => rfl) (fun fuel α task n D s hd hs hr heq hends => ?_) fuel
  exact runOn_vetted alarm (heq ▸ hR.passes task hd hs hr _ _ rfl hends)

variable {alarm}

/-- Under a regime that upholds a test of how tasks are done, every step in an idle session ends as it does without the
test. -/
theorem runBy_vetting_of {R : Regime env} (hR : R.UpholdsOf passes)
    (hI : Invariant env I) (hready : ∀ s, s.Idle → I s → R.ready 0 (fun _ _ => False) s) (hi : s.Idle)
    (hs : I s) (step : SessionStep) : (step.runBy (.vetting passes alarm)).runOn env s = step.run.runOn env s := by
  have hequips : Equips env I (fun _ => True) .plain fun _ => .vetting passes alarm :=
    { invariant := hI
      faults := fun _ _ => trivial
      fits := fun bound s hi hs _ => ⟨R, hready s hi hs, fun _ _ => trivial, 0, fun _ _ => .vetted alarm hR _⟩
      sweeps := fun _ => Nat.le_refl _
      sweeps_of_le := fun _ _ _ => Nat.le_refl _ }
  obtain ⟨⟨N, hN⟩, _⟩ := (step_settles hequips (fun _ _ => trivial) step).run hi hs
  rw [SessionStep.runBy_plain] at hN
  exact hN N (Nat.le_refl _)

theorem runBy_vetting {R : Regime env} (hR : R.Upholds passes)
    (hI : Invariant env I) (hready : ∀ s, s.Idle → I s → R.ready 0 (fun _ _ => False) s) (hi : s.Idle)
    (hs : I s) (step : SessionStep) : (step.runBy (.vetting passes alarm)).runOn env s = step.run.runOn env s :=
  runBy_vetting_of hR.of hI hready hi hs step

end Vetted

section Steps

/-- The session after some steps from the empty one, each in an environment of its own. -/
def Session.after (steps : List (Environment × SessionStep)) : Session :=
  steps.foldl (fun s x => (x.2.run.runOn x.1 s).2) Session.empty

theorem Session.after_concat (steps : List (Environment × SessionStep)) (env : Environment) (step : SessionStep) :
    Session.after (steps ++ [(env, step)]) = (step.run.runOn env (Session.after steps)).2 := by
  rw [Session.after, List.foldl_append]
  rfl

theorem Reachable.after (steps : List (Environment × SessionStep)) : Reachable (Session.after steps) := by
  induction steps using List.reverseRecOn with
  | nil => exact .empty
  | append_singleton steps x ih =>
    rw [Session.after_concat]
    exact .step ih x.1 x.2

theorem Reachable.exists_of_test (test : Session → Bool)
    (htest : test (Session.after steps) = true) : ∃ s, Reachable s ∧ test s = true := ⟨_, .after steps, htest⟩

end Steps

end Concordance
