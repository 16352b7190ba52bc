import Concordance.Proofs.Inference.Stmt

/-!
# Evaluators

An evaluator with any fuel fits itself: whatever it is asked, it ends as a run. Under regimes that become ready
for less as fuel is used up, more fuel than needed makes no difference.
-/

namespace Concordance

open Syntax (Expr Stmt Pattern frameItems)

variable {env : Environment}

theorem Evaluator.run_withFuel_succ (fuel : Nat) (task : Task α) :
    (withFuel (fuel + 1)).run task = perform (withFuel fuel) task := rfl

/-- Under a regime that is always as ready as it is, an evaluator fits the plain one if its steps end like those of the plain
one. -/
theorem Fits.stepwise {R : Regime env} {ev : Nat → Evaluator} (hfaults : ∀ f, R.faults f)
    (hready : ∀ {n m D s}, R.ready n D s → R.ready m D s)
    (hzero : ∀ {α : Type} (task : Task α), (ev 0).run task = throw .outOfFuel)
    (hstep : ∀ fuel {α : Type} (task : Task α) {n D s}, Within D task.unit (task.collect frameItems) → s.IsSound →
      R.ready n D s → (perform (.withFuel fuel) task).runOn env s = (perform (ev fuel) task).runOn env s →
      Ends R D s task.Post ((perform (.withFuel fuel) task).runOn env s) →
      ((ev (fuel + 1)).run task).runOn env s = (perform (ev fuel) task).runOn env s) (fuel : Nat) :
    Fits R (.withFuel fuel) (ev fuel) := by
  induction fuel with
  | zero =>
    refine ⟨⟨_, rfl⟩, fun _ _ => .inl (hfaults _), fun task _ _ _ _ _ _ => ?_⟩
    rw [hzero]
    exact .throw ⟨hfaults _, by simp⟩
  | succ fuel ih =>
    refine ⟨⟨_, rfl⟩, fun _ _ => .inl (hfaults _), fun task n D s hn hd hpre => ⟨fun hs hr => ?_⟩⟩
    obtain ⟨heq, hends⟩ := (perform_agrees ih task hd hpre).run hs (hready hr)
    exact ⟨heq.trans (hstep fuel task hd hs hr heq hends).symm, hends⟩

theorem Fits.self (env : Environment) (fuel : Nat) : Fits (.free env) (.withFuel fuel) (.withFuel fuel) :=
  .stepwise (fun _ => trivial) id (fun _ => rfl) (fun _ _ _ _ _ _ _ _ _ _ _ => rfl) fuel

theorem Task.size_pos (task : Task α) : 0 < task.size := by
  cases task with
  | expr place e => cases e <;> simp [Task.size, Expr.size]
  | stmt place st => cases st <;> simp [Task.size, Stmt.size]
  | bind place target value kind source => cases target <;> simp [Task.size, Expr.size]
  | pattern place p subject => cases p <;> simp [Task.size, Pattern.size]

/-- Regimes for amounts of fuel: every task uses up some of it. -/
structure IsLadder (R : Nat → Regime env) : Prop where
  bottom : ∀ {n D s}, (R 0).ready n D s → n ≤ 1
  down : ∀ {fuel n m D s}, (R (fuel + 1)).ready n D s → m < n → (R fuel).ready m D s
  faults : ∀ fuel f, (R fuel).faults f → (R (fuel + 1)).faults f
  nullCharacter : ∀ fuel, (R fuel).faults .nullCharacter

theorem Fits.of_ladder (hR : IsLadder R) (hle : fuel ≤ more) : Fits (R fuel) (.withFuel fuel) (.withFuel more) := by
  induction fuel generalizing more with
  | zero =>
    refine ⟨⟨_, rfl⟩, fun _ _ => .inl (hR.nullCharacter 0), fun task n D s hn hd hpre => ⟨fun _ hready => ?_⟩⟩
    have := hR.bottom hready
    have := task.size_pos
    omega
  | succ fuel ih =>
    obtain ⟨more, rfl⟩ : ∃ k, more = k + 1 := ⟨more - 1, by omega⟩
    refine ⟨⟨_, rfl⟩, fun _ _ => .inl (hR.nullCharacter _), fun task n D s hn hd hpre => ?_⟩
    rw [Evaluator.run_withFuel_succ, Evaluator.run_withFuel_succ]
    refine (perform_agrees (ih (Nat.le_of_succ_le_succ hle)) task hd hpre).transfer ?_ (hR.faults fuel)
    exact fun hready => hR.down hready hn

end Concordance
