import Concordance.Proofs.Session.Ledger
import Concordance.Proofs.Session.Termination

/-!
# The fixed point of finishing

An evaluator can be made to watch the session: it raises an alarm if a condition does not hold when a task is begun.
-/

namespace Concordance

open Syntax (Item)

section Watching

variable (check : Session → Bool) (alarm : Fault)

/-- Does a task like `evaluate`, but ends with a fault when a task is begun in a session that fails a check. -/
def evaluateWatched : Nat → {α : Type} → Task α → Analysis α
  | 0, _, _ => throw .outOfFuel
  | fuel + 1, _, task => do
    if check (← get) then perform ⟨fun t => evaluateWatched fuel t⟩ task else throw alarm

def Evaluator.watched (fuel : Nat) : Evaluator := ⟨fun t => evaluateWatched check alarm fuel t⟩

def Means.watching : Means := ⟨.watched check alarm, id⟩

theorem Fits.watched {R : Regime env} (hfaults : ∀ f, R.faults f)
    (hready : ∀ {n m D s}, R.ready n D s → R.ready m D s) (hcheck : ∀ {n D s}, R.ready n D s → check s = true)
    (fuel : Nat) : Fits R (.withFuel fuel) (.watched check alarm fuel) := by
  refine .stepwise hfaults hready (fun _ => rfl) (fun fuel α task n D s _ _ hr _ _ => ?_) fuel
  show (get >>= fun s => if check s = true then perform (.watched check alarm fuel) task else throw alarm).runOn env s = _
  rw [runOn_get_bind, if_pos (hcheck hr)]

end Watching

def Regime.accounted (env : Environment) : Regime env where
  ready _ _ s := s.Books
  faults _ := True
  faults_of_cause _ _ := trivial
  params hb _ := hb
  run hb hr := hr.books rfl hb
  addClass hb r c := hb.addClass r c
  enter hb _ _ _ _ he := fun g hg => (hb g hg).enter he
  enterFile hb _ _ parsing _ := (parsing.books rfl (hb.enterFile _)).addUnit _ _

theorem watching_equips (unharmed : env.injection = none) (alarm : Fault) :
    Equips env Session.Books (fun _ => True) .plain fun _ => .watching (fun s => decide s.Ledger) alarm where
  invariant _ _ _ _ hb hm := hm.books unharmed rfl hb
  faults _ _ := trivial
  fits bound s _ hb _ := by
    refine ⟨.accounted env, hb, fun _ _ => trivial, 0, fun _ _ => ?_⟩
    exact .watched _ alarm (fun _ => trivial) id (fun {_ _ s} (hb : s.Books) => decide_eq_true hb.ledger) _
  sweeps _ := Nat.le_refl _
  sweeps_of_le _ _ _ := Nat.le_refl _

def SessionStep.loads : SessionStep → Bool
  | .applyUncalled | .finish => false
  | _ => true

/-- A session after steps that load something, each of which has ended well. -/
inductive Loaded : List (Environment × SessionStep) → Session → Prop
  | empty : Loaded [] Session.empty
  | step {steps : List (Environment × SessionStep)} {s s' : Session} (hs : Loaded steps s) (env : Environment)
      (unharmed : env.injection = none) (step : SessionStep) (loads : step.loads = true)
      (ended : step.run.runOn env s = (.ok (), s')) : Loaded (steps ++ [(env, step)]) s'

theorem Session.empty_books : Session.empty.Books := fun _ hf => nomatch hf

theorem step_of_books (hi : s.Idle) (hb : s.Books) (unharmed : env.injection = none) (step : SessionStep) :
    (∀ alarm, (step.runBy (.watching (fun s => decide s.Ledger) alarm)).runOn env s = step.run.runOn env s) ∧
      ∀ s', step.run.runOn env s = (.ok (), s') → Move env step true s s' ∧ step.Post s s' := by
  refine ⟨fun alarm => ?_, fun s' hrun => ?_⟩
  · obtain ⟨⟨N, hN⟩, _⟩ := (step_settles (watching_equips unharmed alarm) (fun _ _ => trivial) step).run hi hb
    rw [SessionStep.runBy_plain] at hN
    exact hN N (Nat.le_refl _)
  · obtain ⟨_, hout⟩ := (step_settles (watching_equips unharmed .outOfFuel) (fun _ _ => trivial) step).run hi hb
    rw [SessionStep.runBy_plain, hrun] at hout
    exact hout

section Loaded

theorem Loaded.books (hs : Loaded steps s) : s.Idle ∧ s.Books ∧ s.finished = false := by
  induction hs with
  | empty => exact ⟨Session.empty_idle, Session.empty_books, rfl⟩
  | step _ env unharmed step loads ended ih =>
    obtain ⟨hi, hb, hf⟩ := ih
    obtain ⟨hm, _⟩ := (step_of_books hi hb unharmed step).2 _ ended
    have hk : step ≠ .finish := by
      rintro rfl
      cases loads
    exact ⟨hm.idle hi, hm.books unharmed rfl hb, (hm.finished_eq hk).trans hf⟩

theorem Loaded.reachable (hs : Loaded steps s) : Reachable s := by
  induction hs with
  | empty => exact .empty
  | step _ env _ step _ ended ih =>
    have hstep := ih.step env step
    rwa [ended] at hstep

theorem Loaded.induct {I : List (Environment × SessionStep) → Session → Prop} (hs : Loaded steps s)
    (empty : I [] Session.empty)
    (move : ∀ {steps s s'} {env : Environment} {step : SessionStep}, s.Idle → env.injection = none → I steps s →
      Move env step true s s' → I (steps ++ [(env, step)]) s') : I steps s := by
  induction hs with
  | empty => exact empty
  | step hs env unharmed step _ ended ih =>
    obtain ⟨hi, hb, _⟩ := hs.books
    exact move hi unharmed ih ((step_of_books hi hb unharmed step).2 _ ended).1

end Loaded

theorem runOn_finish_of_finished (hf : s.finished = true) (env : Environment) :
    SessionStep.finish.run.runOn env s = (.ok (), s) := by
  show (get >>= fun s => if s.finished = true then pure () else _ : Analysis Unit).runOn env s = _
  rw [runOn_get_bind, if_pos hf]
  rfl

theorem Session.Books.applied {s : Session} (hb : s.Books) (hcalls : s.callStack = []) (hnone : s.uncalled = []) :
    ∀ f ∈ s.functions, (s.heap.function f).called = true ∧ (s.heap.function f).arrows ≠ [] := by
  intro f hf
  have haccounts := (hb f hf).accounts
  have hcalled : (s.heap.function f).called = true := by
    rw [← Bool.not_eq_false, ← haccounts.1, hnone]
    exact List.not_mem_nil
  refine ⟨hcalled, (haccounts.2 hcalled).resolve_right ?_⟩
  rw [hcalls]
  exact List.not_mem_nil

/-- After steps that load something, functions are accounted for; they are so whenever a task is begun in a further
step, since an evaluator that watches over it never raises the alarm. Finishing leaves no function to wait: all of
them have been applied and have a result. Finishing again changes nothing. -/
theorem finish_reaches_fixedPoint {steps : List (Environment × SessionStep)} {s : Session} (hs : Loaded steps s)
    {env : Environment} (unharmed : env.injection = none) :
    s.Ledger ∧
    (∀ (step : SessionStep) (alarm : Fault),
      (step.runBy (.watching (fun s => decide s.Ledger) alarm)).runOn env s = step.run.runOn env s) ∧
    ∀ s', SessionStep.finish.run.runOn env s = (.ok (), s') →
      s'.Ledger ∧ s'.uncalled = [] ∧
      (∀ f ∈ s'.functions, (s'.heap.function f).called = true ∧ (s'.heap.function f).arrows ≠ []) ∧
      ∀ env', SessionStep.finish.run.runOn env' s' = (.ok (), s') := by
  obtain ⟨hi, hb, hopen⟩ := hs.books
  refine ⟨hb.ledger, fun step => (step_of_books hi hb unharmed step).1, fun s' hrun => ?_⟩
  obtain ⟨hm, hfinished, hnone⟩ := (step_of_books hi hb unharmed .finish).2 s' hrun
  have hb' := hm.books unharmed rfl hb
  exact ⟨hb'.ledger, hnone hopen, hb'.applied (hm.idle hi).calls (hnone hopen), runOn_finish_of_finished hfinished⟩

/-- Whether a single step and the finishing after it end well, and what they lead to passes a test. -/
def endsWith (env : Environment) (step : SessionStep) (test : Session → Bool) : Bool :=
  match step.run.runOn env Session.empty with
  | (.error _, _) => false
  | (.ok _, s) =>
    match SessionStep.finish.run.runOn env s with
    | (.error _, _) => false
    | (.ok _, s') => test s'

theorem Loaded.of_endsWith (unharmed : env.injection = none) {step : SessionStep}
    (loads : step.loads = true) (ends : endsWith env step test = true) :
    ∃ s s', Loaded [(env, step)] s ∧ SessionStep.finish.run.runOn env s = (.ok (), s') ∧ test s' = true := by
  unfold endsWith at ends
  split at ends
  · cases ends
  · rename_i hstep
    split at ends
    · cases ends
    · rename_i hfinish
      exact ⟨_, _, .step .empty env unharmed step loads hstep, hfinish, ends⟩

/-- A file with a function that gives itself back and is never called. -/
def selfReturning : Environment where
  workspace := .ofFiles [("m.py", ⟨.empty, .tree ⟨some ⟨0, 17⟩,
    [.functionDef (some ⟨0, 17⟩) 0 ⟨1, "f", some ⟨4, 5⟩⟩ ⟨[], [], none, [], none⟩
      [.line [.giveBack (some (.name ⟨2, "f", some ⟨16, 17⟩⟩))]] []], by decide, by decide⟩⟩)] [] none
  settings := default

theorem selfReturning_endsWith : endsWith selfReturning (.load "m.py") (fun s =>
    decide (s.loading.loaded = ["/w/m.py"] ∧ s.functions.length = 1 ∧ s.summary.references = 1)) = true := by
  decide +kernel

theorem finish_reaches_fixedPoint_selfReturning : ∃ s s', Loaded [(selfReturning, .load "m.py")] s ∧
    SessionStep.finish.run.runOn selfReturning s = (.ok (), s') ∧ s'.uncalled = [] ∧ s'.functions.length = 1 ∧
    ∀ f ∈ s'.functions, (s'.heap.function f).called = true ∧ (s'.heap.function f).arrows ≠ [] := by
  obtain ⟨s, s', hs, hfinish, htest⟩ := Loaded.of_endsWith rfl rfl selfReturning_endsWith
  obtain ⟨_, _, hfixed⟩ := finish_reaches_fixedPoint hs (rfl : selfReturning.injection = none)
  obtain ⟨_, hnone, happlied, _⟩ := hfixed s' hfinish
  exact ⟨s, s', hs, hfinish, hnone, (of_decide_eq_true htest).2.1, happlied⟩

end Concordance
