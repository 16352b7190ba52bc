import Concordance.Proofs.Session.Blame
import Concordance.Proofs.Session.CrossReference
import Concordance.Proofs.Session.Unions

/-!
# Finishing completes or is interrupted

An analysis counts as finished from the moment that its finishing begins. If the finishing ends well, everything that it
is for has been done and stays done until something else is loaded.
-/

namespace Concordance

variable {env : Environment} {s s' : Session}

def Binding.unusedProblem (b : Binding) (file : String) : Diagnostic :=
  ⟨file, b.start, b.stop, .unusedVariable, "Unused variable: " ++ b.name, .info⟩

/-- What finishing is for has been done: nothing waits to be applied, what nothing refers to has been reported if the
settings ask for it, and no reference that may be to a class is still a call. -/
structure Session.Complete (env : Environment) (s : Session) : Prop where
  applied : s.uncalled = []
  reported : env.settings.reportUnused = true → ∀ b ∈ s.heap.bindings, ∀ file, s.heap.unusedIn? b = some file →
    s.problems.reported.any (b.unusedProblem file).sameProblem = true
  constructed : ∀ (r : ReferenceId) (reference : Reference), s.heap.references[r.index]? = some reference →
    s.heap.refersToClass (s.linked r) = true → reference.kind ≠ .call

section Parts

/-- Problems that are there stay, and the unused ones of some bindings are among them. -/
structure Diagnostics.Covers (h : Heap) (bs : List Binding) (before ps : Diagnostics) : Prop where
  kept : ∀ d : Diagnostic, before.reported.any d.sameProblem = true → ps.reported.any d.sameProblem = true
  added : ∀ b ∈ bs, ∀ file, h.unusedIn? b = some file →
    ps.reported.any (b.unusedProblem file).sameProblem = true

theorem Diagnostic.sameProblem_self (d : Diagnostic) : d.sameProblem d = true := by simp [sameProblem]

theorem runOn_reportAt (env : Environment) (s : Session) (file : String) (start stop : Int) (kind : ProblemKind)
    (message : String) (severity : Severity) : ∃ ps : Diagnostics,
      (reportAt file start stop kind message severity).runOn env s = (.ok (), { s with problems := ps }) ∧
      ps.reported.any (Diagnostic.mk file start stop kind message severity).sameProblem = true ∧
      ∀ d : Diagnostic, s.problems.reported.any d.sameProblem = true → ps.reported.any d.sameProblem = true := by
  let d : Diagnostic := ⟨file, start, stop, kind, message, severity⟩
  have hrun : (reportAt file start stop kind message severity).runOn env s =
      (.ok (), if s.problems.reported.any d.sameProblem then s else { s with problems := s.problems.add d }) := rfl
  rw [hrun]
  split
  · rename_i hany
    exact ⟨s.problems, rfl, hany, fun _ h => h⟩
  · refine ⟨s.problems.add d, rfl, ?_, fun e he => ?_⟩
    · simp [Diagnostics.add, d.sameProblem_self, d]
    · rw [Diagnostics.add, List.any_append, he, Bool.true_or]

theorem runOn_reportUnused_row (env : Environment) (s : Session) (h : Heap) (bs : List Binding) : ∃ ps : Diagnostics,
    (bs.forM fun b => match h.unusedIn? b with
      | none => pure ()
      | some file => reportAt file b.start b.stop .unusedVariable ("Unused variable: " ++ b.name) .info).runOn env s =
        (.ok (), { s with problems := ps }) ∧ Diagnostics.Covers h bs s.problems ps := by
  induction bs generalizing s with
  | nil => exact ⟨s.problems, rfl, fun _ h => h, by simp⟩
  | cons b bs ih =>
    simp only [List.forM_eq_forM, List.forM_cons] at ih ⊢
    rw [runOn_bind]
    cases hfile : h.unusedIn? b with
    | none =>
      obtain ⟨ps, hrun, hcovers⟩ := ih s
      refine ⟨ps, hrun, hcovers.kept, ?_⟩
      intro c hc file hunused
      rcases List.mem_cons.1 hc with rfl | hc
      · cases hfile.symm.trans hunused
      · exact hcovers.added c hc file hunused
    | some file =>
      obtain ⟨ps, hreport, hadded, hkept⟩ := runOn_reportAt env s file b.start b.stop .unusedVariable
        ("Unused variable: " ++ b.name) .info
      obtain ⟨qs, hrun, hcovers⟩ := ih { s with problems := ps }
      refine ⟨qs, ?_, fun d hd => hcovers.kept d (hkept d hd), ?_⟩
      · dsimp only
        rw [hreport]
        exact hrun
      · intro c hc file' hunused
        rcases List.mem_cons.1 hc with rfl | hc
        · cases hfile.symm.trans hunused
          exact hcovers.kept _ hadded
        · exact hcovers.added c hc file' hunused

theorem runOn_reportUnusedIfAsked (env : Environment) (s : Session) : ∃ ps : Diagnostics,
    reportUnusedIfAsked.runOn env s = (.ok (), { s with problems := ps }) ∧
      (env.settings.reportUnused = true → Diagnostics.Covers s.heap s.heap.bindings.toList s.problems ps) := by
  rw [reportUnusedIfAsked, runOn_read_bind]
  by_cases hasked : env.settings.reportUnused = true
  · rw [if_pos hasked]
    obtain ⟨ps, hrun, hcovers⟩ := runOn_reportUnused_row env s s.heap s.heap.bindings.toList
    exact ⟨ps, hrun, fun _ => hcovers⟩
  · rw [if_neg hasked]
    exact ⟨s.problems, rfl, fun h => absurd h hasked⟩

namespace Heap

theorem compare_references (h : Heap) (references : Array Reference) (fuel : Nat) :
    Heap.compare { h with references := references } fuel = h.compare fuel := by
  induction fuel with
  | zero => rfl
  | succ fuel ih =>
    funext a b
    simp only [compare, ih]
    rfl

theorem refersToClass_references (h : Heap) (references : Array Reference) (bs : List BindingId) :
    Heap.refersToClass { h with references := references } bs = h.refersToClass bs := by
  have hequal : ∀ a b, Heap.equal { h with references := references } a b = h.equal a b := by
    intro a b
    rw [equal, equal, compare_references]
    rfl
  have huseful : ∀ t, Heap.firstUseful? { h with references := references } t = h.firstUseful? t := by
    intro t
    simp only [firstUseful?, hequal]
    rfl
  simp only [refersToClass, huseful]
  rfl

end Heap

/-- The session in which calls of classes have become constructions. -/
def Session.reclassified (s : Session) : Session :=
  { s with heap.references := s.heap.references.zipWith s.heap.reclassify s.links }

theorem runOn_reclassifyCalls (env : Environment) (s : Session) :
    ∃ n, reclassifyCalls.runOn env s = (.ok n, s.reclassified) := ⟨_, rfl⟩

theorem Session.kind_reclassified (s : Session) (hr : s.reclassified.heap.references[r.index]? = some reference)
    (hclass : s.reclassified.heap.refersToClass (s.reclassified.linked r) = true) : reference.kind ≠ .call := by
  have hzip : (s.heap.references.zipWith s.heap.reclassify s.links)[r.index]? = some reference := hr
  rw [Array.getElem?_zipWith] at hzip
  split at hzip
  · rename_i old bs _ hlinks
    have hlinked : s.reclassified.linked r = bs := by
      show s.links.getD r.index [] = bs
      rw [Array.getD_eq_getD_getElem?, hlinks, Option.getD_some]
    -- What a reference may be to is decided on bindings and types, which have not changed.
    have hrefers : s.heap.refersToClass bs = true := by
      rw [← Heap.refersToClass_references, ← hlinked]
      exact hclass
    cases hzip
    unfold Heap.reclassify
    split
    · simp
    · rename_i hno
      simpa [hrefers] using hno
  · cases hzip

theorem runOn_log_of_plain (env : Environment) (s : Session) (level : Level) {text : String} (ht : '[' ∉ text.toList) :
    ∃ lines, (log level text).runOn env s = (.ok (), { s with log := s.log ++ lines }) := by
  obtain ⟨lines, hlines⟩ := LogEntry.exists_lines level ht
  by_cases hshown : env.shownLevel.isShown level = true
  · refine ⟨lines, ?_⟩
    rw [log, runOn_read_bind, if_pos hshown, hlines]
    rfl
  · refine ⟨[], ?_⟩
    rw [log, runOn_read_bind, if_neg hshown, List.append_nil]
    rfl

theorem not_mem_finished_message (sweeps changed : Nat) :
    '[' ∉ (s!"finished after {sweeps} sweeps, {changed} calls reclassified").toList := by
  have hdigits : ∀ n : Nat, '[' ∉ Nat.toDigits 10 n := by
    intro n hn
    exact absurd (Nat.isDigit_of_mem_toDigits (by decide) (by decide) hn) (by decide)
  have hwords : '[' ∉ (toString "finished after ").toList ∧ '[' ∉ (toString " sweeps, ").toList ∧
      '[' ∉ (toString " calls reclassified").toList := by decide
  simp [hdigits, hwords]

end Parts

section Finish

theorem runOn_finish (hopen : s.finished = false) : SessionStep.finish.run.runOn env s =
    (applyUncalled >>= fun sweeps => reportUnusedIfAsked >>= fun _ => reclassifyCalls >>= fun changed =>
      trace s!"finished after {sweeps} sweeps, {changed} calls reclassified").runOn env { s with finished := true } := by
  show (get >>= fun s => if s.finished = true then pure () else _ : Analysis Unit).runOn env s = _
  rw [runOn_get_bind, hopen, if_neg Bool.false_ne_true]
  rfl

theorem runOn_finish_of_error (hopen : s.finished = false)
    (hrun : applyUncalled.runOn env { s with finished := true } = (.error f, s')) :
    SessionStep.finish.run.runOn env s = (.error f, s') := by
  rw [runOn_finish hopen, runOn_bind, hrun]

theorem runOn_finish_of_ok (hopen : s.finished = false)
    (hrun : applyUncalled.runOn env { s with finished := true } = (.ok sweeps, s')) (hnone : s'.uncalled = []) :
    ∃ s'', SessionStep.finish.run.runOn env s = (.ok (), s'') ∧ s''.finished = s'.finished ∧ s''.Complete env := by
  -- What follows changes the problems, then the references, then the log, and none of it can fail.
  obtain ⟨ps, hreport, hcovers⟩ := runOn_reportUnusedIfAsked env s'
  obtain ⟨s1, hs1⟩ : ∃ s1 : Session, s1 = { s' with problems := ps } := ⟨_, rfl⟩
  rw [← hs1] at hreport
  obtain ⟨changed, hclasses⟩ := runOn_reclassifyCalls env s1
  obtain ⟨lines, htrace⟩ := runOn_log_of_plain env s1.reclassified .debug (not_mem_finished_message sweeps changed)
  refine ⟨{ s1.reclassified with log := s1.reclassified.log ++ lines }, ?_, ?_,
    ⟨?_, fun hasked b hb file hunused => ?_, fun r reference hr hclass => ?_⟩⟩
  · rw [runOn_finish hopen, runOn_bind, hrun]
    dsimp only
    rw [runOn_bind, hreport]
    dsimp only
    rw [runOn_bind, hclasses]
    exact htrace
  · show s1.finished = s'.finished
    rw [hs1]
  · show s1.uncalled = []
    rw [hs1]
    exact hnone
  · subst hs1
    exact (hcovers hasked).added b (Array.mem_toList_iff.2 hb) file hunused
  · exact s1.kind_reclassified hr hclass

end Finish

section Later

theorem runOn_applyUncalled_of_none (env : Environment) (hnone : s.uncalled = []) :
    SessionStep.applyUncalled.run.runOn env s = (.ok (), s) := by
  have happly : applyUncalled.runOn env s = (.ok 0, s) := by
    rw [applyUncalled, runOn_get_bind, runOn_read_bind, evaluating, runOn_get_bind, runOn_read_bind, sweep,
      runOn_get_bind, hnone]
    rfl
  show (discard applyUncalled).runOn env s = _
  rw [runOn_discard, happly]
  rfl

theorem Session.Complete.advance (hc : s.Complete env) (hf : s.finished = true) (hsteps : ∀ x ∈ steps, x.2.loads = false) : s.advance steps = s := by
  induction steps with
  | nil => rfl
  | cons x steps ih =>
    have hstep : (x.2.run.runOn x.1 s).2 = s := by
      have hloads := hsteps x (.head _)
      cases hx : x.2 with
      | applyUncalled => rw [runOn_applyUncalled_of_none x.1 hc.applied]
      | finish => rw [runOn_finish_of_finished hf]
      | start | load | loadText | loadBelow =>
        rw [hx] at hloads
        cases hloads
    show (x.2.run.runOn x.1 s).2.advance steps = s
    rw [hstep]
    exact ih fun y hy => hsteps y (.tail _ hy)

theorem Reachable.advance (hs : Reachable s) (steps : List (Environment × SessionStep)) : Reachable (s.advance steps) := by
  induction steps generalizing s with
  | nil => exact hs
  | cons x steps ih => exact ih (.step hs x.1 x.2)

theorem Reachable.finished_advance (hs : Reachable s) (hf : s.finished = true)
    (steps : List (Environment × SessionStep)) : (s.advance steps).finished = true := by
  induction steps generalizing s with
  | nil => exact hf
  | cons x steps ih =>
    obtain ⟨_, hm⟩ := hs.moves x.1 x.2
    exact ih (.step hs x.1 x.2) (hm.finished hf)

/-- An analysis that counts as finished whatever waits to be applied. -/
structure Session.Interrupted (s : Session) : Prop where
  finish : ∀ env, SessionStep.finish.run.runOn env s = (.ok (), s)
  applied : ∀ env s', SessionStep.applyUncalled.run.runOn env s = (.ok (), s') → s'.uncalled = []
  causes : ∀ env f s', SessionStep.applyUncalled.run.runOn env s = (.error f, s') → env.Causes f

theorem Session.Idle.outcome_applyUncalled (hi : s.Idle) (hl : s.Located) (env : Environment) :
    Outcome env .applyUncalled (fun f => env.Causes f ∨ f = .outOfFuel) s (fun _ s' => s'.uncalled = [])
      (applyUncalled.runOn env s) := by
  have hplain : Means.plain.applyUncalled = applyUncalled := rfl
  rw [← hplain]
  exact ((applyUncalled_settles (caused_equips env)).run hi hl).2

theorem Reachable.interrupted (hs : Reachable s) (hf : s.finished = true) : s.Interrupted where
  finish := runOn_finish_of_finished hf
  applied env s' hrun := by
    have hdiscard : (discard applyUncalled).runOn env s = (.ok (), s') := hrun
    rw [runOn_discard] at hdiscard
    have hout := hs.idle.outcome_applyUncalled hs.located env
    rcases happly : applyUncalled.runOn env s with ⟨f | n, s1⟩ <;> rw [happly] at hdiscard hout <;> cases hdiscard
    exact hout.2
  causes _ _ _ hrun := hs.applyUncalled_causes hrun

/-- Finishing completes or is interrupted. In every reachable session whose analysis is not finished, finishing ends
well or with a fault that the environment causes, and the analysis counts as finished from then on. If it ends well,
it is complete, and steps that load nothing change nothing any more. If it ends with a fault, this came out of applying
what waits, and the session is as the fault left it. Whatever steps follow, finishing again changes nothing, and only
applying what waits completes that part of the work. -/
theorem finish_completes_unless_interrupted (hs : Reachable s) (hopen : s.finished = false) (env : Environment) :
    ∃ r s', SessionStep.finish.run.runOn env s = (r, s') ∧ s'.finished = true ∧
      (r = .ok () → s'.Complete env ∧
        ∀ steps, (∀ x ∈ steps, x.2.loads = false) → s'.advance steps = s') ∧
      ∀ f, r = .error f → env.Causes f ∧
        SessionStep.applyUncalled.run.runOn env { s with finished := true } = (.error f, s') ∧
        ∀ steps, (s'.advance steps).Interrupted := by
  -- The analysis counts as finished before anything is applied, so a fault on the way cannot undo it.
  have hmove : Move env .finish true s { s with finished := true } := .finish rfl
  have hout := (hmove.idle hs.idle).outcome_applyUncalled hs.located env
  have hreach := hs.step env .finish
  rcases happly : applyUncalled.runOn env { s with finished := true } with ⟨f | n, s1⟩ <;> rw [happly] at hout
  · have hrun := runOn_finish_of_error hopen happly
    have hfinished : s1.finished = true := hout.1.finished rfl
    rw [hrun] at hreach
    refine ⟨_, s1, hrun, hfinished, by simp, ?_⟩
    rintro _ ⟨⟩
    refine ⟨hs.finish_causes hrun, ?_, fun steps => ?_⟩
    · show (discard applyUncalled).runOn env _ = _
      rw [runOn_discard, happly]
      rfl
    · exact (hreach.advance steps).interrupted (hreach.finished_advance hfinished steps)
  · obtain ⟨s', hrun, hsame, hcomplete⟩ := runOn_finish_of_ok hopen happly hout.2
    have hfinished : s'.finished = true := hsame.trans (hout.1.finished rfl)
    exact ⟨_, s', hrun, hfinished, fun _ => ⟨hcomplete, fun steps => hcomplete.advance hfinished⟩, by simp⟩

/-- A file with two functions, the first of which imports a file that the parser breaks down on. -/
def brokenSweep : Environment where
  workspace := .ofFiles [("m.py", ⟨.empty, .tree ⟨some ⟨0, 44⟩,
      [.functionDef (some ⟨0, 23⟩) 0 ⟨1, "f", some ⟨4, 5⟩⟩ ⟨[], [], none, [], none⟩
          [.line [.importModules [⟨[⟨2, "bad", some ⟨20, 23⟩⟩], none⟩]]] [],
        .functionDef (some ⟨24, 43⟩) 3 ⟨4, "g", some ⟨28, 29⟩⟩ ⟨[], [], none, [], none⟩ [.line [.giveBack none]] []],
        by decide, by decide⟩⟩),
    ("bad.py", ⟨.empty, .invalid⟩)] [] none
  settings := { searchPaths := ["/w"] }

/-- Whether finishing is ended by the parser and leaves one function to wait. -/
def Session.stops (env : Environment) (s : Session) : Bool :=
  !s.finished && match SessionStep.finish.run.runOn env s with
    | (.error .invalidTree, s') => s'.finished && s'.uncalled.length == 1
    | _ => false

/-- The session after the file with the two functions has been loaded. -/
def Session.withTwo : Session := .after [(brokenSweep, .start), (brokenSweep, .load "m.py")]

theorem withTwo_stops : Session.withTwo.stops brokenSweep = true := by decide +kernel

theorem withTwo_stopped : Reachable .withTwo ∧ Session.withTwo.finished = false ∧ ∃ s',
    SessionStep.finish.run.runOn brokenSweep .withTwo = (.error .invalidTree, s') ∧ s'.finished = true ∧
      s'.uncalled.length = 1 := by
  have hstops := withTwo_stops
  rw [Session.stops, Bool.and_eq_true, Bool.not_eq_true'] at hstops
  refine ⟨.after _, hstops.1, ?_⟩
  have hrest := hstops.2
  split at hrest
  · rename_i s' hrun
    simp only [Bool.and_eq_true, beq_iff_eq] at hrest
    exact ⟨s', hrun, hrest.1, hrest.2⟩
  · cases hrest

/-- A fault interrupts the finishing of the two functions: it has a cause, finishing again changes nothing, and
applying what waits, wherever it ends well, leaves nothing to wait. -/
theorem finish_completes_unless_interrupted_withTwo : Reachable .withTwo ∧ Session.withTwo.finished = false ∧
    ∃ s', SessionStep.finish.run.runOn brokenSweep .withTwo = (.error .invalidTree, s') ∧ s'.uncalled.length = 1 ∧
      brokenSweep.Causes .invalidTree ∧ ∀ env, SessionStep.finish.run.runOn env s' = (.ok (), s') ∧
        ∀ s'', SessionStep.applyUncalled.run.runOn env s' = (.ok (), s'') → s''.uncalled = [] := by
  obtain ⟨hs, hopen, s', hrun, _, hwaits⟩ := withTwo_stopped
  obtain ⟨r, s1, hrun', _, _, hfault⟩ := finish_completes_unless_interrupted hs hopen brokenSweep
  cases hrun.symm.trans hrun'
  obtain ⟨hcause, _, hinterrupted⟩ := hfault _ rfl
  exact ⟨hs, hopen, s', hrun, hwaits, hcause, fun env => ⟨(hinterrupted []).finish env, (hinterrupted []).applied env⟩⟩

/-- Finishing does not always complete the work, and is not taken up again: an analysis can be finished while a function
waits, and finishing it a second time leaves the function waiting. -/
theorem finish_leaves_uncalled : ∃ s s', Reachable s ∧
    SessionStep.finish.run.runOn brokenSweep s = (.error .invalidTree, s') ∧ s'.finished = true ∧
    SessionStep.finish.run.runOn brokenSweep s' = (.ok (), s') ∧ s'.uncalled ≠ [] := by
  obtain ⟨hs, _, s', hrun, hfinished, hwaits⟩ := withTwo_stopped
  refine ⟨_, s', hs, hrun, hfinished, runOn_finish_of_finished hfinished _, fun hnone => ?_⟩
  rw [hnone] at hwaits
  cases hwaits

end Later

end Concordance
