import Concordance.Proofs.Tracking.Stmt

/-!
# Steps keep a session in order

Whatever steps are taken, the session is in order, before and after every task. A test that holds of all tasks which
are due makes no difference when it is put into the evaluator.
-/

namespace Concordance

open Session (moduleTable)

variable {passes : Verdict}

variable {env : Environment} {final s : Session}

/-- A test that every task passes that is due, in sessions in order on the way to the final one. -/
def Verdict.Holds (passes : Verdict) (final : Session) : Prop :=
  ∀ {α : Type} (task : Task α) (s : Session) (r : Except Fault α) (s' : Session), s.Due task.place task.piece →
    s.Ordered → s'.Ordered → s.Onward s' → s'.Precedes final → passes α task s r s'

/-- A test that every task passes that is due and begun and ended by an evaluator, in sessions in order on the way to the
final one. -/
def Verdict.HoldsOf (passes : Verdict) (env : Environment) (final : Session) : Prop :=
  ∀ {α : Type} (task : Task α) (s : Session) (r : Except Fault α) (s' : Session), s.Due task.place task.piece →
    s.Ordered → s'.Ordered → s.Onward s' → s'.Precedes final → task.Sourced s →
    (∃ fuel, ((Evaluator.withFuel fuel).run task).runOn env s = (r, s')) → passes α task s r s'

theorem Verdict.Holds.of (hp : passes.Holds final) : passes.HoldsOf env final :=
  fun task s r s' ht ho ho' hon hb _ _ => hp task s r s' ht ho ho' hon hb

theorem Minds.vetted (hp : passes.HoldsOf env final) (alarm : Fault) (fuel : Nat) :
    Minds env final (.withFuel fuel) (.vetted passes alarm fuel) := by
  induction fuel with
  | zero => exact ⟨fun _ _ _ _ => .throw⟩
  | succ fuel ih =>
    refine ⟨fun {α} task s ht hs => ⟨fun s1 hs1 ho => ?_⟩⟩
    -- The tasks inside are done alike with less fuel; it remains to look at the task itself.
    obtain ⟨hon, ho2, heq⟩ := (perform_tracks ih task ht hs).run s1 hs1 ho
    refine ⟨hon, ho2, fun hb => ?_⟩
    show ((perform (.vetted passes alarm fuel) task).vetted (passes α task) alarm).runOn env s1 = _
    rw [runOn_vetted, heq hb]
    · rfl
    · rw [heq hb]
      exact hp task s1 _ _ (ht.later hs1) ho ho2 hon hb (Task.Sourced.later hs hs1.toBefore) ⟨fuel + 1, rfl⟩

theorem Minds.withFuel (fuel : Nat) : Minds env final (.withFuel fuel) (.withFuel fuel) := by
  refine ⟨fun task s ht hs => ⟨fun s1 hs1 ho => ?_⟩⟩
  have hvetted : Minds env final (.withFuel fuel) (.vetted (fun _ _ _ _ _ => True) .outOfFuel fuel) :=
    .vetted (fun _ _ _ _ _ _ _ _ _ _ _ => trivial) .outOfFuel fuel
  obtain ⟨hon, ho', _⟩ := (hvetted.run task ht hs).run s1 hs1 ho
  exact ⟨hon, ho', fun _ => rfl⟩

section Steps

theorem addPath_tracks (path : String) : Tracks env final s (addPath path) (addPath path) := by
  refine (canonicalPath_tracks path).bind fun canonical => .bind (.read_bind ?_) fun _ => .change fun s1 => ?_
  · split
    · exact .pure
    · split
      · exact .throw
      · exact trace_tracks _
  · split
    · exact ⟨⟨rfl, rfl, rfl, rfl, rfl, rfl, rfl, .of_eq rfl⟩, rfl⟩
    · exact ⟨⟨rfl, rfl, rfl, rfl, rfl, rfl, rfl, .of_eq rfl⟩, rfl⟩

theorem startSession_tracks : Tracks env final s startSession startSession := by
  refine .read_bind (.bind (.bind (.change fun _ => ⟨⟨rfl, rfl, rfl, rfl, rfl, rfl, rfl, .of_eq rfl⟩, rfl⟩) fun _ => ?_) fun _ => ?_)
  · exact .forM _ fun p _ => addPath_tracks p
  · split
    · exact .forM _ fun p _ => addPath_tracks p
    · exact .pure

theorem addRoot_tracks (root : Path) : Tracks env final s (addRoot root) (addRoot root) := by
  refine (addPath_tracks _).bind fun _ => .read_bind ?_
  split
  · exact addPath_tracks _
  · exact .pure

theorem probe_tracks (test : Node → Bool) (p : Path) : Tracks env final s (probe test p) (probe test p) := by
  refine .read_bind ?_
  split
  · exact .pure
  · exact .throw

theorem loadBelowBy_tracks {load : String → Analysis (Option ModuleId)}
    (hload : ∀ path, Tracks env final s (load path) (load' path)) (path : String) :
    Tracks env final s (loadBelowBy load path) (loadBelowBy load' path) := by
  refine (canonicalPath_tracks path).bind fun canonical => (probe_tracks ..).bind fun isFile => ?_
  split
  · exact (hload _).discard.bind fun _ => .pure
  · refine (probe_tracks ..).bind fun isDirectory => ?_
    split
    · refine (addRoot_tracks _).bind fun _ => .bind (.read_bind .pure) fun files => ?_
      exact .bind (.forM _ fun f _ => (hload f).discard) fun _ => .pure
    · exact (log_tracks ..).bind fun _ => .pure

theorem sweep_tracks (minds : Minds env final ev ev') (fuel sweeps : Nat) :
    Tracks env final s (sweep ev fuel sweeps) (sweep ev' fuel sweeps) := by
  induction fuel generalizing sweeps with
  | zero => exact .throw
  | succ fuel ih =>
    refine .get_bind fun s' hs' _ => ?_
    split
    · exact .pure
    · refine (trace_tracks _).bind fun _ => .bind (.forM _ fun f _ => .get_bind fun s2 _ _ => ?_) fun _ => ?_
      · split
        · exact (apply_tracks minds ..).discard
        · exact .pure
      · exact (ih _).later hs'

theorem reclassifyCalls_tracks : Tracks env final s reclassifyCalls reclassifyCalls := by
  refine ⟨fun s1 _ ho => ?_⟩
  have hsteady : s1.heap.Steady Heap.Nowhere (reclassifyCalls.runOn env s1).2.heap :=
    .ofSame rfl rfl (.of_types_eq rfl) (.ofSame rfl rfl rfl) rfl (fun _ _ _ _ => rfl)
      fun hc => hc.retains fun _ hb => ⟨hb, rfl⟩
  have hal : s1.Alike (reclassifyCalls.runOn env s1).2 := ⟨rfl, rfl, rfl, rfl, rfl, rfl, rfl, .of_eq rfl⟩
  exact ⟨ho.onward hal hsteady, ho.steady hal hsteady (ho.apart.ofReferences _), fun _ => rfl⟩

theorem Heap.kind_of_unusedIn {h : Heap} (hb : h.unusedIn? b = some file) :
    b.kind ≠ .attrName ∧ b.kind ≠ .module ∧ b.file = some file := by
  unfold Heap.unusedIn? at hb
  split at hb
  · cases hb
  · split at hb
    · cases hb
    · rename_i hkind
      simp only [Bool.or_eq_true, decide_eq_true_eq, not_or] at hkind
      split at hb
      · cases hb
      · exact ⟨hkind.1, hkind.2, hb⟩

theorem reportUnused_tracks : Tracks env final s reportUnusedIfAsked reportUnusedIfAsked := by
  refine .read_bind ?_
  split
  · refine .theHeap_get fun s' _ ho => .forM _ fun b hb => ?_
    split
    · exact .pure
    · rename_i file hfile
      obtain ⟨hattr, hmodule, hb'⟩ := Heap.kind_of_unusedIn hfile
      obtain ⟨i, hi, rfl⟩ := List.getElem_of_mem hb
      have hi' : i < s'.heap.bindings.size := by simpa using hi
      have hbinding : s'.heap.binding ⟨i⟩ = s'.heap.bindings.toList[i] := by
        simp [Heap.binding, Array.getD_eq_getD_getElem?, hi']
      -- Its binding is at text of the file.
      rcases ho.marked.bindings ⟨i⟩ hi' with h | h | htext
      · exact absurd (hbinding ▸ h) hattr
      · exact absurd (hbinding ▸ h) hmodule
      · rw [hbinding] at htext
        obtain ⟨m, unit, hunit, hpath, htext⟩ := htext file hb'
        exact reportAt_tracks ⟨m, unit, hunit, hpath, .inl htext⟩
  · exact .pure

variable {m m' : Means} (hm : ∀ fuel, Minds env final (m.evaluator fuel) (m'.evaluator fuel))
  (sweeps : m'.sweeps = m.sweeps)
include hm

theorem evaluating_tracks {work work' : Evaluator → Analysis α} (size : Nat)
    (hwork : ∀ ev ev', Minds env final ev ev' → ∀ s, Tracks env final s (work ev) (work' ev')) :
    Tracks env final s (m.evaluating size work) (m'.evaluating size work') :=
  .get_bind fun s' _ _ => .read_bind (hwork _ _ (hm _) s')

theorem load_tracks (path : String) : Tracks env final s (m.load path) (m'.load path) :=
  evaluating_tracks hm 0 fun _ _ minds _ => loadFile_tracks minds path none

include sweeps

theorem applyUncalled_tracks : Tracks env final s m.applyUncalled m'.applyUncalled := by
  refine .get_bind fun s' _ _ => .read_bind ?_
  rw [sweeps]
  exact evaluating_tracks hm 0 fun _ _ minds _ => sweep_tracks minds ..

theorem runBy_tracks (step : SessionStep) : Tracks env final s (step.runBy m) (step.runBy m') := by
  cases step with
  | start => exact startSession_tracks
  | load path => exact (load_tracks hm path).discard
  | loadText path content outcome =>
    exact (evaluating_tracks hm _ fun _ _ minds _ => loadFile_tracks minds path (some (content, outcome))).discard
  | loadBelow path => exact (loadBelowBy_tracks (load_tracks hm) path).discard
  | applyUncalled => exact (applyUncalled_tracks hm sweeps).discard
  | finish =>
    refine .get_bind fun s' _ _ => ?_
    split
    · exact .pure
    · refine .bind (.change fun _ => ⟨⟨rfl, rfl, rfl, rfl, rfl, rfl, rfl, .of_eq rfl⟩, rfl⟩) fun _ => ?_
      refine (applyUncalled_tracks hm sweeps).bind fun _ => reportUnused_tracks.bind fun _ => ?_
      exact reclassifyCalls_tracks.bind fun _ => trace_tracks _

end Steps

theorem step_tracks_of (hp : passes.HoldsOf env final) (alarm : Fault) (step : SessionStep) :
    Tracks env final s step.run (step.runBy (.vetting passes alarm)) := by
  have hm : ∀ fuel, Minds env final (Means.plain.evaluator fuel) ((Means.vetting passes alarm).evaluator fuel) :=
    fun fuel => .vetted hp alarm fuel
  rw [← SessionStep.runBy_plain]
  exact runBy_tracks hm rfl step

theorem step_tracks (hp : passes.Holds final) (alarm : Fault) (step : SessionStep) :
    Tracks env final s step.run (step.runBy (.vetting passes alarm)) := step_tracks_of hp.of alarm step

section Reachable

theorem Session.ofLibrary_ordered {library : Table String ClassId × Heap}
    (hs : Heap.outset.Steady (· = globals) library.2) (ha : library.2.Apart) (hu : library.2.Unfiled) :
    (Session.ofLibrary library).Ordered where
  unknown := by
    have hhas : Heap.outset.Has .unknown := by
      rw [Heap.Has]
      decide
    exact ⟨hs.types.has hhas, hs.types.unknown hhas rfl⟩
  apart := ha
  filed := by
    refine ⟨List.nodup_nil, fun _ hp => ?_, fun _ hp => ?_, fun _ hp => ?_, rfl⟩
    · cases hp
    · rcases hp with hp | hp <;> cases hp
    · cases hp
  shelved := by
    refine ⟨fun _ _ hu => ?_, fun _ _ _ _ hu => ?_, fun _ _ hu => ?_, fun _ _ _ _ hu => ?_, fun _ _ _ _ hu => ?_,
      fun q m hm => ?_⟩
    on_goal 6 =>
      -- The table of modules is empty.
      obtain ⟨b, hbound, _⟩ := hm
      rw [Session.ofLibrary, hs.table] at hbound
      have hmem := Scope.mem_values_of_bound hbound
      rw [(Heap.outset_scope moduleTable).2] at hmem
      cases hmem
    all_goals cases hu
  rooted := by
    refine ⟨fun f c hc => ?_, fun _ _ hf => ?_, fun _ _ hc => ?_, fun _ _ hc => ?_⟩
    · -- Functions of the library have no code.
      have hnone : (library.2.function f).code = none := (hs.codes f).trans rfl
      rw [Session.ofLibrary, hnone] at hc
      cases hc
    · cases hf
    · cases hc
    · cases hc
  owned := by
    intro x m hw name bs hbound b hmem
    -- Names of the library are bound in the outermost scope, which is within no module.
    have hx : x ≠ globals := fun heq => ha.housed.not_within_globals (heq ▸ hw)
    rw [Session.ofLibrary, hs.names x hx] at hbound
    have hmem' := Scope.mem_values_of_bound hbound
    rw [(Heap.outset_scope x).2] at hmem'
    cases hmem'
  stocked := fun _ _ => ⟨fun _ => rfl, fun _ => rfl⟩
  marked := by
    refine ⟨fun d hd => ?_, fun b hb => .inr (.inr fun path hpath => ?_), .nil⟩
    · cases hd
    · cases (hu b hb).symm.trans hpath

theorem Session.Ordered.step (ho : s.Ordered) (env : Environment) (step : SessionStep) :
    s.Onward (step.run.runOn env s).2 ∧ (step.run.runOn env s).2.Ordered := by
  have htracks : Tracks env s s step.run (step.runBy (.vetting (fun _ _ _ _ _ => True) .outOfFuel)) :=
    step_tracks (fun _ _ _ _ _ _ _ _ _ => trivial) .outOfFuel step
  obtain ⟨hon, ho', _⟩ := htracks.run s (.refl s) ho
  exact ⟨hon, ho'⟩

theorem Reachable.ordered (hr : Reachable s) : s.Ordered := by
  induction hr with
  | empty =>
    obtain ⟨hsteady, hapart, hunfiled⟩ := bindLibrary_steady
    exact Session.ofLibrary_ordered hsteady hapart hunfiled
  | step _ env step ih => exact (ih.step env step).2

theorem Session.Ordered.runOn_vetting_of (ho : s.Ordered) {step : SessionStep}
    (hp : passes.HoldsOf env (step.run.runOn env s).2) (alarm : Fault) :
    (step.runBy (.vetting passes alarm)).runOn env s = step.run.runOn env s := by
  have htracks : Tracks env (step.run.runOn env s).2 s step.run (step.runBy (.vetting passes alarm)) :=
    step_tracks_of hp alarm step
  obtain ⟨_, _, heq⟩ := htracks.run s (.refl s) ho
  exact heq (.refl _)

theorem Reachable.runOn_vetting_of (hr : Reachable s) (hp : ∀ env final, passes.HoldsOf env final)
    (env : Environment) (step : SessionStep) (alarm : Fault) :
    (step.runBy (.vetting passes alarm)).runOn env s = step.run.runOn env s :=
  hr.ordered.runOn_vetting_of (hp _ _) alarm

theorem Reachable.runOn_vetting (hr : Reachable s) (hp : ∀ final, passes.Holds final)
    (env : Environment) (step : SessionStep) (alarm : Fault) :
    (step.runBy (.vetting passes alarm)).runOn env s = step.run.runOn env s :=
  hr.runOn_vetting_of (fun _ _ => Verdict.Holds.of (hp _)) env step alarm

theorem Session.after_onward (steps rest : List (Environment × SessionStep)) :
    (Session.after steps).Onward (Session.after (steps ++ rest)) := by
  induction rest using List.reverseRecOn with
  | nil =>
    rw [List.append_nil]
    exact .refl _
  | append_singleton rest x ih =>
    rw [← List.append_assoc, Session.after_concat]
    exact ih.trans ((Reachable.after _).ordered.step x.1 x.2).1

end Reachable

end Concordance
