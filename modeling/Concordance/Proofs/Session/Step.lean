import Concordance.Proofs.Inference.Evaluate
import Concordance.Proofs.Session.Move

/-!
# Steps of a session

Loading files, texts and directories, applying what was never applied, and finishing. A step asks for evaluators;
`Means` says which ones it is given.
-/

namespace Concordance

/-- What steps of a session work with. -/
structure Means where
  evaluator : Nat → Evaluator
  sweeps : Nat → Nat

namespace Means

def plain : Means := ⟨.withFuel, id⟩

def fixed (fuel : Nat) : Means := ⟨fun _ => .withFuel fuel, fun _ => fuel⟩

variable (m : Means)

def evaluating {α : Type} (size : Nat) (work : Evaluator → Analysis α) : Analysis α := do
  let parsed := (← get).loading.cache.weight
  work (m.evaluator (fuelFor (parsed + (← read).workspace.top.weight + size)))

def load (path : String) : Analysis (Option ModuleId) := m.evaluating 0 fun ev => loadFile ev path

def loadText (path : String) (content : ByteArray) (outcome : ParseOutcome) : Analysis (Option ModuleId) :=
  m.evaluating (match outcome with
    | .tree t => t.size
    | _ => 0) fun ev => loadFile ev path (some (content, outcome))

def applyUncalled : Analysis Nat := do
  let s ← get
  let nodes := s.loading.cache.weight + (← read).workspace.top.weight
  m.evaluating 0 fun ev => sweep ev (m.sweeps (nodes + s.uncalled.length + 2)) 0

end Means

namespace SessionStep

def runBy (m : Means) : SessionStep → Analysis Unit
  | start => startSession
  | load path => discard (m.load path)
  | loadText path content outcome => discard (m.loadText path content outcome)
  | loadBelow path => discard (loadBelowBy m.load path)
  | applyUncalled => discard m.applyUncalled
  | finish => finishBy m.applyUncalled

/-- What a step leaves behind: after functions that were never applied have been, and after an analysis has been
finished for the first time, none is left. -/
def Post (step : SessionStep) (s s' : Session) : Prop :=
  match step with
  | applyUncalled => s'.uncalled = []
  | finish => s'.finished = true ∧ (s.finished = false → s'.uncalled = [])
  | _ => True

theorem runBy_plain (step : SessionStep) : step.runBy .plain = step.run := by cases step <;> rfl

end SessionStep

/-- A fault that may come from what a step is asked for: no lack of fuel or of another resource. -/
def Fault.OfRequest (f : Fault) : Prop := f ≠ .outOfFuel ∧ ∀ r, f ≠ .exhausted r

theorem Fault.ofRequest_of_canonical {env : Environment}
    (hf : env.workspace.canonical path = .error f) : f.OfRequest := by
  simp only [Workspace.canonical] at hf
  split at hf <;> cases hf
  exact ⟨by simp, by simp⟩

def Outcome {α : Type} (env : Environment) (step : SessionStep) (F : Fault → Prop) (s : Session) (Q : α → Session → Prop) :
    Except Fault α × Session → Prop
  | (.ok a, s') => Move env step true s s' ∧ Q a s'
  | (.error f, s') => Move env step false s s' ∧ F f

def Invariant (env : Environment) (I : Session → Prop) : Prop :=
  ∀ step s s', s.Idle → I s → Move env step true s s' → I s'

/-- Work of a step, and versions of it that end alike from some version on. -/
structure Settles {α : Type} (env : Environment) (step : SessionStep) (I : Session → Prop) (F : Fault → Prop) (s : Session)
    (x : Analysis α) (y : Nat → Analysis α) (Q : α → Session → Prop) : Prop where
  run : s.Idle → I s →
    (∃ N, ∀ n ≥ N, (y n).runOn env s = x.runOn env s) ∧ Outcome env step F s Q (x.runOn env s)

namespace Settles

variable {α : Type} {env : Environment} {x : Analysis α}

theorem pure (hq : Q a s) : Settles env step I F s (Pure.pure a) (fun _ => Pure.pure a) Q :=
  ⟨fun _ _ => ⟨⟨0, fun _ _ => rfl⟩, .refl s, hq⟩⟩

theorem mono (hx : Settles env step I F s x y Q) (hq : ∀ a s', Q a s' → S a s') : Settles env step I F s x y S := by
  refine ⟨fun hi hI => ?_⟩
  obtain ⟨hn, hout⟩ := hx.run hi hI
  refine ⟨hn, ?_⟩
  rcases hrun : x.runOn env s with ⟨f | a, s'⟩ <;> rw [hrun] at hout
  · exact hout
  · exact ⟨hout.1, hq a s' hout.2⟩

theorem bind (hI : Invariant env I) {g : Nat → α → Analysis β} (hx : Settles env step I F s x y Q)
    (hf : ∀ a s', Move env step true s s' → Q a s' → Settles env step I F s' (f a) (fun n => g n a) S) :
    Settles env step I F s (x >>= f) (fun n => y n >>= g n) S := by
  refine ⟨fun hi his => ?_⟩
  obtain ⟨⟨N, hN⟩, hout⟩ := hx.run hi his
  rw [runOn_bind]
  rcases hrun : x.runOn env s with ⟨e | a, s'⟩ <;> rw [hrun] at hout hN
  · refine ⟨⟨N, fun n hn => ?_⟩, hout⟩
    rw [runOn_bind, hN n hn]
  · obtain ⟨hm, hq⟩ := hout
    obtain ⟨⟨M, hM⟩, hout'⟩ := (hf a s' hm hq).run (hm.idle hi) (hI step s s' hi his hm)
    refine ⟨⟨max N M, fun n hn => ?_⟩, ?_⟩
    · rw [runOn_bind, hN n (Nat.le_trans (Nat.le_max_left ..) hn)]
      exact hM n (Nat.le_trans (Nat.le_max_right ..) hn)
    · dsimp only
      rcases hrun' : (f a).runOn env s' with ⟨e | b, s''⟩ <;> rw [hrun'] at hout'
      · exact ⟨hm.trans hout'.1, hout'.2⟩
      · exact ⟨hm.trans hout'.1, hout'.2⟩

theorem map (hI : Invariant env I) (hx : Settles env step I F s x y Q)
    (hf : ∀ a s', Q a s' → S (f a) s') : Settles env step I F s (f <$> x) (fun n => f <$> y n) S := by
  simp only [map_eq_pure_bind]
  exact hx.bind hI fun a s' _ hq => pure (hf a s' hq)

theorem discard (hI : Invariant env I) (hx : Settles env step I F s x y Q) :
    Settles env step I F s (discard x) (fun n => discard (y n)) fun _ _ => True := hx.map hI fun _ _ _ => trivial

theorem get_bind {g : Nat → Session → Analysis α} (hf : Settles env step I F s (f s) (fun n => g n s) Q) :
    Settles env step I F s (get >>= f) (fun n => get >>= g n) Q :=
  ⟨hf.run⟩

theorem read_bind {g : Nat → Environment → Analysis α} (hf : Settles env step I F s (f env) (fun n => g n env) Q) :
    Settles env step I F s (read >>= f) (fun n => read >>= g n) Q :=
  ⟨hf.run⟩

theorem change {Q : PUnit → Session → Prop} (hm : Move env step true s (g s)) (hq : Q ⟨⟩ (g s)) :
    Settles env step I F s (modify g) (fun _ => modify g) Q := ⟨fun _ _ => ⟨⟨0, fun _ _ => rfl⟩, hm, hq⟩⟩

theorem forM {xs : List β} {g : Nat → β → Analysis PUnit} (hI : Invariant env I)
    (hf : ∀ x ∈ xs, ∀ s', Settles env step I F s' (f x) (fun n => g n x) fun _ _ => True) :
    Settles env step I F s (xs.forM f) (fun n => xs.forM (g n)) fun _ _ => True := by
  induction xs generalizing s with
  | nil => exact pure trivial
  | cons x xs ih =>
    simp only [List.forM_eq_forM, List.forM_cons]
    exact (hf x (.head _) s).bind hI fun _ _ _ _ => ih fun y hy => hf y (.tail _ hy)

theorem still (hF : ∀ f, env.Causes f → F f)
    (hx : Agrees (.still env F) 0 (fun _ _ => False) s x x Q) : Settles env step I F s x (fun _ => x) Q := by
  refine ⟨fun hi _ => ⟨⟨0, fun _ _ => rfl⟩, ?_⟩⟩
  have hends := (hx.run hi.sound trivial).2
  rcases hrun : x.runOn env s with ⟨f | a, s'⟩ <;> rw [hrun] at hends
  · exact ⟨.run hends.1, hends.2.1.elim (hF f) id⟩
  · exact ⟨.run hends.1, hends.2⟩

end Settles

/-- Means that suffice: whatever an idle session holds, the evaluators that a step takes fit those of the versions
from some version on, and the sweeps that are needed are made. -/
structure Equips (env : Environment) (I : Session → Prop) (F : Fault → Prop) (m : Means) (m' : Nat → Means) : Prop where
  invariant : Invariant env I
  faults : ∀ f, env.Causes f → F f
  fits : ∀ (bound : Nat) (s : Session), s.Idle → I s →
    s.loading.cache.weight + env.workspace.top.weight ≤ bound →
    ∃ R : Regime env, R.ready 0 (fun _ _ => False) s ∧ (∀ f, R.Allows f → F f) ∧
      ∃ N, ∀ n ≥ N, Fits R (m.evaluator (fuelFor bound)) ((m' n).evaluator (fuelFor bound))
  sweeps : ∀ k, k ≤ m.sweeps k
  sweeps_of_le : ∀ k n, k ≤ n → k ≤ (m' n).sweeps k

end Concordance
