import Concordance.Proofs.Session.FixedPoint

/-!
# The stacks

Files are loaded and functions applied inside one another.
-/

namespace Concordance

open Syntax (Item)

namespace Session

/-- The same files are being loaded and the same functions applied, and paths are relative to the same directory. -/
def SameStacks (s s' : Session) : Prop :=
  s'.loading.stack = s.loading.stack ∧ s'.loading.directory = s.loading.directory ∧ s'.callStack = s.callStack

instance (s s' : Session) : Decidable (s.SameStacks s') := inferInstanceAs (Decidable (_ ∧ _))

/-- No file is being loaded twice and no function applied twice, and paths are relative to the directory of the
innermost file. -/
def Disciplined (s : Session) : Prop :=
  s.loading.stack.Nodup ∧ s.callStack.Nodup ∧ ∀ path ∈ s.loading.stack.head?, s.loading.directory = some (directoryOf path)

instance (s : Session) : Decidable s.Disciplined := inferInstanceAs (Decidable (_ ∧ _ ∧ ∀ _ ∈ _, _))

def Quiet (s : Session) : Prop := ∀ f, f ∉ s.callStack → (s.heap.function f).yields = none

variable {s s' : Session}

theorem Disciplined.of_same (hd : s.Disciplined) (same : s.SameStacks s') : s'.Disciplined := by
  obtain ⟨files, directory, calls⟩ := same
  unfold Disciplined
  rw [files, directory, calls]
  exact hd

theorem Disciplined.enterCall (hd : s.Disciplined) (outside : f ∉ s.callStack) :
    (s.enterCall f).Disciplined := ⟨hd.1, List.nodup_cons.2 ⟨outside, hd.2.1⟩, hd.2.2⟩

theorem Disciplined.enterFile (hd : s.Disciplined) (outside : path ∉ s.loading.stack) :
    (s.enterFile path).Disciplined := by
  refine ⟨List.nodup_cons.2 ⟨outside, hd.1⟩, hd.2.1, ?_⟩
  rintro _ ⟨⟩
  rfl

theorem Quiet.of_yields (hq : s.Quiet) (calls : s'.callStack = s.callStack)
    (yields : ∀ f, f ∉ s.callStack → (s'.heap.function f).yields = (s.heap.function f).yields) : s'.Quiet := by
  intro f hf
  rw [calls] at hf
  exact (yields f hf).trans (hq f hf)

theorem Quiet.of_modify (hq : s.Quiet) (f : FunctionId)
    (heap : s'.heap = { s.heap with functions := s.heap.functions.modify f.index change })
    (calls : s'.callStack = s.callStack) (same : ∀ g, (change g).yields = g.yields) : s'.Quiet := by
  refine hq.of_yields calls fun g _ => ?_
  rw [heap, Heap.function_modify]
  split
  · exact same _
  · rfl

theorem Quiet.of_evolves (hq : s.Quiet) (he : Heap.Evolves s.heap h) : (s.withHeap h).Quiet :=
  hq.of_yields rfl fun f _ => he.yields f

theorem Quiet.markCalled (hq : s.Quiet) (f : FunctionId) : (s.markCalled f).Quiet := hq.of_modify f rfl rfl fun _ => rfl

theorem Quiet.recordCall (hq : s.Quiet) (f : FunctionId) (key result : TypeId) : (s.recordCall f key result).Quiet :=
  hq.of_modify f rfl rfl fun _ => rfl

theorem yields_enterCall_of_ne (hne : g ≠ f) : ((s.enterCall f).heap.function g).yields = (s.heap.function g).yields :=
  congrArg Function.yields ((Heap.function_modify f g _).trans (if_neg fun h => hne h.1))

theorem Quiet.enterCall (hq : s.Quiet) (f : FunctionId) : (s.enterCall f).Quiet := by
  intro g hg
  obtain ⟨hne, hg⟩ := List.ne_and_not_mem_of_not_mem_cons hg
  exact (yields_enterCall_of_ne hne).trans (hq g hg)

theorem Quiet.leaveCall (hq : s.Quiet) (calls : s.callStack = f :: stack) (before : yields = none) : (s.leaveCall f stack yields).Quiet := by
  intro g hg
  have hfun : (s.leaveCall f stack yields).heap.function g =
      if g = f ∧ f.index < s.heap.functions.size then { s.heap.function g with yields } else s.heap.function g :=
    Heap.function_modify f g _
  rw [hfun]
  split
  · exact before
  · rename_i hother
    by_cases heq : g = f
    · -- There is no such function.
      have hlt : ¬ f.index < s.heap.functions.size := fun hlt => hother ⟨heq, hlt⟩
      rw [heq, Heap.function, Array.getD_eq_getD_getElem?, Array.getElem?_eq_none (Nat.le_of_not_lt hlt)]
      rfl
    · refine hq g ?_
      rw [calls]
      exact List.not_mem_cons_of_ne_of_not_mem heq hg

theorem Quiet.define (hq : s.Quiet) (yields : function.yields = none) : (s.define code function).Quiet := by
  intro g hg
  have hfun : (s.define code function).heap.function g =
      if g = ⟨s.heap.functions.size⟩ then function else s.heap.function g := Heap.function_push g function
  rw [hfun]
  split
  · exact yields
  · exact hq g hg

theorem Change.quiet (hc : Change env s s') (hq : s.Quiet) : s'.Quiet := by
  cases hc with
  | heap h hc => exact hq.of_evolves (.single hc)
  | yields f t _ applied =>
    refine hq.of_yields rfl fun g hg => ?_
    have hne : g ≠ f := fun heq => hg (heq ▸ applied)
    exact congrArg Function.yields ((Heap.function_modify f g _).trans (if_neg fun h => hne h.1))
  | _ => exact hq

end Session

section Runs

theorem Run.quiet (hr : Run env D b s s') (hq : s.Quiet) : s'.Quiet := by
  induction hr with
  | refl => exact hq
  | change hc => exact hc.quiet hq
  | trans _ _ ih ih' => exact ih' (ih hq)
  | stop _ ih | defineBroken _ _ _ _ ih => exact ih hq
  | define _ _ _ _ _ _ setup made ih => exact ((ih hq).of_evolves setup).define made.yields
  | defineClass _ _ _ _ _ _ setup _ _ ih => exact ih (hq.of_evolves setup)
  | mark f => exact hq.markCalled f
  | apply f _ key result _ _ outside setup body _ _ ih =>
    have hentered := (hq.markCalled f).of_evolves setup
    exact ((ih (hentered.enterCall f)).leaveCall body.callStack (hentered f outside)).recordCall f key result
  | applyBroken f _ _ _ outside setup body ih =>
    have hentered := (hq.markCalled f).of_evolves setup
    exact (ih (hentered.enterCall f)).leaveCall body.callStack (hentered f outside)
  | load _ _ _ _ _ _ _ _ ih ih' | loadBroken _ _ _ _ _ _ _ ih ih' => exact ih' (ih hq)
  | loadFailed _ _ _ _ ih => exact ih hq

theorem Move.quiet (hm : Move env step b s s') (hq : s.Quiet) : s'.Quiet := by
  induction hm with
  | run hr => exact hr.quiet hq
  | trans _ _ ih ih' => exact ih' (ih hq)
  | recover _ _ ih | within _ _ ih => exact ih hq
  | _ => exact hq

end Runs

theorem Session.ofLibrary_quiet {library : Table String ClassId × Heap} (hb : library.2.IsBare) :
    (Session.ofLibrary library).Quiet := fun f _ => hb.yields f

theorem Reachable.quiet (hs : Reachable s) : s.Quiet := by
  induction hs with
  | empty => exact Session.ofLibrary_quiet (bindLibrary_prepares.run initial_isBare).1
  | step hs env step ih =>
    obtain ⟨_, hm⟩ := hs.moves env step
    exact hm.quiet ih

section Guarding

variable (kept : Session → Session → Bool) (alarm : Fault)

/-- Does some work, but ends with a fault if the sessions before and after it do not pass a check, however it ends. -/
def Analysis.guarded {α : Type} (x : Analysis α) : Analysis α := do
  let before ← get
  let result ← tryCatch (Except.ok <$> x) fun fault => pure (.error fault)
  if kept before (← get) then MonadExcept.ofExcept result else throw alarm

theorem runOn_guarded {x : Analysis α}
    (hkept : kept s (x.runOn env s).2 = true) : (x.guarded kept alarm).runOn env s = x.runOn env s := by
  show (get >>= fun before => tryCatch (Except.ok <$> x) (fun fault => pure (.error fault)) >>= fun result =>
    get >>= fun after => if kept before after = true then MonadExcept.ofExcept result else throw alarm).runOn env s = _
  rw [runOn_get_bind, runOn_bind, runOn_tryCatch, map_eq_pure_bind, runOn_bind]
  rcases hrun : x.runOn env s with ⟨f | a, s'⟩ <;> rw [hrun] at hkept
  · show (if kept s s' = true then _ else _ : Analysis α).runOn env s' = _
    rw [if_pos hkept]
    rfl
  · show (if kept s s' = true then _ else _ : Analysis α).runOn env s' = _
    rw [if_pos hkept]
    rfl

/-- Does a task like `evaluate`, but checks the sessions before and after every task. -/
def evaluateGuarded : Nat → {α : Type} → Task α → Analysis α
  | 0, _, _ => throw .outOfFuel
  | fuel + 1, _, task => (perform ⟨fun t => evaluateGuarded fuel t⟩ task).guarded kept alarm

def Evaluator.guarded (fuel : Nat) : Evaluator := ⟨fun t => evaluateGuarded kept alarm fuel t⟩

theorem Fits.guarded {R : Regime env} (hfaults : ∀ f, R.faults f)
    (hready : ∀ {n m D s}, R.ready n D s → R.ready m D s)
    (hkept : ∀ {n D b s s'}, R.ready n D s → Run env D b s s' → kept s s' = true) (fuel : Nat) :
    Fits R (.withFuel fuel) (.guarded kept alarm fuel) := by
  refine .stepwise hfaults hready (fun _ => rfl) (fun fuel α task n D s _ _ hr heq hends => ?_) fuel
  refine runOn_guarded kept alarm ?_
  change kept s ((perform (.guarded kept alarm fuel) task).runOn env s).2 = true
  rw [← heq]
  rcases hrun : (perform (.withFuel fuel) task).runOn env s with ⟨f | a, s'⟩ <;> rw [hrun] at hends
  · exact hkept hr hends.1
  · exact hkept hr hends.1

end Guarding

end Concordance
