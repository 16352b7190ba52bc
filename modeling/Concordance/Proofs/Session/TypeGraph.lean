import Concordance.Proofs.Session.Vetting

/-!
# The type graph of a session

Whatever steps have been taken, and whenever a task is begun or ended in the course of a further one, the type graph is
in order.
-/

namespace Concordance

open Syntax (Item)

section Marker

def Heap.IsClean (h : Heap) (t : TypeId) : Prop := h.Has t ∧ ¬ h.Occurs .continues t

/-- The marker stays out of data: it occurs in nothing that is kept, and calls with arguments in which it does not
occur give no type in which it does. -/
structure Session.Unmarked (env : Environment) (s : Session) : Prop where
  heap : s.heap.Unmarked
  apply : ∀ (fuel : Nat) (f : FunctionId) (receiver : Option TypeId) (args : Option CallArgs),
    (∀ t ∈ receiver, s.heap.IsClean t) → (∀ a ∈ args, a.All s.heap.IsClean) → ∀ t s',
      (apply (.withFuel fuel) f receiver args).runOn env s = (.ok t, s') → ¬ s'.heap.Occurs .continues t
  construct : ∀ (fuel : Nat) (c : ClassId) (args : CallArgs), args.All s.heap.IsClean → ∀ t s',
    (construct (.withFuel fuel) c args).runOn env s = (.ok t, s') → ¬ s'.heap.Occurs .continues t

def Task.GivesUnmarked : {α : Type} → Task α → Except Fault α → Session → Prop
  | _, .expr .., .ok t, s => ¬ s.heap.Occurs .continues t
  | _, _, _, _ => True

def Verdict.unmarked (env : Environment) : Verdict := fun _ task s r s' =>
  s.Unmarked env ∧ s'.Unmarked env ∧ task.GivesUnmarked r s'

theorem Heap.IsSound.isValue_of_isClean {h : Heap} (hs : h.IsSound) (ht : h.IsClean t) : h.IsValue t :=
  hs.isValue_iff.2 ht

theorem Agrees.unmarked (hs : s.IsSound)
    (hx : Agrees (.free env) 0 (fun _ _ => False) s x x fun t s' => s'.heap.IsValue t)
    (hrun : x.runOn env s = (.ok t, s')) : ¬ s'.heap.Occurs .continues t := by
  obtain ⟨_, hends⟩ := hx.run hs trivial
  rw [hrun] at hends
  obtain ⟨hr, ht⟩ := hends
  exact ((hr.isSound hs).heap.isValue_iff.1 ht).2

theorem Session.IsSound.unmarked {s : Session} (hs : s.IsSound) (env : Environment) : s.Unmarked env where
  heap := hs.heap.unmarked
  apply fuel f receiver args hr ha _ _ hrun := by
    have hvalue := fun t => hs.heap.isValue_of_isClean (t := t)
    refine Agrees.unmarked hs (apply_agrees (.self env fuel) f ?_ ?_) hrun
    · exact fun t ht => hvalue t (hr t ht)
    · exact fun a hm => (ha a hm).mono hvalue
  construct fuel c args ha _ _ hrun := by
    have hvalue := fun t => hs.heap.isValue_of_isClean (t := t)
    exact Agrees.unmarked hs (construct_agrees (.self env fuel) c (ha.mono hvalue)) hrun

theorem Regime.free_upholds_unmarked (env : Environment) : (Regime.free env).Upholds (.unmarked env) where
  faults _ := trivial
  ready _ := trivial
  passes task _ D s hs _ r s' hends := by
    have hs' : s'.IsSound := by
      cases r with
      | error f => exact hends.1.isSound hs
      | ok a => exact hends.1.isSound hs
    refine ⟨hs.unmarked env, hs'.unmarked env, ?_⟩
    cases r with
    | error f => cases task <;> exact trivial
    | ok a =>
      cases task with
      | expr place e => exact (hs'.heap.isValue_iff.1 hends.2.1).2
      | _ => exact trivial

/-- The marker that control goes on never escapes into data. It does not occur, at any depth, in anything that a
reachable session keeps, nor in the result of a call; and during a further step it does so at no time, nor in the
type of an expression: vetting every task of the step makes no difference. -/
theorem marker_stays_out_of_data {s : Session} (hs : Reachable s) (env : Environment) :
    s.Unmarked env ∧ ∀ (step : SessionStep) (alarm : Fault),
      (step.runBy (.vetting (.unmarked env) alarm)).runOn env s = step.run.runOn env s := by
  refine ⟨hs.idle.sound.unmarked env, fun step alarm => ?_⟩
  exact runBy_vetting (Regime.free_upholds_unmarked env) (I := fun _ => True) (fun _ _ _ _ _ _ => trivial)
    (fun _ _ _ => trivial) hs.idle trivial step

/-- A function that gives something back in one branch and goes on in the other. -/
def halfReturning : Environment where
  workspace := .ofFiles [("m.py", ⟨.empty, .tree ⟨some ⟨0, 30⟩,
    [.functionDef (some ⟨0, 30⟩) 0 ⟨1, "f", some ⟨4, 5⟩⟩ ⟨[], [⟨⟨2, "p", some ⟨6, 7⟩⟩, none, none⟩], none, [], none⟩
      [.branch (.name ⟨3, "p", some ⟨13, 14⟩⟩)
        [.line [.giveBack (some (.list (some ⟨23, 26⟩) [⟨false, .name ⟨4, "p", some ⟨24, 25⟩⟩⟩]))]] none] []],
    by decide, by decide⟩⟩)] [] none
  settings := default

def Heap.hasMarkedUnion (h : Heap) : Bool :=
  (List.range h.types.size).any fun i => .continues ∈ (h.ty ⟨i⟩).fixedParts

theorem halfReturning_hasMarker : (Session.after [(halfReturning, .load "m.py"), (halfReturning, .finish)]).heap.hasMarkedUnion
    = true := by decide +kernel

theorem marker_stays_out_of_data_halfReturning : ∃ s, Reachable s ∧ s.Unmarked halfReturning ∧
    ∃ t, .continues ∈ (s.heap.ty t).fixedParts := by
  obtain ⟨s, hs, htest⟩ := Reachable.exists_of_test (fun s => s.heap.hasMarkedUnion) halfReturning_hasMarker
  obtain ⟨i, _, hi⟩ := List.any_eq_true.1 htest
  exact ⟨s, hs, (marker_stays_out_of_data hs halfReturning).1, ⟨i⟩, of_decide_eq_true hi⟩

end Marker

section Layers

variable {env : Environment} {s : Session}

theorem Session.Change.layered (hc : Session.Change env s s') (hl : s.heap.Layered) : s'.heap.Layered := by
  cases hc with
  | heap h hc => exact hc.layered hl
  | _ => exact hl.congr rfl

/-- Members and elements stay below: functions that are defined and applied, and files that are loaded, make new types
only by changes of the heap. -/
theorem Run.layered (hr : Run env D b s s') (hl : s.heap.Layered) : s'.heap.Layered := by
  induction hr with
  | refl => exact hl
  | change hc => exact hc.layered hl
  | trans _ _ ih ih' => exact ih' (ih hl)
  | stop _ ih | defineBroken _ _ _ _ ih => exact ih hl
  | define _ _ _ _ _ _ setup _ ih => exact (setup.layered (ih hl)).congr rfl
  | defineClass _ _ _ _ _ _ setup _ _ ih => exact ih ((setup.layered hl).congr rfl)
  | mark => exact hl.congr rfl
  | apply _ _ _ _ _ _ _ setup _ _ _ ih | applyBroken _ _ _ _ _ setup _ ih =>
    exact (ih ((setup.layered (hl.congr rfl)).congr rfl)).congr rfl
  | load _ _ _ _ _ _ _ _ ih ih' | loadBroken _ _ _ _ _ _ _ ih ih' => exact ih' (ih hl)
  | loadFailed _ _ _ _ ih => exact ih hl

theorem Move.layered (hm : Move env step b s s') (hl : s.heap.Layered) : s'.heap.Layered := by
  induction hm with
  | run hr => exact hr.layered hl
  | trans _ _ ih ih' => exact ih' (ih hl)
  | recover _ _ ih | within _ _ ih => exact ih hl
  | _ => exact hl.congr rfl

theorem Session.ofLibrary_layered {library : Table String ClassId × Heap} (hb : library.2.IsBare) :
    (Session.ofLibrary library).heap.Layered := hb.layered

theorem Reachable.layered (hs : Reachable s) : s.heap.Layered := by
  induction hs with
  | empty => exact Session.ofLibrary_layered (bindLibrary_prepares.run initial_isBare).1
  | step hs env step ih =>
    obtain ⟨_, hm⟩ := hs.moves env step
    exact hm.layered ih

/-- Evaluators may be asked while members and elements stand below. -/
def Regime.layered (env : Environment) : Regime env where
  ready _ _ s := s.heap.Layered
  faults _ := True
  faults_of_cause _ _ := trivial
  params hl _ := hl
  run hl hr := hr.layered hl
  addClass hl _ _ := hl
  enter hl _ _ _ _ setup := (setup.layered (hl.congr rfl)).congr rfl
  enterFile hl _ _ parsing _ := parsing.layered hl

end Layers

section Handlers

theorem Does.foldlM_congr {β : Type} {f g : α → β → HeapM α} {I : α → Heap → Prop} (xs : List β) {a : α}
    (hs : h.IsSound) (hf : ∀ x ∈ xs, ∀ acc h', Heap.Evolves h h' → I acc h' → Does h' (f acc x) I)
    (hfg : ∀ x ∈ xs, ∀ acc h', Heap.Evolves h h' → h'.IsSound → (f acc x).run h' = (g acc x).run h') (ha : I a h) :
    (xs.foldlM f a).run h = (xs.foldlM g a).run h := by
  induction xs generalizing a h with
  | nil => rfl
  | cons x xs ih =>
    have hx := hfg x (.head _) a h (.refl h) hs
    obtain ⟨he, hb⟩ := (hf x (.head _) a h (.refl h) ha).run hs
    rw [List.foldlM_cons, List.foldlM_cons, StateT.run_bind, StateT.run_bind, ← hx]
    exact ih (he.isSound hs) (fun y hy acc h' he' => hf y (.tail _ hy) acc h' (he.trans he'))
      (fun y hy acc h' he' => hfg y (.tail _ hy) acc h' (he.trans he')) hb

theorem caughtObjects_run_eq (n : Nat) : ∀ {k : Nat} {h : Heap} {t : TypeId}, h.IsSound → h.Layered → t.index < n →
    t.index < k → (caughtObjects n t).run h = (caughtObjects k t).run h := by
  induction n with
  | zero => exact fun _ _ hn => absurd hn (Nat.not_lt_zero _)
  | succ n ih =>
    rintro (_ | k) h t hs hl hn hk
    · exact absurd hk (Nat.not_lt_zero _)
    refine Does.foldlM_congr (I := fun u h => h.IsValue u) (h.members t) hs
      (fun m _ _ _ _ hacc => caughtMember_value m hacc (caughtObjects_value n)) (fun m hm acc h1 he1 hs1 => ?_)
      hs.isValue_unknown
    have hmt := hl.index_le hm
    rw [StateT.run_bind, StateT.run_bind, StateT.run_get, pure_bind, pure_bind]
    split
    · rename_i es hty
      -- The elements of a tuple stand below it, and it stands no higher than the type that it is an alternative of.
      have hes : h1.Fits (.tuple es) := hty ▸ hs1.types m
      have hbelow : ∀ e ∈ es, e.index < m.index := fun e he => he1.layered hl m e (by rwa [Heap.IsMember, hty])
      rw [StateT.run_bind, StateT.run_bind]
      refine congrArg (· >>= _) (Does.foldlM_congr (I := fun u h => h.IsValue u) es hs1 ?_ ?_ hs1.isValue_unknown)
      · intro e he acc h2 he2 hacc
        exact (caughtObjects_value n (he2.isValue (hes e he))).bind fun u h3 he3 hu => union_value (he3.isValue hacc) hu
      · intro e he acc h2 he2 hs2
        have hlt := hbelow e he
        rw [StateT.run_bind, StateT.run_bind,
          ih hs2 (he2.layered (he1.layered hl)) (show e.index < n by omega) (show e.index < k by omega)]
    · rfl
    · rfl

/-- The recursion through the members and elements of what a handler names ends by itself. -/
def Heap.CatchesAll (h : Heap) : Prop :=
  ∀ t n, t.index < n → (caughtObjects n t).run h = (caughtObjects (t.index + 1) t).run h

theorem Heap.Layered.catchesAll {h : Heap} (hl : h.Layered) (hs : h.IsSound) : h.CatchesAll :=
  fun t n hn => caughtObjects_run_eq n hs hl hn (Nat.lt_succ_self t.index)

end Handlers

section Shape

def Verdict.shaped : Verdict := fun _ _ s _ s' =>
  (s.heap.WellShaped ∧ s.heap.CatchesAll) ∧ s'.heap.WellShaped ∧ s'.heap.CatchesAll

theorem Regime.layered_upholds_shaped (env : Environment) : (Regime.layered env).Upholds .shaped where
  faults _ := trivial
  ready hl := hl
  passes _ _ _ s hs hl r s' hends := by
    obtain ⟨b, hr⟩ : ∃ b, Run env _ b s s' := by
      cases r with
      | error f => exact ⟨_, hends.1⟩
      | ok a => exact ⟨_, hends.1⟩
    have hs' := hr.isSound hs
    have hl' := hr.layered hl
    exact ⟨⟨Heap.Layered.wellShaped hl hs.heap, Heap.Layered.catchesAll hl hs.heap⟩, hl'.wellShaped hs'.heap,
      hl'.catchesAll hs'.heap⟩

/-- The shape of the type graph. In a reachable session unions have at least two members, which are known and are no
unions; there is no endless descent through members and elements, and every cycle passes through a list, a dictionary
or a function. So what a handler catches is found without a bound. It stays like that all through a further step:
vetting every task of the step makes no difference. -/
theorem typeGraph_wellShaped {s : Session} (hs : Reachable s) :
    s.heap.WellShaped ∧ s.heap.CatchesAll ∧ ∀ (env : Environment) (step : SessionStep) (alarm : Fault),
      (step.runBy (.vetting .shaped alarm)).runOn env s = step.run.runOn env s := by
  have hsound := hs.idle.sound.heap
  refine ⟨hs.layered.wellShaped hsound, hs.layered.catchesAll hsound, fun env step alarm => ?_⟩
  exact runBy_vetting (Regime.layered_upholds_shaped env) (I := fun s => s.heap.Layered)
    (fun _ _ _ _ hl hm => hm.layered hl) (fun _ _ hl => hl) hs.idle hs.layered step

def selfContaining : Environment where
  workspace := .ofFiles [("m.py", ⟨.empty, .tree ⟨some ⟨0, 15⟩,
    [.line [.assign [.name ⟨0, "x", some ⟨0, 1⟩⟩] (.list (some ⟨4, 6⟩) [])],
      .line [.assign [.subscript (some ⟨7, 11⟩) (.name ⟨1, "x", some ⟨7, 8⟩⟩) [.single (.integer (some ⟨9, 10⟩) "0")]]
        (.name ⟨2, "x", some ⟨14, 15⟩⟩)]],
    by decide, by decide⟩⟩)] [] none
  settings := default

def Heap.hasSelfList (h : Heap) : Bool := (List.range h.types.size).any fun i => h.ty ⟨i⟩ = .list ⟨i⟩ none

theorem selfContaining_isCyclic : (Session.after [(selfContaining, .load "m.py")]).heap.hasSelfList = true := by
  decide +kernel

theorem typeGraph_wellShaped_selfContaining : ∃ (s : Session) (c : Cycle TypeId), Reachable s ∧ c ≠ Cycle.nil ∧
    (c.Chain fun a b => b ∈ s.heap.parts a) ∧ ∃ t ∈ c, (s.heap.ty t).isMutable = true := by
  obtain ⟨s, hs, htest⟩ := Reachable.exists_of_test (fun s => s.heap.hasSelfList) selfContaining_isCyclic
  obtain ⟨i, _, hi⟩ := List.any_eq_true.1 htest
  have hne : Cycle.ofList [(⟨i⟩ : TypeId)] ≠ Cycle.nil := by simp
  have hchain : Cycle.Chain (fun a b => b ∈ s.heap.parts a) (Cycle.ofList [(⟨i⟩ : TypeId)]) := by
    rw [Cycle.chain_singleton, Heap.parts, of_decide_eq_true hi]
    exact List.mem_cons_self ..
  exact ⟨s, _, hs, hne, hchain, (typeGraph_wellShaped hs).1.cycles _ hne hchain⟩

end Shape

end Concordance
