import Concordance.Proofs.Session.Cause
import Concordance.Proofs.Session.Later

/-!
# Evaluations that agree

The rules of inference leave the tasks inside a task to an evaluator. `Agrees R n D s x y Q` compares two pieces of work
that follow the same rule with two evaluators: done on the session `s` they end in the same way, what they do is a run
that makes only the definitions in `D`, and `Q` holds if they end well. With one evaluator on both sides this says what
a rule does; with evaluators of different fuel it says that the fuel suffices. A regime says when the evaluators may be
asked: `ready n D s` allows tasks on code of a size below `n` that make definitions in `D`. Readiness is kept by runs
and passed on into the bodies of functions and files.
-/

namespace Concordance

open Syntax (Item)

section RunOn

theorem runOn_bind (x : Analysis α) (f : α → Analysis β) : (x >>= f).runOn env s =
    match x.runOn env s with
    | (.ok a, s') => (f a).runOn env s'
    | (.error e, s') => (.error e, s') := by
  show ((x env).run >>= ExceptT.bindCont fun a => f a env).run s = _
  rw [StateT.run_bind]
  rcases hx : (x env).run.run s with ⟨_ | a, s'⟩ <;> (rw [Analysis.runOn, hx]; rfl)

theorem exists_of_runOn_bind {s' : Session} {x : Analysis α} {f : α → Analysis β} {b : β}
    (hrun : (x >>= f).runOn env s = (.ok b, s')) :
    ∃ a s1, x.runOn env s = (.ok a, s1) ∧ (f a).runOn env s1 = (.ok b, s') := by
  rw [runOn_bind] at hrun
  rcases hfirst : x.runOn env s with ⟨e | a, s1⟩ <;> rw [hfirst] at hrun
  · cases hrun
  · exact ⟨a, s1, rfl, hrun⟩

theorem runOn_tryCatch (x : Analysis α) (handle : Fault → Analysis α) : (tryCatch x handle).runOn env s =
    match x.runOn env s with
    | (.ok a, s') => (.ok a, s')
    | (.error e, s') => (handle e).runOn env s' := by
  show (ExceptT.run (ExceptT.tryCatch (x env) fun e => handle e env)).run s = _
  unfold ExceptT.tryCatch
  show StateT.run (_ >>= _) s = _
  rw [StateT.run_bind]
  change (Pure.pure (x.runOn env s) >>= _ : Id _) = _
  rcases x.runOn env s with ⟨_ | a, s'⟩ <;> rfl

theorem runOn_discard (x : Analysis α) :
    (discard x).runOn env s = ((x.runOn env s).1.map fun _ => PUnit.unit, (x.runOn env s).2) := by
  show ((fun _ => PUnit.unit) <$> x).runOn env s = _
  rw [map_eq_pure_bind, runOn_bind]
  rcases x.runOn env s with ⟨_ | a, s'⟩ <;> rfl

theorem runOn_read_bind (f : Environment → Analysis β) : (read >>= f).runOn env s = (f env).runOn env s := rfl

theorem runOn_get_bind (f : Session → Analysis β) : (get >>= f).runOn env s = (f s).runOn env s := rfl

theorem runOn_theHeap_bind (f : Heap → Analysis β) : (theHeap >>= f).runOn env s = (f s.heap).runOn env s := rfl

theorem runOn_onHeap_bind (x : HeapM α) (f : α → Analysis β) : (onHeap x >>= f).runOn env s =
    (f (x.run s.heap).1).runOn env (s.withHeap (x.run s.heap).2) := rfl

end RunOn

def Within (D : UnitRef → Item → Prop) (u : UnitRef) (items : List Item) : Prop := ∀ x ∈ items, D u x

def Session.Did (s : Session) (u : UnitRef) (items : List Item) : Prop := ∀ x ∈ items, s.Happened u x

section Rows

variable {s : Session}

@[simp] theorem Within.append : Within D u (a ++ b) ↔ Within D u a ∧ Within D u b := List.forall_mem_append

@[simp] theorem Session.Did.nil : s.Did u [] := fun _ hx => nomatch hx

@[simp] theorem Session.Did.append : s.Did u (a ++ b) ↔ s.Did u a ∧ s.Did u b := List.forall_mem_append

theorem Within.flatMap {xs : List α} :
    Within D u (xs.flatMap f) ↔ ∀ x ∈ xs, Within D u (f x) := List.forall_mem_flatMap

theorem Session.Did.flatMap {xs : List α} : s.Did u (xs.flatMap f) ↔ ∀ x ∈ xs, s.Did u (f x) := List.forall_mem_flatMap

theorem Session.Later.did (hl : s.Later s') (hd : s.Did u a) : s'.Did u a := fun x hx => hl.happened (hd x hx)

end Rows

/-- When evaluators may be asked, and which faults they may end with. -/
structure Regime (env : Environment) where
  /-- Tasks on code of a size below the bound, making the given definitions, may be asked for. -/
  ready : Nat → (UnitRef → Item → Prop) → Session → Prop
  /-- A fault that an evaluation may end with. -/
  faults : Fault → Prop
  /-- What the environment causes cannot be ruled out. -/
  faults_of_cause : ∀ f, env.Causes f → faults f
  /-- The parameters of a definition may be evaluated where the definition may be. -/
  params : ∀ {n D s} {code : Code}, ready n D s → D code.unit code.item → ready n code.OwnsInParams s
  run : ∀ {n D s s'}, ready n D s → Run env D true s s' → ready n D s'
  addClass : ∀ {n D s}, ready n D s → ∀ r c, ready n D (s.addClass r c)
  /-- The body of a function that is not being applied may be evaluated. -/
  enter : ∀ {n D s h f code}, ready n D s → s.IsSound → (s.heap.function f).code = some code →
    (s.heap.function f).native = none → f ∉ s.callStack → Heap.Evolves (s.markCalled f).heap h →
    ready (code.body.size + 1) code.Owns (((s.markCalled f).withHeap h).enterCall f)
  /-- The statements of a file that is not being loaded may be evaluated, once a module is made from its unit. -/
  enterFile : ∀ {n D s s' m unit}, ready n D s → env.IsCanonical unit.path → unit.path ∉ s.loading.stack →
    Run env (fun _ _ => False) true (s.enterFile unit.path) s' → s'.Opens m unit →
    ready unit.tree.size unit.Owns (s'.addUnit m unit)

namespace Regime

variable {env : Environment} (R : Regime env)

/-- A fault that work may end with: memory and nesting run out only where they are made to. -/
def Allows (f : Fault) : Prop := R.faults f ∧ ∀ r, f = .exhausted r → env.injection = some ⟨.resolving, r⟩

def free (env : Environment) : Regime env where
  ready _ _ _ := True
  faults _ := True
  faults_of_cause _ _ := trivial
  params _ _ := trivial
  run _ _ := trivial
  addClass _ _ _ := trivial
  enter _ _ _ _ _ _ := trivial
  enterFile _ _ _ _ _ := trivial

end Regime

def Ends {α : Type} {env : Environment} (R : Regime env) (D : UnitRef → Item → Prop) (s : Session)
    (Q : α → Session → Prop) : Except Fault α × Session → Prop
  | (.ok a, s') => Run env D true s s' ∧ Q a s'
  | (.error f, s') => Run env D false s s' ∧ R.Allows f

theorem Ends.after {R : Regime env}
    {Q : α → Session → Prop} {r : Except Fault α × Session} (hr : Run env D true s s') (he : Ends R D s' Q r) :
    Ends R D s Q r := by
  obtain ⟨f | a, s''⟩ := r
  · exact ⟨hr.trans he.1, he.2⟩
  · exact ⟨hr.trans he.1, he.2⟩

/-- Two pieces of work end alike, as a run that makes only the definitions in `D`, and well with `Q`. -/
structure Agrees {α : Type} {env : Environment} (R : Regime env) (n : Nat) (D : UnitRef → Item → Prop)
    (s : Session) (x y : Analysis α) (Q : α → Session → Prop) : Prop where
  run : s.IsSound → R.ready n D s → x.runOn env s = y.runOn env s ∧ Ends R D s Q (x.runOn env s)

namespace Agrees

variable {α : Type} {env : Environment} {R : Regime env} {s : Session}

theorem transfer {R' : Regime env} (hx : Agrees R n D s x y Q) (hready : R'.ready m D s → R.ready n D s)
    (hfaults : ∀ f, R.faults f → R'.faults f) : Agrees R' m D s x y Q := by
  refine ⟨fun hs hm => ?_⟩
  obtain ⟨heq, hends⟩ := hx.run hs (hready hm)
  refine ⟨heq, ?_⟩
  rcases hrun : x.runOn env s with ⟨f | a, s'⟩ <;> rw [hrun] at hends
  · exact ⟨hends.1, hfaults f hends.2.1, hends.2.2⟩
  · exact hends

theorem of_sound (hx : s.IsSound → Agrees R n D s x y Q) : Agrees R n D s x y Q := ⟨fun hs => (hx hs).run hs⟩

theorem of_ready (hx : R.ready n D s → Agrees R n D s x y Q) : Agrees R n D s x y Q :=
  ⟨fun hs hready => (hx hready).run hs hready⟩

theorem pure (hq : Q a s) : Agrees R n D s (Pure.pure a) (Pure.pure a) Q := ⟨fun _ _ => ⟨rfl, .refl, hq⟩⟩

theorem throw (hf : R.Allows f) : Agrees R n D s (MonadExcept.throw f) (MonadExcept.throw f) Q :=
  ⟨fun _ _ => ⟨rfl, .stop .refl, hf⟩⟩

theorem mono (hx : Agrees R n D s x y Q) (hq : ∀ a s', s.Later s' → Q a s' → S a s') : Agrees R n D s x y S := by
  refine ⟨fun hs hready => ?_⟩
  obtain ⟨heq, hends⟩ := hx.run hs hready
  refine ⟨heq, ?_⟩
  rcases hrun : x.runOn env s with ⟨f | a, s'⟩ <;> rw [hrun] at hends
  · exact hends
  · exact ⟨hends.1, hq a s' hends.1.later hends.2⟩

theorem bind_run (hx : Agrees R n D s x y Q)
    (hf : ∀ a s', Run env D true s s' → Q a s' → Agrees R n D s' (f a) (g a) S) :
    Agrees R n D s (x >>= f) (y >>= g) S := by
  refine ⟨fun hs hready => ?_⟩
  obtain ⟨heq, hends⟩ := hx.run hs hready
  rw [runOn_bind, runOn_bind, ← heq]
  rcases hrun : x.runOn env s with ⟨e | a, s'⟩ <;> rw [hrun] at hends
  · exact ⟨rfl, hends⟩
  · obtain ⟨hr, hq⟩ := hends
    obtain ⟨heq', hends'⟩ := (hf a s' hr hq).run (hr.isSound hs) (R.run hready hr)
    exact ⟨heq', hends'.after hr⟩

theorem bind (hx : Agrees R n D s x y Q) (hf : ∀ a s', s.Later s' → Q a s' → Agrees R n D s' (f a) (g a) S) :
    Agrees R n D s (x >>= f) (y >>= g) S := hx.bind_run fun a s' hr => hf a s' hr.later

theorem map (hx : Agrees R n D s x y Q)
    (hf : ∀ a s', s.Later s' → Q a s' → S (f a) s') : Agrees R n D s (f <$> x) (f <$> y) S := by
  rw [map_eq_pure_bind, map_eq_pure_bind]
  exact hx.bind fun a s' hl hq => pure (hf a s' hl hq)

theorem discard (hx : Agrees R n D s x y Q)
    (hf : ∀ a s', s.Later s' → Q a s' → S ⟨⟩ s') : Agrees R n D s (discard x) (discard y) S := hx.map hf

theorem get_bind (hf : Agrees R n D s (f s) (g s) Q) : Agrees R n D s (get >>= f) (get >>= g) Q := ⟨hf.run⟩

theorem theHeap_bind (hf : Agrees R n D s (f s.heap) (g s.heap) Q) :
    Agrees R n D s (theHeap >>= f) (theHeap >>= g) Q := ⟨hf.run⟩

theorem liftGet_bind (hf : Agrees R n D s (f s.heap) (g s.heap) Q) :
    Agrees R n D s (onHeap get >>= f) (onHeap get >>= g) Q := ⟨hf.run⟩

theorem read_bind (hf : Agrees R n D s (f env) (g env) Q) : Agrees R n D s (read >>= f) (read >>= g) Q := ⟨hf.run⟩

theorem change {Q : PUnit → Session → Prop} (hc : Session.Change env s (g s))
    (hq : Q ⟨⟩ (g s)) : Agrees R n D s (modify g) (modify g) Q := ⟨fun _ _ => ⟨rfl, .change hc, hq⟩⟩

end Agrees

theorem Run.of_evolves (he : Heap.Evolves s.heap h) : Run env D true s (s.withHeap h) := by
  induction he with
  | refl => exact .refl
  | tail _ hc ih => exact ih.trans (.change (.heap _ hc))

namespace Agrees

variable {env : Environment} {s : Session}

theorem lift (hx : Does s.heap x Q) : Agrees R n D s (onHeap x) (onHeap x) fun a s' => Q a s'.heap := by
  refine ⟨fun hs _ => ⟨rfl, ?_⟩⟩
  obtain ⟨he, hq⟩ := hx.run hs.heap
  exact ⟨.of_evolves he, hq⟩

theorem lift_frame (hx : Does s.heap x Q) :
    Agrees R n D s (onHeap x) (onHeap x) fun a s' => Q a s'.heap ∧ s' = s.withHeap s'.heap := by
  refine ⟨fun hs _ => ⟨rfl, ?_⟩⟩
  obtain ⟨he, hq⟩ := hx.run hs.heap
  exact ⟨.of_evolves he, hq, rfl⟩

theorem foldlM_along {γ : Type} {N : γ → β → γ} {I : γ → α → Session → Prop}
    {P : β → Session → Prop} (xs : List β) {c : γ} (hP : ∀ x s s', s.Later s' → P x s → P x s')
    (hf : ∀ x ∈ xs, ∀ c acc s', s.Later s' → I c acc s' →
      Agrees R n D s' (f acc x) (g acc x) fun b s'' => I (N c x) b s'' ∧ P x s'') (ha : I c a s) :
    Agrees R n D s (xs.foldlM f a) (xs.foldlM g a) fun b s' => I (xs.foldl N c) b s' ∧ ∀ x ∈ xs, P x s' := by
  induction xs generalizing a c s with
  | nil => exact pure ⟨ha, by simp⟩
  | cons x xs ih =>
    rw [List.foldlM_cons, List.foldlM_cons]
    refine bind (hf x (.head _) c a s (.refl s) ha) fun b s' hl ⟨hb, hx⟩ => ?_
    refine (ih (fun y hy c acc s'' hl' => hf y (.tail _ hy) c acc s'' (hl.trans hl')) hb).mono ?_
    intro d s'' hl' ⟨hd, hxs⟩
    exact ⟨hd, List.forall_mem_cons.2 ⟨hP x s' s'' hl' hx, hxs⟩⟩

theorem foldlM_did {I : α → Session → Prop} {P : β → Session → Prop} (xs : List β) (hP : ∀ x s s', s.Later s' → P x s → P x s')
    (hf : ∀ x ∈ xs, ∀ acc s', s.Later s' → I acc s' →
      Agrees R n D s' (f acc x) (g acc x) fun b s'' => I b s'' ∧ P x s'') (ha : I a s) :
    Agrees R n D s (xs.foldlM f a) (xs.foldlM g a) fun b s' => I b s' ∧ ∀ x ∈ xs, P x s' :=
  foldlM_along (N := fun (_ : Unit) _ => ()) (I := fun _ => I) (c := ()) xs hP (fun x hx _ => hf x hx) ha

theorem foldlM (xs : List β)
    (hf : ∀ x ∈ xs, ∀ acc s', s.Later s' → I acc s' → Agrees R n D s' (f acc x) (g acc x) I) (ha : I a s) :
    Agrees R n D s (xs.foldlM f a) (xs.foldlM g a) I :=
  (foldlM_did (P := fun _ _ => True) xs (fun _ _ _ _ hP => hP) (fun x hx acc s' hl ha =>
    (hf x hx acc s' hl ha).mono fun _ _ _ hb => ⟨hb, trivial⟩) ha).mono fun _ _ _ hb => hb.1

theorem forM_did {P : β → Session → Prop} (xs : List β) (hP : ∀ x s s', s.Later s' → P x s → P x s')
    (hf : ∀ x ∈ xs, ∀ s', s.Later s' → Agrees R n D s' (f x) (g x) fun _ s'' => P x s'') :
    Agrees R n D s (xs.forM f) (xs.forM g) fun _ s' => ∀ x ∈ xs, P x s' := by
  induction xs generalizing s with
  | nil => exact pure (by simp)
  | cons x xs ih =>
    rw [List.forM_eq_forM, List.forM_cons, List.forM_cons]
    refine bind (hf x (.head _) s (.refl s)) fun _ s' hl hx => ?_
    refine (ih fun y hy s'' hl' => hf y (.tail _ hy) s'' (hl.trans hl')).mono ?_
    intro _ s'' hl' hxs
    exact List.forall_mem_cons.2 ⟨hP x s' s'' hl' hx, hxs⟩

theorem forM_keeps {I : Session → Prop} (xs : List β)
    (hf : ∀ x ∈ xs, ∀ s', s.Later s' → I s' → Agrees R n D s' (f x) (g x) fun _ s'' => I s'') (hs : I s) :
    Agrees R n D s (xs.forM f) (xs.forM g) fun _ s' => I s' := by
  induction xs generalizing s with
  | nil => exact pure hs
  | cons x xs ih =>
    rw [List.forM_eq_forM, List.forM_cons, List.forM_cons]
    refine bind (hf x (.head _) s (.refl s) hs) fun _ s' hl hs' => ?_
    exact ih (fun y hy s'' hl' => hf y (.tail _ hy) s'' (hl.trans hl')) hs'

theorem forM (xs : List β) (hf : ∀ x ∈ xs, ∀ s', s.Later s' → Agrees R n D s' (f x) (g x) fun _ _ => True) :
    Agrees R n D s (xs.forM f) (xs.forM g) fun _ _ => True :=
  (forM_did xs (P := fun _ _ => True) (fun _ _ _ _ h => h) hf).mono fun _ _ _ _ => trivial

end Agrees

end Concordance
