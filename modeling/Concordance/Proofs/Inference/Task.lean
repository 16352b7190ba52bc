import Concordance.Proofs.Inference.Flow
import Concordance.Proofs.Session.Work

/-!
# Tasks and what they leave

What a task needs and what it leaves when it ends well: the result of an expression is the type of a value, that of a
statement says how control may leave it, and everything that the code comes upon has been dealt with.
-/

namespace Concordance

open Syntax (Expr Stmt Pattern Item Flow ownItems frameItems Collector)

namespace Task

variable {α : Type}

def size : Task α → Nat
  | .expr _ e => e.size
  | .stmt _ s => s.size
  | .bind _ target .. => target.size
  | .pattern _ p _ => p.size

def unit : Task α → UnitRef
  | .expr place _ | .stmt place _ | .bind place .. | .pattern place .. => place.unit

def collect {β : Type} (c : Collector β) : Task α → List β
  | .expr _ e => c.expr e
  | .stmt _ s => c.stmt s
  | .bind _ target .. => c.target target
  | .pattern _ p _ => c.pattern p

/-- What has to hold before a task: only values are bound, and statements are evaluated only where the resources
for them are there. -/
def Pre (env : Environment) (s : Session) : Task α → Prop
  | .expr .. => True
  | .stmt .. => ¬ env.IsStarved
  | .bind _ _ value _ _ => s.heap.IsValue value
  | .pattern _ _ subject => s.heap.IsValue subject

def Result (s : Session) : Task α → α → Prop
  | .expr .., t => s.heap.IsValue t
  | .stmt _ st, t => s.heap.Leaves t st.flow
  | .bind .., _ | .pattern .., _ => True

def Post (task : Task α) (a : α) (s : Session) : Prop := task.Result s a ∧ s.Did task.unit (task.collect ownItems)

end Task

/-- Two evaluators agree on the tasks that a regime allows. The first of them is a plain one. -/
structure Fits {env : Environment} (R : Regime env) (ev ev' : Evaluator) : Prop where
  plain : ∃ fuel, ev = .withFuel fuel
  located : ∀ {n : Nat} {D : UnitRef → Item → Prop} {s : Session} {d : String}, R.ready n D s →
    s.loading.directory = some d → R.faults .nullCharacter ∨ Text.NullFree d
  run : ∀ {α : Type} (task : Task α) {n : Nat} {D : UnitRef → Item → Prop} {s : Session}, task.size < n →
    Within D task.unit (task.collect frameItems) → task.Pre env s →
    Agrees R n D s (ev.run task) (ev'.run task) task.Post

variable {env : Environment} {R : Regime env} {s : Session} {ev ev' : Evaluator} {place : Place}

namespace Fits

variable (fits : Fits R ev ev')
include fits

theorem expr (e : Expr) (hn : e.size < n) (hd : Within D place.unit (frameItems.expr e)) :
    Agrees R n D s (ev.expr place e) (ev'.expr place e) fun t s' =>
      s'.heap.IsValue t ∧ s'.Did place.unit (ownItems.expr e) :=
  fits.run (.expr place e) hn hd trivial

theorem stmt (st : Stmt) (hn : st.size < n) (hd : Within D place.unit (frameItems.stmt st))
    (fed : ¬ env.IsStarved) :
    Agrees R n D s (ev.stmt place st) (ev'.stmt place st) fun t s' =>
      s'.heap.Leaves t st.flow ∧ s'.Did place.unit (ownItems.stmt st) :=
  fits.run (.stmt place st) hn hd fed

theorem bind (target : Expr)
    (hv : s.heap.IsValue value) (hn : target.size < n) (hd : Within D place.unit (frameItems.target target)) :
    Agrees R n D s (ev.bind place target value kind source) (ev'.bind place target value kind source)
      fun _ s' => s'.Did place.unit (ownItems.target target) :=
  (fits.run (.bind place target value kind source) hn hd hv).mono fun _ _ _ h => h.2

theorem pattern (p : Pattern) (hv : s.heap.IsValue subject) (hn : p.size < n)
    (hd : Within D place.unit (frameItems.pattern p)) :
    Agrees R n D s (ev.pattern place p subject) (ev'.pattern place p subject)
      fun _ s' => s'.Did place.unit (ownItems.pattern p) :=
  (fits.run (.pattern place p subject) hn hd hv).mono fun _ _ _ h => h.2

theorem discardExpr (e : Expr) (hn : e.size < n) (hd : Within D place.unit (frameItems.expr e)) :
    Agrees R n D s (discard (ev.expr place e)) (discard (ev'.expr place e))
      fun _ s' => s'.Did place.unit (ownItems.expr e) :=
  (fits.expr e hn hd).discard fun _ _ _ h => h.2

theorem operands (left right : Expr) {combine combine' : TypeId → TypeId → Analysis TypeId}
    (hn : left.size + right.size < n) (hleft : Within D place.unit (frameItems.expr left))
    (hright : Within D place.unit (frameItems.expr right))
    (hcombine : ∀ l r s', s'.heap.IsValue l → s'.heap.IsValue r →
      Agrees R n D s' (combine l r) (combine' l r) fun t s'' => s''.heap.IsValue t) :
    Agrees R n D s (do let l ← ev.expr place left; combine l (← ev.expr place right))
      (do let l ← ev'.expr place left; combine' l (← ev'.expr place right)) fun t s' =>
        s'.heap.IsValue t ∧ s'.Did place.unit (ownItems.expr left) ∧ s'.Did place.unit (ownItems.expr right) := by
  refine .bind (fits.expr left (by omega) hleft) ?_
  rintro l s1 _ ⟨hl, hdid⟩
  refine .bind (fits.expr right (by omega) hright) ?_
  rintro r s2 hl2 ⟨hr, hdid'⟩
  refine (hcombine l r s2 (hl2.isValue hl) hr).mono fun t s3 hl3 ht => ⟨ht, ?_, hl3.did hdid'⟩
  exact (hl2.trans hl3).did hdid

theorem exprOption (e : Option Expr) (hn : Expr.sizeOfOption e < n)
    (hd : Within D place.unit (frameItems.exprOption e)) :
    Agrees R n D s (ev.exprOption place e) (ev'.exprOption place e)
      fun _ s' => s'.Did place.unit (ownItems.exprOption e) := by
  cases e with
  | none => exact .pure .nil
  | some e => exact fits.discardExpr e hn hd

theorem exprs (es : List Expr) (hn : Expr.sizeOfList es < n) (hd : Within D place.unit (frameItems.exprs es)) :
    Agrees R n D s (ev.exprs place es) (ev'.exprs place es)
      fun _ s' => s'.Did place.unit (ownItems.exprs es) := by
  rw [Collector.exprs_eq] at hd ⊢
  simp only [Session.Did.flatMap]
  refine .forM_did es (fun _ _ _ hl => hl.did) fun e he s' _ => ?_
  refine fits.discardExpr e (Nat.lt_of_le_of_lt ?_ hn) (Within.flatMap.1 hd e he)
  exact Expr.sizeOfList_eq es ▸ Syntax.le_sum_of_mem he

end Fits

section Blocks

theorem leaveBlock_agrees (hu : s.heap.Leaves u g) (hends : f.falls = false ∨ f.clear = false)
    (hgives : f.gives = false → g.gives = false) :
    Agrees R n D s (do return (← onHeap (stripContinues u .unknown), true))
      (do return (← onHeap (stripContinues u .unknown), true)) fun p s' => s'.heap.Carries p f := by
  refine .bind (.lift (stripContinues_leaves hu hends hgives)) ?_
  rintro w s1 _ ⟨hw, hc⟩
  exact .pure ⟨hw, by simp [hc]⟩

theorem blockStep_agrees (fits : Fits R ev ev') (fed : ¬ env.IsStarved)
    (hs : s.heap.Carries soFar f ∨ soFar = (.unknown, false) ∧ f = .onward) (hn : st.size < n)
    (hd : Within D place.unit (frameItems.stmt st)) :
    Agrees R n D s (blockStep ev place soFar st) (blockStep ev' place soFar st) fun p s' =>
      s'.heap.Carries p (f.andThen st.flow) ∧ s'.Did place.unit (ownItems.stmt st) := by
  refine .bind (fits.stmt st hn hd fed) ?_
  rintro t s1 hl1 ⟨ht, hdid⟩
  refine .of_sound fun hs1 => ?_
  obtain ⟨r, left⟩ := soFar
  cases left with
  | true =>
    obtain ⟨hleaves, hmarked⟩ := hs.resolve_right (by simp)
    have hc : .continues ∉ s1.heap.members r := by
      rw [hl1.types.members hleaves.has]
      exact fun hc => nomatch hmarked.1 hc
    exact .pure ⟨⟨(hl1.types.leaves hleaves).andThen hc _, by simp [hc]⟩, hdid⟩
  | false =>
    -- Before the first statement there is no marker yet, but nothing either that could hide one.
    obtain ⟨g, hr, hgives, hfalls, hmarked⟩ : ∃ g, s1.heap.Leaves r g ∧ (f.gives = false → g.gives = false) ∧
        f.falls = true ∧ (.continues ∈ s1.heap.members r ∨ g.gives = false) := by
      rcases hs with ⟨hleaves, hmarked⟩ | ⟨hstart, rfl⟩
      · have hc : .continues ∈ s.heap.members r := hmarked.2 rfl
        exact ⟨f, hl1.types.leaves hleaves, id, hleaves.falls hc, .inl (hl1.types.members hleaves.has ▸ hc)⟩
      · cases hstart
        exact ⟨.away, hs1.heap.leaves_unknown, fun _ => rfl, rfl, .inr rfl⟩
    -- If the statement has no marker, control does not go on, or the branches are not clear.
    have hends : .continues ∉ s1.heap.members t →
        (f.andThen st.flow).falls = false ∨ (f.andThen st.flow).clear = false := by
      intro hc
      by_contra hno
      simp only [Flow.andThen, not_or, Bool.not_eq_false, Bool.and_eq_true] at hno
      exact hc (ht.shown hno.2.2 hno.1.2)
    have hsilent : (f.andThen st.flow).gives = false → g.gives = false ∧ st.flow.gives = false := fun hg =>
      (Bool.or_eq_false_iff.1 hg).imp_left hgives
    refine .theHeap_bind ?_
    split
    · rename_i hunknown
      have hc : .continues ∉ s1.heap.members t := fun hc =>
        hs1.heap.known_of_continues hc (Heap.isUnknown_iff.1 hunknown)
      exact (leaveBlock_agrees hr (hends hc) fun hg => (hsilent hg).1).mono fun _ _ hl hp => ⟨hp, hl.did hdid⟩
    · refine .bind (.lift (union_leaves hr ht)) ?_
      rintro w s2 hl2 ⟨hw, hkeeps⟩
      refine .theHeap_bind (.of_sound fun hs2 => ?_)
      have hmembers := hl2.types.members ht.has
      have hsilent' : (f.andThen st.flow).gives = false → (g.orElse st.flow).gives = false := fun hg =>
        Bool.or_eq_false_iff.2 (hsilent hg)
      split
      · rename_i hmay
        have hc : .continues ∈ s1.heap.members t := hmembers ▸ hs2.heap.mayContinue_iff.1 hmay
        have hcw : .continues ∈ s2.heap.members w := hkeeps (hmarked.imp_right fun hg => ⟨hg, hc⟩)
        refine .pure ⟨⟨⟨hw.has, fun _ => ?_, fun _ _ => hcw, fun hg => hw.silent (hsilent' hg)⟩, by simp [hcw]⟩,
          hl2.did hdid⟩
        exact Bool.and_eq_true_iff.2 ⟨hfalls, ht.falls hc⟩
      · rename_i hmay
        have hc : .continues ∉ s1.heap.members t := fun hc => hmay (hs2.heap.mayContinue_iff.2 (hmembers ▸ hc))
        exact (leaveBlock_agrees hw (hends hc) hsilent').mono fun _ _ hl hp => ⟨hp, (hl2.trans hl).did hdid⟩

theorem checkShortage_agrees : Agrees R n D s checkShortage checkShortage fun _ _ => ¬ env.IsStarved := by
  refine .read_bind ?_
  split
  · rename_i r hr
    exact .throw (R.allows_of_cause (.exhausted hr))
  · rename_i hno
    refine .pure ?_
    rintro ⟨r, hr⟩
    exact hno r hr

theorem block_agrees (fits : Fits R ev ev') (b : List Stmt) (hn : Stmt.sizeOfBlock b < n)
    (hd : Within D place.unit (frameItems.block b)) :
    Agrees R n D s (block ev place b) (block ev' place b) fun t s' =>
      s'.heap.Leaves t (Stmt.blockFlow b) ∧ s'.Did place.unit (ownItems.block b) := by
  refine .bind checkShortage_agrees fun _ s1 _ fed => .of_sound fun hsound => ?_
  cases b with
  | nil => exact .pure ⟨hsound.heap.leaves_continues, .nil⟩
  | cons st rest =>
    simp only [Stmt.sizeOfBlock, Collector.block, Within.append, Session.Did.append] at hn hd ⊢
    rw [if_neg (by simp), if_neg (by simp), List.foldlM_cons, List.foldlM_cons, bind_assoc, bind_assoc]
    refine .bind (blockStep_agrees fits fed (.inr ⟨rfl, rfl⟩) (by omega) hd.1) ?_
    rintro p s2 _ ⟨hp, hdid⟩
    rw [Collector.block_eq] at hd ⊢
    refine .bind (.foldlM_along (N := fun f st => f.andThen st.flow) (I := fun f p s => s.heap.Carries p f)
      (P := fun st s => s.Did place.unit (ownItems.stmt st)) rest (fun _ _ _ hl => hl.did) ?_ hp) ?_
    · intro st hst f acc s3 _ hacc
      have hsize := Stmt.sizeOfBlock_eq rest ▸ Syntax.le_sum_of_mem (f := Stmt.size) hst
      exact blockStep_agrees fits fed (.inl hacc) (by omega) (Within.flatMap.1 hd.2 st hst)
    · rintro q s3 hl3 ⟨hq, hrest⟩
      rw [Flow.onward_andThen, ← Stmt.andThen_blockFlow] at hq
      exact .pure ⟨hq.leaves, hl3.did hdid, Session.Did.flatMap.2 hrest⟩

end Blocks

end Concordance
