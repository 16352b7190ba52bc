import Concordance.Proofs.Inference.Unpacking
import Concordance.Proofs.Tracking.Step

/-!
# Names are entered where their declaration sends them

A function that declares a name to belong to the module sends it there: targets, definitions, walrus assignments,
handlers, contexts and captures that bind the name in the scope of the function enter it in the scope of the module.
-/

namespace Concordance

open Session (moduleTable)
open Syntax (Expr Ident Part Pattern Piece Span Stmt)

variable {target : Expr}

namespace Syntax

def Expr.boundNames (target : Expr) : List Ident :=
  target.leaves.filterMap fun
    | .name i => some i
    | _ => none

/-- The name that a pattern captures something under, apart from the patterns inside. -/
def Pattern.captured : Pattern → Option Ident
  | .capture _ name | .star name | .mapping _ name => name
  | _ => none

/-- The names that a statement binds itself where it stands, unless it is an import. -/
def Stmt.boundNames : Stmt → List Ident
  | .functionDef _ _ name .. | .classDef _ _ name .. | .typeAlias name _ => [name]
  | .assign targets _ => targets.flatMap Expr.boundNames
  | .declare target .. | .augment target .. | .forLoop target .. => target.boundNames
  | .withBlock contexts _ => contexts.flatMap fun c => c.target.toList.flatMap Expr.boundNames
  | .tryBlock _ handlers .. => handlers.flatMap fun h => h.target.toList.flatMap Expr.boundNames
  | _ => []

theorem Expr.mem_boundNames : i ∈ target.boundNames ↔ .name i ∈ target.leaves := by
  rw [Expr.boundNames, List.mem_filterMap]
  refine ⟨fun h => ?_, fun h => ⟨_, h, rfl⟩⟩
  obtain ⟨e, he, hi⟩ := h
  split at hi
  · exact Option.some.inj hi ▸ he
  · cases hi

end Syntax

def Task.boundNames {α : Type} : Task α → List Ident
  | .expr _ (.assignment _ target _) => target.boundNames
  | .expr .. => []
  | .stmt _ x => x.boundNames
  | .bind _ target .. => target.boundNames
  | .pattern _ p _ => p.captured.toList

variable {s : Session} {place : Place}

/-- The scope of a function declares a name to belong to the module, whose scope is the other one. -/
def Session.Redirects (s : Session) (x : ScopeId) (name : String) (t : ScopeId) : Prop :=
  s.Declares x name ∧ ∃ m, s.heap.Within x m ∧ (s.heap.module m).table = t

namespace Session.Redirects

theorem later (hr : s.Redirects x name t) (hon : s.Onward s') : s'.Redirects x name t := by
  obtain ⟨hd, m, hw, htable⟩ := hr
  refine ⟨hon.lasts.declared x name hd, m, hon.before.scopes x m hw, ?_⟩
  rw [(hon.lasts.firm.modules m hw.module_lt).2]
  exact htable

theorem targetScope (hr : s.Redirects x name t) (ho : s.Ordered) : s.heap.targetScope x name = t := by
  obtain ⟨hd, m, hw, rfl⟩ := hr
  rw [Heap.targetScope, if_pos hd.2]
  exact hw.moduleScope_eq ho.apart.housed

theorem lt (hr : s.Redirects x name t) (ho : s.Ordered) : t.index < s.heap.scopes.size := by
  obtain ⟨_, m, hw, rfl⟩ := hr
  exact (Heap.Within.table hw.module_lt).lt ho.apart.housed

end Session.Redirects

/-- A name has an entry in a scope, unless that is the table of modules. -/
def Session.Entered (s : Session) (t : ScopeId) (name : String) : Prop :=
  (s.heap.scope t).local? name ≠ none ∨ t = moduleTable

theorem Session.Entered.later (he : s.Entered t name) (hl : s.Lasts s') : s'.Entered t name :=
  he.elim (hl.entered t name) .inr

/-- Work that keeps a session in order, from any session that comes onward from the given one, and whose results are
such if it ends well. -/
structure Achieves {α : Type} (env : Environment) (s : Session) (x : Analysis α) (P : α → Session → Prop) : Prop where
  run : ∀ s1, s.Onward s1 → s1.Ordered → s1.Endures env x ∧ ∀ a s2, x.runOn env s1 = (.ok a, s2) → P a s2

namespace Achieves

variable {α β : Type}

theorem later (hx : Achieves env s x P) (hon : s.Onward s') : Achieves env s' x P :=
  ⟨fun s1 hs1 => hx.run s1 (hon.trans hs1)⟩

theorem now (hx : ∀ s', s.Onward s' → s'.Ordered → Achieves env s' x P) : Achieves env s x P :=
  ⟨fun s1 hs1 ho => (hx s1 hs1 ho).run s1 (.refl s1) ho⟩

theorem mono (hx : Achieves env s x P) (himp : ∀ a s2, P a s2 → P' a s2) : Achieves env s x P' :=
  ⟨fun s1 hs1 ho => (hx.run s1 hs1 ho).imp_right fun h a s2 hrun => himp a s2 (h a s2 hrun)⟩

theorem pure (ha : ∀ s2, s.Onward s2 → P a s2) : Achieves env s (Pure.pure a) P := by
  refine ⟨fun s1 hs1 ho => ⟨⟨.refl s1, ho⟩, fun b s2 hrun => ?_⟩⟩
  cases hrun
  exact ha _ hs1

theorem of_tracks (hx : Tracks env s s x x) :
    Achieves env s x fun a s2 => ∃ s1, s.Onward s1 ∧ s1.Ordered ∧ x.runOn env s1 = (.ok a, s2) := by
  refine ⟨fun s1 hs1 ho => ?_⟩
  obtain ⟨hon, ho2, _⟩ := hx.run s1 hs1.leads ho
  exact ⟨⟨hon, ho2⟩, fun a s2 hrun => ⟨s1, hs1, ho, hrun⟩⟩

theorem theHeap_get (hf : ∀ s', s.Onward s' → s'.Ordered → Achieves env s' (f s'.heap) P) :
    Achieves env s (theHeap >>= f) P := by
  refine ⟨fun s1 hs1 ho => ?_⟩
  obtain ⟨hend, hentry⟩ := (hf s1 hs1 ho).run s1 (.refl s1) ho
  exact ⟨hend.theHeap_bind, hentry⟩

theorem bind (hx : Achieves env s x P)
    (hf : ∀ a s2, s.Onward s2 → s2.Ordered → P a s2 → Achieves env s2 (f a) Q) : Achieves env s (x >>= f) Q := by
  refine ⟨fun s1 hs1 ho => ?_⟩
  obtain ⟨⟨hon, ho2⟩, hfirst⟩ := hx.run s1 hs1 ho
  suffices h : (s1.Onward ((x >>= f).runOn env s1).2 ∧ ((x >>= f).runOn env s1).2.Ordered) ∧
      ∀ b s3, (x >>= f).runOn env s1 = (.ok b, s3) → Q b s3 from ⟨⟨h.1.1, h.1.2⟩, h.2⟩
  rw [runOn_bind]
  rcases hrun : x.runOn env s1 with ⟨e | a, s2⟩ <;> rw [hrun] at hon ho2
  · exact ⟨⟨hon, ho2⟩, fun b s3 hrun' => by cases hrun'⟩
  · obtain ⟨hend, hrest⟩ := (hf a s2 (hs1.trans hon) ho2 (hfirst a s2 hrun)).run s2 (.refl s2) ho2
    exact ⟨⟨hon.trans hend.onward, hend.ordered⟩, hrest⟩

theorem theHeap_bind (hf : ∀ h, Achieves env s (f h) P) : Achieves env s (theHeap >>= f) P :=
  theHeap_get fun s' hon _ => (hf s'.heap).later hon

theorem after_run (hx : Tracks env s s x x)
    (hf : ∀ a s1 s2, s.Onward s2 → s2.Ordered → x.runOn env s1 = (.ok a, s2) → Achieves env s2 (f a) Q) :
    Achieves env s (x >>= f) Q := by
  refine (of_tracks hx).bind fun a s2 hon ho hrun => ?_
  obtain ⟨s1, _, _, hrun⟩ := hrun
  exact hf a s1 s2 hon ho hrun

theorem after (hx : Tracks env s s x x) (hf : ∀ a, Achieves env s (f a) Q) : Achieves env s (x >>= f) Q :=
  after_run hx fun a _ _ hon _ _ => (hf a).later hon

end Achieves

/-- Work that ends with an entry for a name in a scope if it ends well. -/
abbrev Enters {α : Type} (env : Environment) (s : Session) (t : ScopeId) (name : String) (x : Analysis α) : Prop :=
  Achieves env s x fun _ s2 => s2.Entered t name

namespace Enters

variable {α β : Type}

theorem bind (hx : Enters env s t name x) (hf : ∀ a, Tracks env s s (f a) (f a)) : Enters env s t name (x >>= f) := by
  refine ⟨fun s1 hs1 ho => ?_⟩
  obtain ⟨hend, hentry⟩ := hx.run s1 hs1 ho
  have hrest : ∀ a, (x.runOn env s1).2.Endures env (f a) := by
    intro a
    obtain ⟨hon, ho', _⟩ := (hf a).run _ (hs1.trans hend.onward).leads hend.ordered
    exact ⟨hon, ho'⟩
  refine ⟨hend.bind fun a _ => hrest a, fun b s3 hrun => ?_⟩
  obtain ⟨a, s2, hfirst, hsecond⟩ := exists_of_runOn_bind hrun
  have hon := (hrest a).onward
  rw [hfirst, hsecond] at hon
  exact (hentry a s2 hfirst).later hon.lasts

theorem foldlM {xs : List α} (hf : ∀ acc, ∀ y ∈ xs, Tracks env s s (f acc y) (f acc y))
    (hy : y ∈ xs) (he : ∀ acc, Enters env s t name (f acc y)) (acc : β) : Enters env s t name (xs.foldlM f acc) := by
  induction xs generalizing acc with
  | nil => cases hy
  | cons z xs ih =>
    rw [List.foldlM_cons]
    have hrest : ∀ acc, ∀ y ∈ xs, Tracks env s s (f acc y) (f acc y) := fun acc y hy => hf acc y (.tail _ hy)
    rcases List.mem_cons.1 hy with rfl | hy
    · exact (he acc).bind fun acc' => .foldlM xs hrest
    · exact .after (hf acc z (.head _)) fun acc' => ih hrest hy acc'

theorem forM {xs : List α} (hf : ∀ y ∈ xs, Tracks env s s (f y) (f y)) (hy : y ∈ xs)
    (he : Enters env s t name (f y)) : Enters env s t name (xs.forM f) := by
  induction xs with
  | nil => cases hy
  | cons z xs ih =>
    rw [List.forM_eq_forM, List.forM_cons]
    have hrest : ∀ y ∈ xs, Tracks env s s (f y) (f y) := fun y hy => hf y (.tail _ hy)
    rcases List.mem_cons.1 hy with rfl | hy
    · exact he.bind fun _ => .forM xs hrest
    · exact .after (hf z (.head _)) fun _ => ih hrest hy

end Enters

theorem local_insertName_ne_none (hx : x.index < h.scopes.size) (name : String) (type : TypeId)
    (kind : BindingKind) (describe : Binding → Binding) :
    (((insertName x name type kind describe).run h).2.scope x).local? name ≠ none := by
  rcases (h.scope x).bound_cases name with hnone | ⟨b, bs, hbound⟩
  · rw [run_insertName_new hnone]
    exact Scope.local_ne_none_of_bound (Heap.bound_withName_self hx)
  · rw [run_insertName_bound hbound]
    obtain ⟨types, heq, _⟩ := exists_types_union h (h.binding b).type type
    rw [heq]
    exact Scope.local_ne_none_of_bound hbound

theorem runOn_bindIn_enters (env : Environment) (s : Session) (hx : x.index < s.heap.scopes.size)
    (name : String) (site : Option Site) (type : TypeId) (kind : BindingKind) :
    ∃ b s', (bindIn x name site type kind).runOn env s = (.ok b, s') ∧ (s'.heap.scope x).local? name ≠ none ∧
      ∀ y, y ≠ x → s'.heap.scope y = s.heap.scope y := by
  obtain ⟨describe, s', _, hrun, hsame, _⟩ := runOn_bindIn env s x name site type kind
  have hscope : ∀ y, s'.heap.scope y = ((insertName x name type kind describe).run s.heap).2.scope y :=
    fun y => by rw [Heap.scope, hsame.scopes, Heap.scope]
  refine ⟨_, s', hrun, ?_, fun y hy => (hscope y).trans ?_⟩
  · rw [hscope]
    exact local_insertName_ne_none hx name type kind describe
  · rcases (s.heap.scope x).bound_cases name with hnone | ⟨b, bs, hbound⟩
    · rw [run_insertName_new hnone]
      exact (Heap.scope_modify x y).trans (if_neg fun h => hy h.1)
    · rw [run_insertName_bound hbound]
      obtain ⟨types, heq, _⟩ := exists_types_union s.heap (s.heap.binding b).type type
      rw [heq]
      rfl

theorem length_of_runOn_destructure {ms : List TypeId}
    (hrun : (ms.foldlM (destructureStep ev (.ofElements elements) display) (none, none)).runOn env s =
      (.ok (some ts, mismatch), s')) : ts.length = elements.length := by
  have hslots := Slots.ofElements_isSound elements
  rcases gathers_or_halts env ev hslots display s ms with ⟨types, outcomes, s1, hg⟩ | ⟨f, s1, hh⟩
  · rw [hg.runOn_fold hslots] at hrun
    cases hrun
    exact hg.fitting.2 ts rfl
  · rw [hh.runOn_fold hslots] at hrun
    cases hrun

theorem known_of_runOn_classOf
    (hrun : (classOf place r name).runOn env s = (.ok x, s')) : s'.definitions.classes.get? r = some x.1 := by
  cases hknown : s.definitions.classes.get? r with
  | some c =>
    rw [runOn_classOf_known hknown] at hrun
    cases hrun
    exact hknown
  | none =>
    rcases hmake : (newClass name (some place.scope)).run s.heap with ⟨c, h⟩
    rw [runOn_classOf_new hknown hmake] at hrun
    cases hrun
    exact Table.get?_insert_self ..

theorem classOf_tracks (hp : s.Stands place p) (hnode : node ∈ p.numbers) (name : String) :
    Tracks env final s (classOf place ⟨place.unit.number, node⟩ name) (classOf place ⟨place.unit.number, node⟩ name) := by
  rw [← bind_pure (classOf place ⟨place.unit.number, node⟩ name)]
  exact classOf_bind hp hnode name fun _ _ _ _ _ => .pure

theorem bindName_enters (hi : s.Stands place (.expr (.name i)))
    (hr : s.Redirects place.scope i.text t) (value : TypeId) (kind : BindingKind) (extent : Option Span) :
    Enters env s t i.text (bindName place i value kind extent) := by
  refine ⟨fun s1 hs1 ho => ⟨(bindName_tracks (hi.later hs1.before) value kind extent).endures ho, fun a s2 hrun => ?_⟩⟩
  have hr1 := hr.later hs1
  obtain ⟨b, s3, hbind, hentry, _⟩ := runOn_bindIn_enters env s1 (hr1.lt ho) i.text (some (place.site i extent)) value kind
  rw [bindName, runOn_theHeap_bind, hr1.targetScope ho, runOn_discard, hbind] at hrun
  cases hrun
  exact .inl hentry

/-- An evaluator that does the tasks that are due, and enters the names that they bind. -/
structure Enlists (env : Environment) (ev : Evaluator) : Prop where
  minds : ∀ final, Minds env final ev ev
  run : ∀ {α : Type} (task : Task α) {s : Session} {i : Ident} {t : ScopeId}, s.Due task.place task.piece → task.Sourced s →
    i ∈ task.boundNames → s.Redirects task.place.scope i.text t → Enters env s t i.text (ev.run task)

section Tasks

variable {i : Ident} (enlists : Enlists env ev) (hr : s.Redirects place.scope i.text t)

section Targets

include enlists

theorem Enlists.bind (ht : s.Due place (.expr target))
    (hs : s.Sources place target source) (hi : i ∈ target.boundNames) (hr : s.Redirects place.scope i.text t)
    (value : TypeId) (kind : BindingKind) : Enters env s t i.text (ev.bind place target value kind source) :=
  enlists.run (.bind place target value kind source) ht hs hi hr

include hr

theorem bindPattern_enters (hp : s.Stands place (.expr pattern)) (hs : s.Sources place pattern source)
    (hes : ∀ e ∈ elements, s.Due place (.expr e.value)) (hi : .name i ∈ Expr.leavesOf elements) (value : TypeId)
    (kind : BindingKind) : Enters env s t i.text (bindPattern ev place pattern.span elements value kind source) := by
  have minds := enlists.minds s
  refine .theHeap_bind fun h => .after_run (.foldlM _ fun soFar m _ => destructureStep_tracks minds ..)
    fun x s1 s2 hon ho2 hrun => ?_
  obtain ⟨types, mismatch⟩ := x
  have minds2 := enlists.minds s2
  cases types with
  | none =>
    -- Nothing fitted: the targets inside are bound one after the other.
    have hleaf : ∀ leaf ∈ Expr.leavesOf elements, s2.Due place (.expr leaf) :=
      fun leaf hleaf => (Session.Due.leafOf hes hleaf).later hon.leads
    refine .after (reportMismatch_tracks (hp.later hon.before) (hs.later hon.before) mismatch) fun _ => ?_
    refine Enters.forM (fun leaf hmem => minds2.bind (hleaf leaf hmem) .none ..) hi ?_
    exact enlists.bind (hleaf _ hi) .none (Expr.mem_boundNames.2 (List.mem_singleton.2 rfl)) (hr.later hon) ..
  | some types =>
    -- There is a type for every element, so the one with the name is bound.
    obtain ⟨e, he, hname⟩ := Expr.mem_leavesOf.1 hi
    have hdue : ∀ e ∈ elements, s2.Due place (.expr e.value) := fun e he => (hes e he).later hon.leads
    obtain ⟨k, hk, rfl⟩ := List.getElem_of_mem he
    have hlen := length_of_runOn_destructure hrun
    have hk' : k < (elements.zip types).length := by
      rw [List.length_zip, hlen, Nat.min_self]
      exact hk
    have hzip : (elements[k], types[k]) ∈ elements.zip types := List.getElem_zip (h := hk') ▸ List.getElem_mem hk'
    refine Enters.forM (fun p hp => minds2.bind (hdue p.1 (List.of_mem_zip hp).1) .none ..) hzip ?_
    exact enlists.bind (hdue _ he) .none (Expr.mem_boundNames.2 hname) (hr.later hon) ..

theorem bindTarget_enters (ht : s.Due place (.expr target))
    (hs : s.Sources place target source) (hi : i ∈ target.boundNames) (value : TypeId) (kind : BindingKind) :
    Enters env s t i.text (bindTarget ev place target value kind source) := by
  rw [Expr.mem_boundNames] at hi
  cases target with
  | name j =>
    cases List.mem_singleton.1 hi
    exact bindName_enters ht.stands hr ..
  | tuple span elements | list span elements =>
    refine bindPattern_enters enlists hr ht.stands hs (fun e he => ht.part ?_) hi ..
    exact List.mem_map.2 ⟨e.value, List.mem_map.2 ⟨e, he, rfl⟩, rfl⟩
  | starred span inner =>
    exact enlists.bind (ht.part (List.mem_singleton.2 rfl)) hs.strip (Expr.mem_boundNames.2 hi) hr ..
  | _ => cases List.mem_singleton.1 hi

end Targets

section Definitions

include enlists hr

theorem defineFunction_enters (hp : s.Due place (.stmt (.functionDef span node i params body decorators))) :
    Enters env s t i.text (defineFunction ev place span node i params body decorators) := by
  have minds := enlists.minds s
  refine .after (minds.exprs fun e he => hp.part ?_) fun _ => .theHeap_get fun s' hon ho => ?_
  · exact List.mem_append_right _ (List.mem_map.2 ⟨e, he, rfl⟩)
  have hcomplete : Completes fun function => decorators.foldl Function.decorate
      { function with cls := s'.heap.classOf? place.scope } :=
    (Completes.decorators decorators).comp .withClass
  replace hp := hp.later hon.leads
  replace hr := hr.later hon
  refine .after (functionOf_tracks (enlists.minds s') hp .function rfl (fun e he => hp.part ?_) i.text hcomplete
    fun g _ c hc => ?_) fun f => ?_
  · exact List.mem_append_left _ (List.mem_append_left _ (List.mem_append_right _ he))
  · exact ho.apart.furnished.lt_of_classOf ((Function.cls_decorators ..).symm.trans hc)
  have hname : s'.Stands place (.expr (.name i)) := hp.stands.part (by simp [Piece.parts, Stmt.parts, Part.names])
  refine .theHeap_bind fun h' => (bindName_enters hname hr ..).bind fun _ => ?_
  split
  · refine .theHeap_bind fun h'' _ => .forM _ fun b _ => .lift fun _ => ?_
    exact modifyBinding_tame (fun _ => ⟨rfl, rfl, rfl, rfl, rfl, rfl, rfl, rfl, rfl⟩) fun _ => rfl
  · exact .pure

theorem evaluateClass_enters (hp : s.Due place (.stmt (.classDef span node i bases keywords body decorators)))
    (hc : s.definitions.classes.get? ⟨place.unit.number, node⟩ = some c) (isNew : Bool) :
    Enters env s t i.text (evaluateClass ev place span i bases keywords body c isNew) := by
  refine .now fun s0 hs0 ho0 => ?_
  have minds := enlists.minds s0
  replace hp := hp.later hs0.leads
  replace hr := hr.later hs0
  replace hc := hs0.before.classes _ _ hc
  have hlt := (ho0.rooted.classes _ c hc).1
  have hpart : ∀ e ∈ bases ++ keywords, s0.Due place (.expr e) := fun e he => hp.part
    (List.mem_append_left _ (List.mem_append_left _ (List.mem_append_right _ (List.mem_map.2 ⟨e, he, rfl⟩))))
  refine .after (.forM bases fun e he => evaluateBase_tracks minds (hpart e (List.mem_append_left _ he)) hlt isNew)
    fun _ => .after (minds.exprs fun e he => hpart e (List.mem_append_right _ he)) fun _ => ?_
  refine .theHeap_get fun s' hon ho' => ?_
  have hp' := hp.later hon.leads
  have hname : s'.Stands place (.expr (.name i)) := hp'.stands.part (by simp [Piece.parts, Stmt.parts, Part.names])
  refine (bindName_enters hname (hr.later hon) ..).bind fun _ => ?_
  split
  · refine (block_tracks (enlists.minds s') fun x hx => hp'.inside (.cls node) ?_ ?_).discard
    · exact List.mem_append_left _ (List.mem_append_right _ (List.mem_map.2 ⟨x, hx, rfl⟩))
    · exact ⟨c, hon.before.classes _ _ hc, rfl⟩
  · exact .pure

theorem defineClass_enters (hp : s.Due place (.stmt (.classDef span node i bases keywords body decorators))) :
    Enters env s t i.text (defineClass ev place span node i bases keywords body decorators) := by
  refine .after ((enlists.minds s).exprs fun e he => hp.part ?_) fun _ => ?_
  · exact List.mem_append_right _ (List.mem_map.2 ⟨e, he, rfl⟩)
  refine .after_run (classOf_tracks hp.stands (List.mem_singleton.2 rfl) i.text) fun x s1 s2 hon ho2 hrun => ?_
  exact evaluateClass_enters enlists (hr.later hon) (hp.later hon.leads) (known_of_runOn_classOf hrun) x.2

end Definitions

section Statements

include enlists hr

theorem handlerType_enters (hvalues : ∀ e ∈ handler.caught.toList ++ handler.target.toList, s.Due place (.expr e))
    (hbody : ∀ x ∈ handler.body, s.Due place (.stmt x)) (hi : i ∈ handler.target.toList.flatMap Expr.boundNames) :
    Enters env s t i.text (handlerType ev place handler) := by
  obtain ⟨caught, target, body⟩ := handler
  obtain ⟨target, hmem, hname⟩ := List.mem_flatMap.1 hi
  cases Option.mem_toList.1 hmem
  simp only [List.mem_append, Option.mem_toList] at hvalues
  have minds := enlists.minds s
  refine .after ?_ fun value => Enters.bind ?_ fun _ => block_tracks minds hbody
  · exact caughtType_tracks minds fun e he => hvalues e (.inl he)
  · exact enlists.bind (hvalues target (.inr rfl)) .none hname hr ..

theorem tryType_enters (hp : s.Due place (.stmt (.tryBlock body handlers orelse last)))
    (hi : i ∈ (Stmt.tryBlock body handlers orelse last).boundNames) :
    Enters env s t i.text (tryType ev place body handlers orelse last) := by
  obtain ⟨hblock, hhandler⟩ := hp.tryBlock
  obtain ⟨handler, hmem, hi⟩ := List.mem_flatMap.1 hi
  have minds := enlists.minds s
  have htracks := fun h hh => handlerType_tracks minds (hhandler h hh).1 (hhandler h hh).2
  refine .after (block_tracks minds fun x hx => hblock x (.inl hx)) fun u => Enters.bind ?_ fun u' => ?_
  · refine .foldlM (fun acc h hh => (htracks h hh).bind fun _ => .lift fun _ => union_tame ..) hmem (fun acc => ?_) u
    exact (handlerType_enters enlists hr (hhandler handler hmem).1 (hhandler handler hmem).2 hi).bind fun _ =>
      .lift fun _ => union_tame ..
  refine (mergeBlock_tracks minds (fun x hx => hblock x (.inr (.inl hx))) u').bind fun u'' => ?_
  cases last with
  | none => exact .pure
  | some b => exact (block_tracks minds fun x hx => hblock x (.inr (.inr hx))).bind fun _ => .theHeap_bind fun _ _ => .pure

theorem enterContext_enters (hc : ∀ e ∈ c.value :: c.target.toList, s.Due place (.expr e))
    (hs : ∀ target ∈ c.target, s.Sources place target (some c.value))
    (hi : i ∈ c.target.toList.flatMap Expr.boundNames) : Enters env s t i.text (enterContext ev place c) := by
  obtain ⟨value, target⟩ := c
  obtain ⟨target, hmem, hname⟩ := List.mem_flatMap.1 hi
  cases Option.mem_toList.1 hmem
  have minds := enlists.minds s
  refine .after (minds.expr (hc value (.head _))) fun context => .theHeap_bind fun h => ?_
  refine .after (merge_tracks _ _ fun u _ => enteredOne_tracks minds u) fun entered => ?_
  exact enlists.bind (hc target (by simp)) (hs target rfl) hname hr ..

theorem stmtType_enters (hx : s.Due place (.stmt x)) (hi : i ∈ x.boundNames) :
    Enters env s t i.text (stmtType ev place x) := by
  have hexpr : ∀ e, (none, .expr e) ∈ x.parts → s.Due place (.expr e) := fun e he => hx.part he
  have hstmt : ∀ y, (none, .stmt y) ∈ x.parts → s.Due place (.stmt y) := fun y hy => hx.part hy
  have minds := enlists.minds s
  cases x with
  | functionDef span node name params body decorators =>
    cases List.mem_singleton.1 hi
    exact (defineFunction_enters enlists hr hx).bind fun _ => .pure
  | classDef span node name bases keywords body decorators =>
    cases List.mem_singleton.1 hi
    exact (defineClass_enters enlists hr hx).bind fun _ => .pure
  | assign targets value =>
    simp only [Stmt.parts, Part.mem_exprs, List.mem_append] at hexpr
    obtain ⟨target, hmem, hi⟩ := List.mem_flatMap.1 hi
    have hsource : ∀ y ∈ targets, s.Sources place y (some value) :=
      fun y hy => .assigned hx.stands (List.mem_map.2 ⟨y, hy, rfl⟩)
    refine .after (minds.expr (hexpr value (.inr (List.mem_singleton.2 rfl)))) fun v => Enters.bind ?_ fun _ => .pure
    refine .forM (fun y hy => minds.bind (hexpr y (.inl hy)) (hsource y hy) ..) hmem ?_
    exact enlists.bind (hexpr target (.inl hmem)) (hsource target hmem) hi hr ..
  | declare target hint value =>
    simp only [Stmt.parts, Part.mem_exprs] at hexpr
    refine .after (minds.expr (hexpr hint (by simp))).discard fun _ => .after ?_ fun v => Enters.bind ?_ fun _ => .pure
    · cases value with
      | none => exact .pure
      | some e => exact minds.expr (hexpr e (by simp))
    · refine enlists.bind (hexpr target (by simp)) (fun v hv => ?_) hi hr ..
      exact Session.Sources.assigned hx.stands (List.mem_map.2 ⟨v, Option.mem_toList.2 hv, rfl⟩) v rfl
  | augment target op value =>
    simp only [Stmt.parts, Part.mem_exprs] at hexpr
    refine .after (minds.expr (hexpr target (by simp))) fun before => .after (minds.expr (hexpr value (by simp))) fun v => ?_
    refine .after (binaryResult_tracks minds ..) fun result => ?_
    exact (enlists.bind (hexpr target (by simp)) .none hi hr ..).bind fun _ => .pure
  | typeAlias name value =>
    cases List.mem_singleton.1 hi
    refine .after (minds.expr (hexpr value (List.mem_append_right _ (.head _)))) fun v => ?_
    have hname := hx.stands.part (List.mem_append_left _ (.head _))
    exact (bindName_enters hname hr ..).bind fun _ => .pure
  | forLoop target iterable body orelse =>
    simp only [Stmt.parts, List.mem_append, Part.mem_exprs, Part.mem_block] at hexpr hstmt
    have hiterable : s.Due place (.expr iterable) := hexpr iterable (by simp)
    refine .after (minds.expr hiterable) fun v => .after (itemsOf_tracks minds hiterable v) fun item => ?_
    refine (enlists.bind (hexpr target (by simp)) .none hi hr ..).bind fun _ => ?_
    exact loopType_tracks minds (fun y hy => hstmt y (.inl (.inr hy))) fun y hy => hstmt y (.inr hy)
  | tryBlock body handlers orelse last => exact tryType_enters enlists hr hx hi
  | withBlock contexts body =>
    simp only [Stmt.parts, List.mem_append, Part.mem_exprs, Part.mem_block] at hexpr hstmt
    obtain ⟨context, hmem, hi⟩ := List.mem_flatMap.1 hi
    have hvalues : ∀ c ∈ contexts, ∀ e ∈ c.value :: c.target.toList, s.Due place (.expr e) :=
      fun c hc e he => hexpr e (.inl (List.mem_flatMap.2 ⟨c, hc, he⟩))
    have hsource : ∀ c ∈ contexts, ∀ target ∈ c.target, s.Sources place target (some c.value) := by
      refine fun c hc target htarget => .assigned hx.stands (List.mem_flatMap.2 ⟨c, hc, ?_⟩)
      exact List.mem_map.2 ⟨target, Option.mem_toList.2 htarget, rfl⟩
    refine .bind ?_ fun _ => block_tracks minds fun y hy => hstmt y (.inr hy)
    refine .forM (fun c hc => enterContext_tracks minds (hvalues c hc) (hsource c hc)) hmem ?_
    exact enterContext_enters enlists hr (hvalues context hmem) (hsource context hmem) hi
  | _ => cases hi

theorem bindCaptures_enters (hp : s.Due place (.pattern p)) (hi : i ∈ p.captured) (subject : TypeId) :
    Enters env s t i.text (bindCaptures ev place subject p) := by
  have minds := enlists.minds s
  cases p with
  | capture inner name =>
    cases hi
    refine .after (.forM _ fun q hq => minds.pattern (hp.part ?_) _) fun _ => bindName_enters (hp.stands.part ?_) hr ..
    · exact List.mem_append_left _ (Part.mem_patterns.2 hq)
    · exact List.mem_append_right _ (List.mem_map.2 ⟨i, List.mem_singleton.2 rfl, rfl⟩)
  | star name =>
    cases hi
    exact .after (.lift fun _ => newType_tame trivial) fun _ => bindName_enters (hp.stands.part (.head _)) hr ..
  | mapping entries rest =>
    cases hi
    refine .after (bindEntries_tracks minds hp) fun _ => .after (.lift fun _ => newType_tame trivial) fun _ => ?_
    exact bindName_enters (hp.stands.part (List.mem_append_right _ (.head _))) hr ..
  | _ => cases hi

end Statements

end Tasks

theorem perform_enters (enlists : Enlists env ev) (task : Task α)
    (ht : s.Due task.place task.piece) (hs : task.Sourced s) (hi : i ∈ task.boundNames)
    (hr : s.Redirects task.place.scope i.text t) : Enters env s t i.text (perform ev task) := by
  refine .now fun s' hon ho => ?_
  have ht := ht.later hon.leads
  have hr := hr.later hon
  cases task with
  | expr place e =>
    cases e with
    | assignment span target value =>
      have hpart : ∀ x ∈ [target, value], s'.Due place (.expr x) := fun x hx => ht.part (Part.mem_exprs.2 hx)
      refine .after ((enlists.minds s').expr (hpart value (by simp))) fun v => ?_
      exact (enlists.bind (hpart target (by simp)) .none hi hr ..).bind fun _ => .pure
    | _ => cases hi
  | stmt place x => exact stmtType_enters enlists hr ht hi
  | bind place target value kind source =>
    exact bindTarget_enters enlists hr ht (Session.Sources.later hs hon.before) hi ..
  | pattern place p subject => exact bindCaptures_enters enlists hr ht (Option.mem_toList.1 hi) subject

theorem Enlists.withFuel (fuel : Nat) : Enlists env (.withFuel fuel) := by
  refine ⟨fun final => .withFuel fuel, fun {α} task {s i t} ht hs hi hr => ?_⟩
  induction fuel generalizing α s i t with
  | zero => exact ⟨fun s1 _ ho => ⟨⟨.refl s1, ho⟩, fun a s2 hrun => by cases hrun⟩⟩
  | succ fuel ih =>
    exact perform_enters ⟨fun final => .withFuel fuel, fun {α} task {s i t} => ih task⟩ task ht hs hi hr

end Concordance
