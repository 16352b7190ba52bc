import Concordance.Proofs.Inference.Call
import Concordance.Proofs.Tracking.Binding

/-!
# Calls keep a session in order

Names are bound outside the table of modules, and the body of a function is evaluated where it stands: in the scope that
was made for the function.
-/

namespace Concordance

open Syntax (Expr ExprText Param Part Piece Stmt Unstarred)

def Task.place {α : Type} : Task α → Place
  | .expr place _ | .stmt place _ | .bind place .. | .pattern place .. => place

def Task.piece {α : Type} : Task α → Piece
  | .expr _ e => .expr e
  | .stmt _ s => .stmt s
  | .bind _ target .. => .expr target
  | .pattern _ p _ => .pattern p

/-- What a target is bound to, if that is the value of an expression: a statement there binds the target to it. -/
def Session.Sources (s : Session) (place : Place) (target : Expr) (source : Option Expr) : Prop :=
  ∀ value, source = some value →
    ∃ stmt whole, s.Stands place (.stmt stmt) ∧ (whole, value) ∈ stmt.assignments ∧ Unstarred whole target

/-- If a task binds a target to the value of an expression, a statement there does. -/
def Task.Sourced {α : Type} (s : Session) : Task α → Prop
  | .bind place target _ _ source => s.Sources place target source
  | _ => True

/-- One evaluator does every task that is due as another one does, and keeps the session in order. -/
structure Minds (env : Environment) (final : Session) (ev ev' : Evaluator) : Prop where
  run : ∀ {α : Type} (task : Task α) {s : Session}, s.Due task.place task.piece → task.Sourced s →
    Tracks env final s (ev.run task) (ev'.run task)

variable {s : Session}

namespace Session.Sources

theorem later (hs : s.Sources place target source) (hb : s.Before s') : s'.Sources place target source := by
  intro value hvalue
  obtain ⟨stmt, whole, hp, hpair, hu⟩ := hs value hvalue
  exact ⟨stmt, whole, hp.later hb, hpair, hu⟩

theorem none : s.Sources place target .none := fun _ hvalue => by cases hvalue

theorem assigned (hp : s.Stands place (.stmt stmt))
    (hpair : (target, value) ∈ stmt.assignments) : s.Sources place target (some value) := by
  intro value' heq
  cases heq
  exact ⟨stmt, target, hp, hpair, .self⟩

theorem strip {inner : Expr} (hs : s.Sources place (.starred span inner) source) : s.Sources place inner source := by
  intro value hvalue
  obtain ⟨stmt, whole, hp, hpair, hu⟩ := hs value hvalue
  exact ⟨stmt, whole, hp, hpair, hu.strip⟩

end Session.Sources

theorem Task.Sourced.later {task : Task α} (hs : task.Sourced s) (hb : s.Before s') : task.Sourced s' := by
  cases task with
  | bind place target value kind source => exact Session.Sources.later hs hb
  | _ => trivial

namespace Minds

variable (minds : Minds env final ev ev')
include minds

theorem expr (he : s.Due place (.expr e)) : Tracks env final s (ev.expr place e) (ev'.expr place e) :=
  minds.run (.expr place e) he trivial

theorem stmt (hx : s.Due place (.stmt x)) : Tracks env final s (ev.stmt place x) (ev'.stmt place x) :=
  minds.run (.stmt place x) hx trivial

theorem bind (ht : s.Due place (.expr target))
    (hs : s.Sources place target source) (value : TypeId) (kind : BindingKind) :
    Tracks env final s (ev.bind place target value kind source) (ev'.bind place target value kind source) :=
  minds.run (.bind place target value kind source) ht hs

theorem pattern (hp : s.Due place (.pattern p)) (subject : TypeId) :
    Tracks env final s (ev.pattern place p subject) (ev'.pattern place p subject) :=
  minds.run (.pattern place p subject) hp trivial

theorem exprOption (ho : ∀ e ∈ o, s.Due place (.expr e)) :
    Tracks env final s (ev.exprOption place o) (ev'.exprOption place o) := by
  cases o with
  | none => exact .pure
  | some e => exact (minds.expr (ho e rfl)).discard

theorem exprs (hes : ∀ e ∈ es, s.Due place (.expr e)) : Tracks env final s (ev.exprs place es) (ev'.exprs place es) :=
  .forM es fun e he => (minds.expr (hes e he)).discard

end Minds

section Blocks

theorem checkShortage_tracks : Tracks env final s checkShortage checkShortage := by
  refine .read_bind ?_
  split
  · exact .throw
  · exact .pure

variable (minds : Minds env final ev ev')
include minds

theorem blockStep_tracks (hx : s.Due place (.stmt x)) (soFar : TypeId × Bool) :
    Tracks env final s (blockStep ev place soFar x) (blockStep ev' place soFar x) := by
  -- However control leaves the block, the marker is taken off.
  have hleave : ∀ (t : TypeId), Tracks env final s
      (do return (← stripContinues t .unknown, true) : Analysis (TypeId × Bool))
      (do return (← stripContinues t .unknown, true)) :=
    fun t => .bind (.lift fun _ => stripContinues_tame ..) fun _ => .pure
  refine (minds.stmt hx).bind fun t => ?_
  split
  split
  · exact .pure
  · refine .theHeap_bind fun h _ => ?_
    split
    · exact hleave _
    · refine .bind (.lift fun _ => union_tame ..) fun r => .theHeap_bind fun h' _ => ?_
      split
      · exact .pure
      · exact hleave _

theorem block_tracks (hb : ∀ x ∈ b, s.Due place (.stmt x)) :
    Tracks env final s (block ev place b) (block ev' place b) := by
  refine checkShortage_tracks.bind fun _ => ?_
  split
  · exact .pure
  · exact .bind (.foldlM b fun soFar x hx => blockStep_tracks minds (hb x hx) soFar) fun _ => .pure

end Blocks

section Frames

theorem bindSurplus_tame (surplus : List TypeId) (items : Option TypeId) (p : Option (Param Expr)) :
    Tame W h (bindSurplus surplus items p) := by
  cases p with
  | none => exact .pure
  | some p =>
    simp only [bindSurplus]
    split
    · exact .bind (newType_tame trivial) fun _ => .pure
    · exact .bind (newType_tame trivial) fun _ => .pure

theorem bindKeywordSurplus_tame (keywords : Table String TypeId) (entries : Option TypeId) (p : Option (Param Expr)) :
    Tame W h (bindKeywordSurplus keywords entries p) := by
  cases p with
  | none => exact .pure
  | some p =>
    refine (unionAll_tame _).bind fun value => ?_
    dsimp only
    split
    · exact (union_tame ..).bind fun _ => .bind (newType_tame trivial) fun _ => .pure
    · exact .bind .pure fun _ => .bind (newType_tame trivial) fun _ => .pure

theorem bindParameters_tame (function : Function) (code : Code) (receiver : Option TypeId) (args : CallArgs) :
    Tame W h (bindParameters function code receiver args) := by
  refine .get_bind fun g _ _ => ?_
  refine (bindSurplus_tame ..).bind fun _ => (bindKeywordSurplus_tame ..).bind fun _ => .pure

theorem impliedReceiver_tame (hcls : ∀ c, function.cls = some c → c.index < h.classes.size) :
    Tame W h (impliedReceiver function) := by
  unfold impliedReceiver
  split
  · exact .pure
  · rename_i c hc
    split
    · exact .pure
    · split
      · exact .get_bind fun _ _ _ => .pure
      · exact (canonOf_tame (hcls c hc)).bind fun _ => .pure

theorem callFrame_tame (hcls : ∀ c, function.cls = some c → c.index < h.classes.size) (code : Code)
    (receiver : Option TypeId) (args : Option CallArgs) : Tame W h (callFrame function code receiver args) := by
  have hrest : ∀ r, Tame W h (do
      let bound ← bindParameters function code r (args.getD {})
      return (bound, ← newTuple (bound.map Prod.snd))) :=
    fun r => (bindParameters_tame ..).bind fun _ => .bind (newType_tame trivial) fun _ => .pure
  unfold callFrame
  dsimp only
  split
  · exact (impliedReceiver_tame hcls).bind hrest
  · exact .bind .pure hrest

theorem callFrame_idents (function : Function) (code : Code) (receiver : Option TypeId) (args : Option CallArgs) :
    ((callFrame function code receiver args).run h).1.1.map Prod.fst = code.params.idents := by
  have hrest : ∀ r (g : Heap), ((do
      let bound ← bindParameters function code r (args.getD {})
      return (bound, ← newTuple (bound.map Prod.snd)) : HeapM _).run g).1.1.map Prod.fst = code.params.idents :=
    fun r g => bindParameters_idents function code r (args.getD {})
  unfold callFrame
  dsimp only
  split
  · exact hrest _ _
  · exact hrest _ _

end Frames

section Application

theorem Syntax.Part.ident_mem_ofParams (hi : i ∈ ps.idents) :
    (some (.function node), .expr (.name i)) ∈ Part.ofParams node ps := by
  obtain ⟨p, hp, rfl⟩ := List.mem_map.1 hi
  exact List.mem_flatMap.2 ⟨p, hp, .head _⟩

theorem Session.Ordered.parameter (ho : s.Ordered) (hc : (s.heap.function f).code = some c) (hi : i ∈ c.params.idents) : s.Stands ⟨c.unit, (s.heap.function f).table⟩ (.expr (.name i)) ∧
      s.Takes (s.heap.function f).table i.text := by
  obtain ⟨_, scope, p, hp, hdef, _⟩ := ho.rooted.codes f c hc
  have hhost : s.Hosts c.unit.number (.function c.node) (s.heap.function f).table := ⟨f, c, hc, rfl, rfl⟩
  refine ⟨hp.inside (.function c.node) ?_ hhost, .parameter hp hdef hhost hi rfl⟩
  cases hdef with
  | function =>
    refine List.mem_append_left _ (List.mem_append_left _ (List.mem_append_right _ ?_))
    exact Part.ident_mem_ofParams hi
  | lambda => exact List.mem_append_left _ (Part.ident_mem_ofParams hi)

theorem Session.Ordered.body_due (ho : s.Ordered)     (hc : (s.heap.function f).code = some c) :
    match c.body with
    | .value e => s.Due ⟨c.unit, (s.heap.function f).table⟩ (.expr e)
    | .block b => ∀ x ∈ b, s.Due ⟨c.unit, (s.heap.function f).table⟩ (.stmt x) := by
  obtain ⟨_, scope, p, hp, hdef, _⟩ := ho.rooted.codes f c hc
  cases hdef with
  | function =>
    intro x hx
    refine hp.body_due ?_ ⟨f, _, hc, rfl, rfl⟩
    simp only [Piece.parts, Stmt.parts, List.mem_append, List.mem_map]
    exact .inl (.inr ⟨x, hx, rfl⟩)
  | lambda =>
    refine hp.body_due ?_ ⟨f, _, hc, rfl, rfl⟩
    exact List.mem_append_right _ (List.mem_singleton.2 rfl)

theorem Session.Ordered.code_within (ho : s.Ordered)     (hc : (s.heap.function f).code = some c) :
    ∃ m u, s.loading.units.get? m = some u ∧ c.unit = u.ref ∧ s.heap.Within (s.heap.function f).table m := by
  obtain ⟨⟨m, u, hu, hn, hw⟩, _, _, ⟨m', u', _, hu', hunit, _⟩, _⟩ := ho.rooted.codes f c hc
  have hn' : u'.number = c.unit.number := (congrArg UnitRef.number hunit).symm
  rw [ho.shelved.once m m' u u' hu hu' (hn.trans hn'.symm)] at hw
  exact ⟨m', u', hu', hunit, hw⟩

theorem yieldedOr_tracks (f : FunctionId) (result : TypeId) :
    Tracks env final s (yieldedOr f result) (yieldedOr f result) := by
  refine .theHeap_bind fun h _ => ?_
  split
  · exact .lift fun _ => newType_tame trivial
  · exact .pure

theorem merge_tracks {β : Type} {f g : β → Analysis TypeId} (xs : List β) (acc : TypeId)
    (hf : ∀ x ∈ xs, Tracks env final s (f x) (g x)) :
    Tracks env final s (xs.foldlM (fun acc x => do union acc (← f x)) acc)
      (xs.foldlM (fun acc x => do union acc (← g x)) acc) :=
  .foldlM xs fun _ x hx => (hf x hx).bind fun _ => .lift fun _ => union_tame ..

variable (minds : Minds env final ev ev')
include minds

theorem bodyType_tracks (ho : s.Ordered) (hc : (s.heap.function f).code = some c) (hbound : ∀ b ∈ bound, b.1 ∈ c.params.idents) :
    Tracks env final s (bodyType ev f c (s.heap.function f).table bound)
      (bodyType ev' f c (s.heap.function f).table bound) := by
  have hbody := ho.body_due hc
  obtain ⟨m, u, hu, hunit, hw⟩ := ho.code_within hc
  refine .bind (.forM bound fun b hb => .discard (.of_endures fun s1 hs1 ho1 => ?_)) fun _ => ?_
  · obtain ⟨hstands, htakes⟩ := ho.parameter hc (hbound b hb)
    exact ho1.bindWithin_endures (hstands.later hs1.toBefore) (hs1.units m u hu) hunit (hs1.scopes _ m hw)
      (fun _ _ => htakes.later hs1.toBefore) none b.2 .parameter
  cases hb : c.body with
  | value e =>
    rw [hb] at hbody
    exact (minds.expr hbody).bind fun _ => yieldedOr_tracks ..
  | block b =>
    rw [hb] at hbody
    refine (block_tracks minds hbody).bind fun _ => ?_
    exact .bind (.lift fun _ => stripContinues_tame ..) fun _ => yieldedOr_tracks ..

theorem applyBody_tracks (hc : (s.heap.function f).code = some c) (hbound : ∀ b ∈ bound, b.1 ∈ c.params.idents) :
    Tracks env final s (applyBody ev f c bound) (applyBody ev' f c bound) := by
  refine ⟨fun s1 hs1 ho => ?_⟩
  rw [runOn_applyBody, runOn_applyBody]
  -- Entering and leaving change a function in what it has yielded only.
  have hyields : ∀ (s2 : Session) (c : Session → Session) (y : Option TypeId), s2.Ordered → s2.Alike (c s2) →
      (c s2).heap = { s2.heap with functions := s2.heap.functions.modify f.index fun g => { g with yields := y } } →
      s2.Onward (c s2) ∧ (c s2).Ordered := by
    intro s2 c y ho2 hal heq
    have hs : s2.heap.Steady Heap.Nowhere (c s2).heap := heq ▸ .ofFunction fun _ => ⟨rfl, rfl⟩
    have ha : (c s2).heap.Apart := heq ▸ ⟨ho2.apart.ofFunction fun _ => ⟨rfl, rfl⟩,
      ho2.apart.furnished.ofFunction fun _ => ⟨rfl, rfl⟩⟩
    exact ⟨ho2.onward hal hs, ho2.steady hal hs ha⟩
  obtain ⟨hon, ho1⟩ := hyields s1 (·.enterCall f) none ho ⟨rfl, rfl, rfl, rfl, rfl, rfl, rfl, .of_eq rfl⟩ rfl
  have hc1 := hon.before.codes f c (hs1.codes f c hc)
  have hsteady : s1.heap.Steady Heap.Nowhere (s1.enterCall f).heap := .ofFunction fun _ => ⟨rfl, rfl⟩
  have htable := hsteady.tables f c (hs1.codes f c hc)
  have hbody := bodyType_tracks minds ho1 hc1 hbound
  rw [htable] at hbody
  obtain ⟨hon2, ho2, heq⟩ := hbody.run _ (.refl _) ho1
  obtain ⟨hon3, ho3⟩ := hyields _ (·.leaveCall f s1.callStack (s1.heap.function f).yields) _ ho2
    ⟨rfl, rfl, rfl, rfl, rfl, rfl, rfl, .of_eq rfl⟩ rfl
  refine ⟨hon.trans (hon2.trans hon3), ho3, fun hb => ?_⟩
  rw [heq (hon3.precedes.trans hb)]

theorem applyMarked_tracks (f : FunctionId) (receiver : Option TypeId) (args : Option CallArgs) :
    Tracks env final s (applyMarked ev f receiver args) (applyMarked ev' f receiver args) := by
  refine .get_bind fun s' _ ho => ?_
  dsimp only
  split
  · exact .lift fun _ => nativeResult_tame f
  · split
    · exact .pure
    · rename_i code hcode
      refine .get_bind fun s2 hs2 _ => ?_
      split
      · exact .pure
      · refine .lift_bind (fun s3 hs3 => callFrame_tame (fun c hc => ?_) ..) fun g => ?_
        · exact Nat.lt_of_lt_of_le (ho.apart.furnished.methods f c hc) (hs2.firm.trans hs3.firm).classes_le
        have hidents := callFrame_idents (h := g) (s'.heap.function f) code receiver args
        refine .theHeap_bind fun h _ => ?_
        split
        · exact .pure
        · refine (applyBody_tracks minds (hs2.codes f code hcode) fun b hb => ?_).bind fun result => ?_
          · exact hidents ▸ List.mem_map_of_mem hb
          refine .bind (.change fun _ => ⟨⟨rfl, rfl, rfl, rfl, rfl, rfl, rfl, .of_eq rfl⟩, rfl⟩) fun _ => ?_
          exact .bind (.lift fun _ => addArrow_tame ..) fun _ => .pure

theorem apply_tracks (f : FunctionId) (receiver : Option TypeId) (args : Option CallArgs) :
    Tracks env final s (apply ev f receiver args) (apply ev' f receiver args) := by
  refine .bind (.change fun _ => ⟨⟨rfl, rfl, rfl, rfl, rfl, rfl, rfl, .of_eq rfl⟩, rfl⟩) fun _ => ?_
  exact .bind (.lift fun _ => markCalled_tame f) fun _ => applyMarked_tracks minds f receiver args

theorem applyAll_tracks (fs : List FunctionId) (receiver : TypeId) (args : CallArgs) :
    Tracks env final s (applyAll ev fs receiver args) (applyAll ev' fs receiver args) :=
  merge_tracks fs _ fun f _ => apply_tracks minds f ..

theorem construct_tracks {c : ClassId} (hc : c.index < s.heap.classes.size) (args : CallArgs) :
    Tracks env final s (construct ev c args) (construct ev' c args) := by
  refine .theHeap_bind fun h _ => ?_
  dsimp only
  split
  · exact .lift fun _ => build_tame _
  · refine .bind (.lift_later fun s' hs' => canonOf_tame (Nat.lt_of_lt_of_le hc hs'.firm.classes_le)) fun object => ?_
    refine .theHeap_bind fun h' _ => ?_
    refine .bind (.forM _ fun b _ => .theHeap_bind fun h'' _ => ?_) fun _ => .pure
    exact .forM _ fun f _ => (apply_tracks minds f ..).discard

theorem callOne_tracks (callee : TypeId) (args : CallArgs) :
    Tracks env final s (callOne ev callee args) (callOne ev' callee args) := by
  refine .theHeap_get fun s' _ ho => ?_
  split
  · exact apply_tracks minds ..
  · rename_i c hc
    exact construct_tracks minds (ho.apart.furnished.lt_of_class hc) args
  · exact applyAll_tracks minds ..
  · exact .pure

theorem call_tracks (callee : TypeId) (args : CallArgs) : Tracks env final s (call ev callee args) (call ev' callee args) :=
  .theHeap_bind fun _ _ => merge_tracks _ _ fun t _ => callOne_tracks minds t args

theorem callMethod_tracks (receiver : TypeId) (name : String) :
    Tracks env final s (callMethod? ev receiver name) (callMethod? ev' receiver name) := by
  refine .theHeap_bind fun h _ => ?_
  split
  · exact .pure
  · exact (applyAll_tracks minds ..).bind fun _ => .pure

end Application

section Iteration

variable (minds : Minds env final ev ev')
include minds

theorem iteratorElement_tracks (access : Access) (iterator : TypeId) :
    Tracks env final s (iteratorElement ev access iterator) (iteratorElement ev' access iterator) := by
  refine .theHeap_bind fun h _ => ?_
  split
  · exact .pure
  · exact .lift fun _ => unionAll_tame _
  · exact .pure
  · exact .pure
  · exact (callMethod_tracks minds ..).bind fun _ => .pure

theorem elementOfOne_tracks (access : Access) (value : TypeId) :
    Tracks env final s (elementOfOne? ev access value) (elementOfOne? ev' access value) := by
  refine .theHeap_bind fun h _ => ?_
  dsimp only
  split
  · exact .pure
  · exact .pure
  · exact .bind (.lift fun _ => unionAll_tame _) fun _ => .pure
  · exact .pure
  · exact .pure
  · refine (callMethod_tracks minds ..).bind fun found => ?_
    cases found with
    | none => exact .pure
    | some iterator =>
      refine .theHeap_bind fun h' _ => .bind ?_ fun _ => .pure
      exact merge_tracks _ _ fun m _ => iteratorElement_tracks minds access m

theorem element_tracks (access : Access) (value : TypeId) :
    Tracks env final s (element? ev access value) (element? ev' access value) := by
  refine .theHeap_bind fun h _ => ?_
  split
  · refine .bind (.foldlM _ fun acc m _ => ?_) fun _ => .pure
    exact (elementOfOne_tracks minds access m).bind fun _ => .lift fun _ => union_tame ..
  · exact elementOfOne_tracks minds access value

theorem iterated_tracks (value : TypeId)
    (hsite : ∀ l ∈ site, s.Contains l.file fun body => ExprText body l.start l.stop) :
    Tracks env final s (iterated ev value site) (iterated ev' value site) := by
  refine .theHeap_bind fun h _ => .bind (.foldlM _ fun soFar m _ => ?_) fun x => .theHeap_bind fun h' _ => ?_
  · refine (element_tracks minds .loop m).bind fun e => ?_
    cases e with
    | none => exact .pure
    | some e => exact .bind (.lift fun _ => union_tame ..) fun _ => .pure
  · dsimp only
    split
    · exact (report_tracks hsite ..).bind fun _ => .pure
    · exact .pure

end Iteration

section Operators

open Syntax (BinaryOp)

theorem containerResult_tame (op : BinaryOp) (left right : Ty) : Tame W h (containerResult? op left right) := by
  unfold containerResult?
  split
  · exact (union_tame ..).bind fun _ => .bind (newType_tame trivial) fun _ => .pure
  · exact .bind (newType_tame trivial) fun _ => .pure
  · exact .bind (newType_tame trivial) fun _ => .pure
  · exact (unionAll_tame _).bind fun _ => .bind (newType_tame trivial) fun _ => .pure
  · exact (union_tame ..).bind fun _ => (union_tame ..).bind fun _ => .bind (newType_tame trivial) fun _ => .pure
  · exact .pure

variable (minds : Minds env final ev ev')
include minds

theorem byMethod_tracks (op : BinaryOp) (left right : TypeId) :
    Tracks env final s (byMethod ev op left right) (byMethod ev' op left right) := by
  refine .theHeap_bind fun h _ => ?_
  split
  · split
    · exact .lift fun _ => union_tame ..
    · exact applyAll_tracks minds ..
  · exact .lift fun _ => union_tame ..

theorem binaryOne_tracks (op : BinaryOp) (left right : TypeId) :
    Tracks env final s (binaryOne ev op left right) (binaryOne ev' op left right) := by
  refine .theHeap_bind fun h _ => ?_
  dsimp only
  split
  · exact .pure
  · split
    · exact .pure
    · refine .bind (.lift fun _ => containerResult_tame ..) fun found => ?_
      cases found with
      | some t => exact .pure
      | none => exact byMethod_tracks minds op left right

theorem binaryResult_tracks (op : BinaryOp) (left right : TypeId) :
    Tracks env final s (binaryResult ev op left right) (binaryResult ev' op left right) := by
  refine .theHeap_bind fun h _ => ?_
  dsimp only
  split
  · exact .pure
  · split
    · exact merge_tracks _ _ fun p _ => binaryOne_tracks minds op p.1 p.2
    · exact binaryOne_tracks minds op left right

end Operators

section Subscripts

variable {report : ProblemKind → String → Analysis Unit} {apply apply' : FunctionId → TypeId → Analysis TypeId}
  (hreport : ∀ kind message, Tracks env final s (report kind message) (report kind message))
  (happly : ∀ f receiver, Tracks env final s (apply f receiver) (apply' f receiver))
include hreport happly

theorem subscriptByMethod_tracks (value : TypeId) :
    Tracks env final s (subscriptByMethod report apply value) (subscriptByMethod report apply' value) := by
  refine .theHeap_bind fun h _ => ?_
  dsimp only
  split
  · exact (hreport ..).bind fun _ => .pure
  · refine .bind (.lift fun _ => typeOfBindings_tame _) fun method => .theHeap_bind fun h' _ => ?_
    split
    · exact (hreport ..).bind fun _ => .pure
    · refine .foldlM _ fun acc f _ => (happly f value).bind fun _ => .lift fun _ => union_tame ..

theorem subscriptList_tracks (list element index : TypeId) :
    Tracks env final s (subscriptList report apply list element index)
      (subscriptList report apply' list element index) := by
  refine .theHeap_bind fun h _ => ?_
  split
  · exact .pure
  · split
    · exact .pure
    · exact subscriptByMethod_tracks hreport happly list

theorem subscriptOne_tracks (value index : TypeId) :
    Tracks env final s (subscriptOne report apply value index) (subscriptOne report apply' value index) := by
  refine .theHeap_bind fun h _ => ?_
  split
  · exact .pure
  · exact subscriptList_tracks hreport happly ..
  · refine .bind (.lift fun _ => unionAll_tame _) fun element => .bind (.lift fun _ => newType_tame trivial) fun list => ?_
    exact subscriptList_tracks hreport happly ..
  · split
    · exact .lift fun _ => listOf_tame _
    · exact .pure
  · exact .pure
  · split
    · split
      · exact .pure
      · exact (hreport ..).bind fun _ => .pure
    · exact subscriptByMethod_tracks hreport happly value

theorem subscript_tracks (value index : TypeId) :
    Tracks env final s (subscript report apply value index) (subscript report apply' value index) := by
  refine .theHeap_bind fun h _ => ?_
  split
  · refine .foldlM _ fun acc t _ => (subscriptOne_tracks hreport happly t index).bind fun _ => ?_
    exact .lift fun _ => union_tame ..
  · exact subscriptOne_tracks hreport happly value index

end Subscripts

end Concordance
