import Concordance.Proofs.Session.Vetting
import Concordance.Proofs.Tracking.Expr
import Concordance.Proofs.Tracking.Loading

/-!
# Statements and tasks keep a session in order

The blocks of a statement stand where the statement stands.
-/

namespace Concordance

open Session (moduleTable)
open Syntax (Ident Part Pattern Piece Stmt)

variable {env : Environment} {final s : Session} {ev ev' : Evaluator} {place : Place}

section Names

theorem bindOption_tracks (hi : ∀ j ∈ i, s.Stands place (.expr (.name j))) (value : TypeId) :
    Tracks env final s (bindOption place i value) (bindOption place i value) := by
  cases i with
  | none => exact .pure
  | some i => exact bindName_tracks (hi i rfl) ..

theorem declareModuleName_tracks (hplace : place.scope ≠ moduleTable) (i : Ident) :
    Tracks env final s (declareModuleName place i) (declareModuleName place i) := by
  refine .bind (.lift fun _ => declareGlobal_tame hplace i.text) fun _ => .theHeap_bind fun h _ => ?_
  split
  · exact .pure
  · exact recordUse_tracks ..

theorem caughtObjects_tame (fuel : Nat) (t : TypeId) : Tame W h (caughtObjects fuel t) := by
  induction fuel generalizing h t with
  | zero => exact .pure
  | succ fuel ih =>
    refine .get_bind fun g _ _ => .foldlM _ fun acc m _ => .get_bind fun g' _ ha => ?_
    split
    · exact .bind (.foldlM _ fun acc' e _ => (ih e).bind fun _ => union_tame ..) fun _ => union_tame ..
    · rename_i c hc
      exact (canonOf_tame (ha.furnished.lt_of_class hc)).bind fun _ => union_tame ..
    · exact .pure

end Names

variable (minds : Minds env final ev ev')
include minds

section Blocks

theorem optionalBlock_tracks (hb : ∀ x ∈ b.getD [], s.Due place (.stmt x)) :
    Tracks env final s (optionalBlock ev place b) (optionalBlock ev' place b) := by
  cases b with
  | none => exact .pure
  | some b => exact block_tracks minds hb

theorem mergeBlock_tracks (hb : ∀ x ∈ b.getD [], s.Due place (.stmt x)) (soFar : TypeId) :
    Tracks env final s (mergeBlock ev place soFar b) (mergeBlock ev' place soFar b) := by
  cases b with
  | none => exact .pure
  | some b => exact (block_tracks minds hb).bind fun _ => .lift fun _ => union_tame ..

theorem loopType_tracks (hbody : ∀ x ∈ body, s.Due place (.stmt x))
    (horelse : ∀ x ∈ orelse.getD [], s.Due place (.stmt x)) :
    Tracks env final s (loopType ev place body orelse) (loopType ev' place body orelse) := by
  refine (block_tracks minds hbody).bind fun _ => .bind (.lift fun _ => union_tame ..) fun t => ?_
  exact mergeBlock_tracks minds horelse t

theorem caughtType_tracks (hc : ∀ e ∈ caught, s.Due place (.expr e)) :
    Tracks env final s (caughtType ev place caught) (caughtType ev' place caught) := by
  cases caught with
  | none => exact .pure
  | some e =>
    refine (minds.expr (hc e rfl)).bind fun t => .theHeap_bind fun h _ => ?_
    exact .lift fun _ => caughtObjects_tame ..

theorem handlerType_tracks (hvalues : ∀ e ∈ handler.caught.toList ++ handler.target.toList, s.Due place (.expr e))
    (hbody : ∀ x ∈ handler.body, s.Due place (.stmt x)) :
    Tracks env final s (handlerType ev place handler) (handlerType ev' place handler) := by
  obtain ⟨caught, target, body⟩ := handler
  simp only [List.mem_append, Option.mem_toList] at hvalues
  refine (caughtType_tracks minds fun e he => hvalues e (.inl he)).bind fun t => .bind ?_ fun _ => block_tracks minds hbody
  cases target with
  | none => exact .pure
  | some target => exact minds.bind (hvalues target (.inr rfl)) .none ..

omit minds in
theorem Session.Due.tryBlock (hp : s.Due place (.stmt (.tryBlock body handlers orelse last))) :
    (∀ x, x ∈ body ∨ x ∈ orelse.getD [] ∨ x ∈ last.getD [] → s.Due place (.stmt x)) ∧
      ∀ h ∈ handlers, (∀ e ∈ h.caught.toList ++ h.target.toList, s.Due place (.expr e)) ∧
        ∀ x ∈ h.body, s.Due place (.stmt x) := by
  have hhandler : ∀ h ∈ handlers, ∀ q,
      (none, q) ∈ Part.exprs (h.caught.toList ++ h.target.toList) ++ Part.block h.body → s.Due place q := by
    intro h hh q hq
    refine hp.part ?_
    simp only [Piece.parts, Stmt.parts, List.mem_append]
    exact .inl (.inl (.inr (List.mem_flatMap.2 ⟨h, hh, hq⟩)))
  refine ⟨fun x hx => hp.part ?_, fun h hh => ⟨fun e he => hhandler h hh _ ?_, fun x hx => hhandler h hh _ ?_⟩⟩
  · simp only [Piece.parts, Stmt.parts, List.mem_append, Part.mem_block]
    tauto
  · exact List.mem_append_left _ (Part.mem_exprs.2 he)
  · exact List.mem_append_right _ (Part.mem_block.2 hx)

theorem tryType_tracks (hp : s.Due place (.stmt (.tryBlock body handlers orelse last))) :
    Tracks env final s (tryType ev place body handlers orelse last) (tryType ev' place body handlers orelse last) := by
  obtain ⟨hblock, hhandler⟩ := hp.tryBlock
  refine (block_tracks minds fun x hx => hblock x (.inl hx)).bind fun t => .bind (merge_tracks handlers t ?_) fun t' => ?_
  · exact fun h hh => handlerType_tracks minds (hhandler h hh).1 (hhandler h hh).2
  -- The final block is evaluated last and may have the last word.
  refine (mergeBlock_tracks minds (fun x hx => hblock x (.inr (.inl hx))) t').bind fun t'' => ?_
  cases last with
  | none => exact .pure
  | some b => exact (block_tracks minds fun x hx => hblock x (.inr (.inr hx))).bind fun _ => .theHeap_bind fun _ _ => .pure

theorem enteredOne_tracks (context : TypeId) :
    Tracks env final s (enteredOne ev context) (enteredOne ev' context) := by
  refine .theHeap_bind fun h _ => ?_
  split
  · exact (callMethod_tracks minds ..).bind fun _ => .pure
  · exact .pure

theorem enterContext_tracks (hc : ∀ e ∈ c.value :: c.target.toList, s.Due place (.expr e))
    (hs : ∀ target ∈ c.target, s.Sources place target (some c.value)) :
    Tracks env final s (enterContext ev place c) (enterContext ev' place c) := by
  obtain ⟨value, target⟩ := c
  refine (minds.expr (hc value (.head _))).bind fun context => ?_
  cases target with
  | none => exact .pure
  | some target =>
    refine .theHeap_bind fun h _ => .bind (merge_tracks _ _ fun t _ => enteredOne_tracks minds t) fun entered => ?_
    exact minds.bind (hc target (by simp)) (hs target rfl) ..

theorem addCase_tracks
    (hc : ∀ q, (none, q) ∈ Part.patterns [c.pattern] ++ Part.exprs c.guard.toList ++ Part.block c.body → s.Due place q)
    (subject soFar : TypeId) :
    Tracks env final s (addCase ev place subject soFar c) (addCase ev' place subject soFar c) := by
  simp only [List.mem_append] at hc
  refine (minds.pattern (hc _ (.inl (.inl (.head _)))) _).bind fun _ => ?_
  refine (minds.exprOption fun e he => hc _ (.inl (.inr ?_))).bind fun _ => ?_
  · exact Part.mem_exprs.2 (Option.mem_toList.2 he)
  · refine (block_tracks minds fun x hx => hc _ (.inr (Part.mem_block.2 hx))).bind fun _ => ?_
    exact .lift fun _ => union_tame ..

end Blocks

theorem bindEntries_tracks (hp : s.Due place (.pattern (.mapping entries rest))) :
    Tracks env final s (bindEntries ev place entries) (bindEntries ev' place entries) := by
  refine .forM entries fun e he => ?_
  have hentry : ∀ q, (none, q) ∈ [((none : Option Syntax.Region), Piece.expr e.1), (none, .pattern e.2)] →
      s.Due place q := fun q hq => hp.part (List.mem_append_left _ (List.mem_flatMap.2 ⟨e, he, hq⟩))
  refine (minds.expr (hentry _ (.head _))).discard.bind fun _ => ?_
  exact minds.pattern (hentry _ (by simp)) _

theorem bindCaptures_tracks (hp : s.Due place (.pattern p)) (subject : TypeId) :
    Tracks env final s (bindCaptures ev place subject p) (bindCaptures ev' place subject p) := by
  have hinner : ∀ {ps : List Pattern}, (∀ q ∈ ps, s.Due place (.pattern q)) →
      Tracks env final s (bindInner ev place ps) (bindInner ev' place ps) :=
    fun hps => .forM _ fun q hq => minds.pattern (hps q hq) _
  cases p with
  | value e => exact (minds.expr (hp.part (.head _))).discard
  | capture inner name =>
    refine (hinner fun q hq => hp.part ?_).bind fun _ => bindOption_tracks (fun i hi => hp.stands.part ?_) _
    · exact List.mem_append_left _ (Part.mem_patterns.2 hq)
    · exact List.mem_append_right _ (List.mem_map.2 ⟨i, Option.mem_toList.2 hi, rfl⟩)
  | star name =>
    cases name with
    | none => exact .pure
    | some i =>
      exact .bind (.lift fun _ => newType_tame trivial) fun _ => bindName_tracks (hp.stands.part (.head _)) ..
  | mapping entries rest =>
    refine (bindEntries_tracks minds hp).bind fun _ => ?_
    cases rest with
    | none => exact .pure
    | some i =>
      refine .bind (.lift fun _ => newType_tame trivial) fun _ => bindName_tracks (hp.stands.part ?_) ..
      exact List.mem_append_right _ (.head _)
  | classOf cls positional keyword =>
    refine (minds.expr (hp.part (.head _))).discard.bind fun _ => hinner fun q hq => hp.part ?_
    exact List.mem_append_right _ (Part.mem_patterns.2 hq)
  | sequence patterns => exact hinner fun q hq => hp.part (Part.mem_patterns.2 hq)
  | alternatives patterns => exact .forM _ fun q hq => minds.pattern (hp.part (Part.mem_patterns.2 hq)) _

theorem stmtType_tracks (hplace : place.scope ≠ moduleTable) (hx : s.Due place (.stmt x)) :
    Tracks env final s (stmtType ev place x) (stmtType ev' place x) := by
  have hexpr : ∀ e, (none, .expr e) ∈ x.parts → s.Due place (.expr e) := fun e he => hx.part he
  have hstmt : ∀ y, (none, .stmt y) ∈ x.parts → s.Due place (.stmt y) := fun y hy => hx.part hy
  cases x with
  | functionDef span node name params body decorators =>
    exact (defineFunction_tracks minds hx).bind fun _ => .pure
  | classDef span node name bases keywords body decorators =>
    exact (defineClass_tracks minds hx).bind fun _ => .pure
  | line parts => exact block_tracks minds fun y hy => hstmt y (Part.mem_block.2 hy)
  | assign targets value =>
    simp only [Stmt.parts, Part.mem_exprs, List.mem_append] at hexpr
    refine (minds.expr (hexpr value (.inr (List.mem_singleton.2 rfl)))).bind fun t => ?_
    refine .bind (.forM _ fun target ht => minds.bind (hexpr target (.inl ht)) (.assigned hx.stands ?_) ..) fun _ => .pure
    exact List.mem_map.2 ⟨target, ht, rfl⟩
  | declare target hint value =>
    simp only [Stmt.parts, Part.mem_exprs] at hexpr
    refine (minds.expr (hexpr hint (by simp))).discard.bind fun _ => .bind ?_ fun t => ?_
    · cases value with
      | none => exact .pure
      | some e => exact minds.expr (hexpr e (by simp))
    · refine (minds.bind (hexpr target (by simp)) (fun v hv => ?_) ..).bind fun _ => .pure
      exact Session.Sources.assigned hx.stands (List.mem_map.2 ⟨v, Option.mem_toList.2 hv, rfl⟩) v rfl
  | augment target op value =>
    simp only [Stmt.parts, Part.mem_exprs] at hexpr
    refine (minds.expr (hexpr target (by simp))).bind fun before => (minds.expr (hexpr value (by simp))).bind fun t => ?_
    refine (binaryResult_tracks minds ..).bind fun result => ?_
    exact (minds.bind (hexpr target (by simp)) .none ..).bind fun _ => .pure
  | typeAlias name value =>
    refine (minds.expr (hexpr value (List.mem_append_right _ (.head _)))).bind fun t => ?_
    exact (bindName_tracks (hx.stands.part (List.mem_append_left _ (.head _))) ..).bind fun _ => .pure
  | delete target => exact (minds.expr (hexpr target (.head _))).discard.bind fun _ => .pure
  | importModules modules =>
    refine .bind (.forM _ fun a ha => importModule_tracks minds hx.stands (fun i hi => ?_) fun i hi => ?_) fun _ => .pure
    · exact List.mem_flatMap.2 ⟨a, ha, hi⟩
    · exact List.mem_flatMap.2 ⟨a, ha, Option.mem_toList.2 hi⟩
  | importNames level source names =>
    have hsource : ∀ i ∈ source, i ∈ (Stmt.importNames level source names).segments :=
      fun i hi => List.mem_append_left _ hi
    refine (loadModule_tracks minds (hx.stands.segment hsource) (by simp) (fun y hy => by cases hy) level).bind fun m => ?_
    refine .bind (.forM _ fun a ha => importName_tracks minds hx.stands hsource (fun i hi => ?_) (fun i hi => ?_) level m)
      fun _ => .pure
    · exact List.mem_append_right _ (List.mem_flatMap.2 ⟨a, ha, hi⟩)
    · exact List.mem_flatMap.2 ⟨a, ha, Option.mem_toList.2 hi⟩
  | importAll level source =>
    refine (loadModule_tracks minds (hx.stands.segment fun i hi => hi) (by simp) (fun y hy => by cases hy) level).bind
      fun m => ?_
    cases m with
    | none => exact .pure
    | some m => exact (importEverything_tracks hx.stands rfl m).bind fun _ => .pure
  | expr value => exact (minds.expr (hexpr value (.head _))).discard.bind fun _ => .pure
  | giveBack value =>
    cases value with
    | none => exact .pure
    | some value => exact minds.expr (hexpr value (.head _))
  | raise exception cause =>
    simp only [Stmt.parts, Part.mem_exprs, List.mem_append, Option.mem_toList] at hexpr
    refine (minds.exprOption fun e he => hexpr e (.inl he)).bind fun _ => ?_
    exact (minds.exprOption fun e he => hexpr e (.inr he)).bind fun _ => .pure
  | assert test message =>
    simp only [Stmt.parts, Part.mem_exprs, List.mem_cons, Option.mem_toList] at hexpr
    refine (minds.expr (hexpr test (.inl rfl))).discard.bind fun _ => ?_
    exact (minds.exprOption fun e he => hexpr e (.inr he)).bind fun _ => .pure
  | «global» names => exact .bind (.forM _ fun i _ => declareModuleName_tracks hplace i) fun _ => .pure
  | «nonlocal» names => exact .bind (.forM _ fun i _ => .lift fun _ => declareNonlocal_tame hplace _) fun _ => .pure
  | pass | leaveLoop | nextRound => exact .pure
  | branch test body orelse =>
    simp only [Stmt.parts, List.mem_append, Part.mem_exprs, Part.mem_block] at hexpr hstmt
    refine (minds.expr (hexpr test (by simp))).discard.bind fun _ => ?_
    refine (block_tracks minds fun y hy => hstmt y (.inl (.inr hy))).bind fun t => ?_
    refine (optionalBlock_tracks minds fun y hy => hstmt y (.inr hy)).bind fun _ => .lift fun _ => union_tame ..
  | whileLoop test body orelse =>
    simp only [Stmt.parts, List.mem_append, Part.mem_exprs, Part.mem_block] at hexpr hstmt
    refine (minds.expr (hexpr test (by simp))).discard.bind fun _ => ?_
    exact loopType_tracks minds (fun y hy => hstmt y (.inl (.inr hy))) fun y hy => hstmt y (.inr hy)
  | forLoop target iterable body orelse =>
    simp only [Stmt.parts, List.mem_append, Part.mem_exprs, Part.mem_block] at hexpr hstmt
    have hiterable : s.Due place (.expr iterable) := hexpr iterable (by simp)
    refine (minds.expr hiterable).bind fun t => (itemsOf_tracks minds hiterable t).bind fun item => ?_
    refine (minds.bind (hexpr target (by simp)) .none ..).bind fun _ => ?_
    exact loopType_tracks minds (fun y hy => hstmt y (.inl (.inr hy))) fun y hy => hstmt y (.inr hy)
  | tryBlock body handlers orelse last => exact tryType_tracks minds hx
  | withBlock contexts body =>
    simp only [Stmt.parts, List.mem_append, Part.mem_exprs, Part.mem_block] at hexpr hstmt
    refine .bind (.forM _ fun c hc => enterContext_tracks minds (fun e he => ?_) fun target ht => ?_) fun _ => ?_
    · exact hexpr e (.inl (List.mem_flatMap.2 ⟨c, hc, he⟩))
    · refine .assigned hx.stands (List.mem_flatMap.2 ⟨c, hc, ?_⟩)
      exact List.mem_map.2 ⟨target, Option.mem_toList.2 ht, rfl⟩
    · exact block_tracks minds fun y hy => hstmt y (.inr hy)
  | matchBlock subject cases =>
    refine (minds.expr (hexpr subject (.head _))).bind fun t => .foldlM _ fun acc c hc => ?_
    refine addCase_tracks minds (fun q hq => hx.part ?_) t acc
    exact List.mem_append_right _ (List.mem_flatMap.2 ⟨c, hc, hq⟩)
  | unmodelled parts => exact (minds.exprs fun e he => hexpr e (Part.mem_exprs.2 he)).bind fun _ => .pure

theorem perform_tracks (task : Task α) (ht : s.Due task.place task.piece) (hs : task.Sourced s) :
    Tracks env final s (perform ev task) (perform ev' task) := by
  -- Where the session is in order, nothing stands in the table of modules.
  refine .now fun s' hs' ho => ?_
  have hplace := ho.scope_ne (ht.later hs').stands
  cases task with
  | expr place e => exact exprType_tracks minds (ht.later hs')
  | stmt place x => exact stmtType_tracks minds hplace (ht.later hs')
  | bind place target value kind source =>
    exact bindTarget_tracks minds (ht.later hs') (Session.Sources.later hs hs'.toBefore) ..
  | pattern place p subject => exact bindCaptures_tracks minds (ht.later hs') subject

end Concordance
