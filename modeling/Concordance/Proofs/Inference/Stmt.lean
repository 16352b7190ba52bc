import Concordance.Proofs.Inference.Expr
import Concordance.Proofs.Inference.Import

/-!
# Statements

The rules for patterns and statements agree for evaluators that fit. What a statement gives back is a type that says
how control may leave the statement; everything in the statement has been dealt with.
-/

namespace Concordance

open Syntax (Expr Stmt Pattern Ident Item Handler Case Context Flow ownItems frameItems Collector)

variable {env : Environment} {R : Regime env} {place : Place}

section Patterns

theorem bindOption_agrees (i : Option Ident) (hv : s.heap.IsValue value) :
    Agrees R n D s (bindOption place i value) (bindOption place i value) fun _ _ => True := by
  cases i with
  | none => exact .pure trivial
  | some i => exact bindName_agrees hv

theorem bindInner_agrees (fits : Fits R ev ev') (ps : List Pattern) (hn : Pattern.sizeOfList ps < n)
    (hd : Within D place.unit (frameItems.patterns ps)) :
    Agrees R n D s (bindInner ev place ps) (bindInner ev' place ps)
      fun _ s' => s'.Did place.unit (ownItems.patterns ps) := by
  rw [Collector.patterns_eq] at hd ⊢
  simp only [Session.Did.flatMap]
  refine .forM_did ps (fun _ _ _ hl => hl.did) fun p hp s' _ => .of_sound fun hs => ?_
  refine fits.pattern p hs.heap.isValue_unknown (Nat.lt_of_le_of_lt ?_ hn) (Within.flatMap.1 hd p hp)
  exact Pattern.sizeOfList_eq ps ▸ Syntax.le_sum_of_mem hp

theorem bindEntries_agrees (fits : Fits R ev ev') (es : List (Expr × Pattern)) (hn : Pattern.sizeOfEntries es < n)
    (hd : Within D place.unit (frameItems.entries es)) :
    Agrees R n D s (bindEntries ev place es) (bindEntries ev' place es)
      fun _ s' => s'.Did place.unit (ownItems.entries es) := by
  rw [Collector.entries_eq] at hd ⊢
  simp only [Session.Did.flatMap, Session.Did.append]
  refine .forM_did es (fun _ _ _ hl h => ⟨hl.did h.1, hl.did h.2⟩) fun e he s' _ => ?_
  have hsize : e.1.size + e.2.size < n :=
    Nat.lt_of_le_of_lt (Pattern.sizeOfEntries_eq es ▸ Syntax.le_sum_of_mem (f := fun e => e.1.size + e.2.size) he) hn
  obtain ⟨hkey, hpattern⟩ := Within.append.1 (Within.flatMap.1 hd e he)
  refine .bind (fits.discardExpr e.1 (by omega) hkey) fun _ s1 _ hdid => .of_sound fun hs1 => ?_
  exact (fits.pattern e.2 hs1.heap.isValue_unknown (by omega) hpattern).mono fun _ s2 hl h => ⟨hl.did hdid, h⟩

theorem bindCaptures_agrees (fits : Fits R ev ev') (p : Pattern)
    (hv : s.heap.IsValue subject) (hd : Within D place.unit (frameItems.pattern p)) :
    Agrees R p.size D s (bindCaptures ev place subject p) (bindCaptures ev' place subject p)
      fun _ s' => s'.Did place.unit (ownItems.pattern p) := by
  cases p with
  | value e => exact fits.discardExpr e (Nat.lt_succ_self _) hd
  | capture inner name =>
    -- An inner pattern is a row of one.
    have hinner : Agrees R (Pattern.capture inner name).size D s (bindInner ev place inner.toList)
        (bindInner ev' place inner.toList)
        fun _ s' => s'.Did place.unit (ownItems.pattern (.capture inner name)) := by
      cases inner with
      | none => exact .pure .nil
      | some p =>
        refine (bindInner_agrees fits [p] ?_ ?_).mono fun _ _ _ h => ?_
        · simp [Pattern.size, Pattern.sizeOfOption, Pattern.sizeOfList]
        · simpa [Collector.pattern, Collector.patternOption, Collector.patterns] using hd
        · simpa [Collector.pattern, Collector.patternOption, Collector.patterns] using h
    refine .bind hinner fun _ s1 hl1 hdid => ?_
    exact (bindOption_agrees name (hl1.isValue hv)).mono fun _ _ hl _ => hl.did hdid
  | star name =>
    cases name with
    | none => exact .pure .nil
    | some i =>
      refine .of_sound fun hs => .bind (.lift (newList_value hs.heap.isValue_unknown)) fun t s1 _ ht => ?_
      exact (bindName_agrees ht).mono fun _ _ _ _ => .nil
  | mapping es rest =>
    refine .bind (bindEntries_agrees fits es (Nat.lt_succ_self _) hd) fun _ s1 _ hdid => ?_
    cases rest with
    | none => exact .pure hdid
    | some i =>
      refine .of_sound fun hs1 => ?_
      refine .bind (.lift (newDict_value hs1.heap.isValue_unknown hs1.heap.isValue_unknown)) fun t s2 hl2 ht => ?_
      exact (bindName_agrees ht).mono fun _ _ hl _ => (hl2.trans hl).did hdid
  | classOf cls positional keyword =>
    simp only [Pattern.size, Collector.pattern, Within.append, Session.Did.append] at hd ⊢
    refine .bind (fits.discardExpr cls (by omega) hd.1) fun _ s1 _ hcls => ?_
    refine (bindInner_agrees fits (positional ++ keyword) ?_ ?_).mono fun _ s2 hl2 h => ⟨hl2.did hcls, ?_⟩
    · simp only [Pattern.sizeOfList_eq, List.map_append, List.sum_append]
      omega
    · simpa [Collector.patterns_eq] using hd.2
    · simpa [Collector.patterns_eq] using h
  | sequence ps => exact bindInner_agrees fits ps (Nat.lt_succ_self _) hd
  | alternatives ps =>
    rw [Collector.pattern, Collector.patterns_eq] at hd ⊢
    simp only [Session.Did.flatMap]
    refine .forM_did ps (fun _ _ _ hl => hl.did) fun p hp s' hl => ?_
    refine fits.pattern p (hl.isValue hv) (Nat.lt_succ_of_le ?_) (Within.flatMap.1 hd p hp)
    exact Pattern.sizeOfList_eq ps ▸ Syntax.le_sum_of_mem hp

end Patterns

section Blocks

theorem optionalBlock_agrees (fits : Fits R ev ev') (b : Option (List Stmt)) (hn : Stmt.sizeOfBlockOption b < n)
    (hd : Within D place.unit (frameItems.blockOption b)) :
    Agrees R n D s (optionalBlock ev place b) (optionalBlock ev' place b) fun t s' =>
      s'.heap.Leaves t ((Stmt.optionFlow b).getD .onward) ∧ s'.Did place.unit (ownItems.blockOption b) := by
  cases b with
  | none => exact .of_sound fun hs => .pure ⟨hs.heap.leaves_continues, .nil⟩
  | some b => exact block_agrees fits b hn hd

theorem meet_agrees (ht : s.heap.Leaves t a) (hu : s.heap.Leaves u b) :
    Agrees R n D s (onHeap (union t u)) (onHeap (union t u)) fun w s' => s'.heap.Leaves w (a.orElse b) :=
  (Agrees.lift (union_leaves ht hu)).mono fun _ _ _ h => h.1

theorem mergeBlock_agrees (fits : Fits R ev ev') (b : Option (List Stmt))
    (hs : s.heap.Leaves soFar a) (hn : Stmt.sizeOfBlockOption b < n)
    (hd : Within D place.unit (frameItems.blockOption b)) :
    Agrees R n D s (mergeBlock ev place soFar b) (mergeBlock ev' place soFar b) fun t s' =>
      s'.heap.Leaves t ((Stmt.optionFlow b).toList.foldl .orElse a) ∧ s'.Did place.unit (ownItems.blockOption b) := by
  cases b with
  | none => exact .pure ⟨hs, .nil⟩
  | some b =>
    refine .bind (block_agrees fits b hn hd) ?_
    rintro t s1 hl1 ⟨ht, hdid⟩
    exact (meet_agrees (hl1.types.leaves hs) ht).mono fun w s2 hl2 hw => ⟨hw, hl2.did hdid⟩

theorem loopType_agrees (fits : Fits R ev ev') (body : List Stmt) (orelse : Option (List Stmt))
    (hn : Stmt.sizeOfBlock body + Stmt.sizeOfBlockOption orelse < n)
    (hbody : Within D place.unit (frameItems.block body))
    (horelse : Within D place.unit (frameItems.blockOption orelse)) :
    Agrees R n D s (loopType ev place body orelse) (loopType ev' place body orelse) fun t s' =>
      s'.heap.Leaves t ((Stmt.optionFlow orelse).toList.foldl .orElse (Flow.onward.orElse (Stmt.blockFlow body))) ∧
        s'.Did place.unit (ownItems.block body) ∧ s'.Did place.unit (ownItems.blockOption orelse) := by
  refine .bind (block_agrees fits body (by omega) hbody) ?_
  rintro t s1 _ ⟨ht, hdid⟩
  refine .of_sound fun hs1 => ?_
  -- A loop may end without its body being entered.
  refine .bind (meet_agrees hs1.heap.leaves_continues ht) fun w s2 hl2 hw => ?_
  refine (mergeBlock_agrees fits orelse hw (by omega) horelse).mono ?_
  rintro u s3 hl3 ⟨hu, hdid'⟩
  exact ⟨hu, (hl2.trans hl3).did hdid, hdid'⟩

theorem declaredValue_agrees (fits : Fits R ev ev') (e : Option Expr) (hn : Expr.sizeOfOption e < n)
    (hd : Within D place.unit (frameItems.exprOption e)) :
    Agrees R n D s (declaredValue ev place e) (declaredValue ev' place e) fun t s' =>
      s'.heap.IsValue t ∧ s'.Did place.unit (ownItems.exprOption e) := by
  cases e with
  | none => exact .of_sound fun hs => .pure ⟨hs.heap.isValue_unknown, .nil⟩
  | some e => exact fits.expr e hn hd

end Blocks

section Handlers

theorem caughtMember_value {h : Heap} {fuel : Nat} {acc : TypeId} (m : TypeId) (hacc : h.IsValue acc)
    (ih : ∀ {h : Heap} {e : TypeId}, h.IsValue e → Does h (caughtObjects fuel e) fun u h' => h'.IsValue u) :
    Does h (do
      match (← get).ty m with
      | .tuple es =>
        let inner ← es.foldlM (fun acc e => do union acc (← caughtObjects fuel e)) .unknown
        union acc inner
      | .classObject c => union acc (← canonOf c)
      | _ => return acc) fun u h' => h'.IsValue u := by
  refine .of_sound fun hs => .get_bind ?_
  split
  · rename_i es hty
    have hes : h.Fits (.tuple es) := hty ▸ hs.types m
    refine .bind (.foldlM (I := fun u h => h.IsValue u) es (fun e hm acc h2 he2 hacc => ?_)
      hs.isValue_unknown) fun inner h2 he2 hinner => union_value (he2.isValue hacc) hinner
    exact (ih (he2.isValue (hes e hm))).bind fun u h3 he3 hu => union_value (he3.isValue hacc) hu
  · exact (canonOf_value _).bind fun u h2 he2 hu => union_value (he2.isValue hacc) hu
  · exact .pure hacc

theorem caughtObjects_value (fuel : Nat) : ∀ {h : Heap} {t : TypeId}, h.IsValue t →
    Does h (caughtObjects fuel t) fun u h' => h'.IsValue u := by
  induction fuel with
  | zero => exact fun _ => .of_sound fun hs => .pure hs.isValue_unknown
  | succ fuel ih =>
    intro h t ht
    refine .of_sound fun hs => .get_bind ?_
    exact .foldlM (I := fun u h => h.IsValue u) _ (fun m _ _ _ _ hacc => caughtMember_value m hacc ih)
      hs.isValue_unknown

theorem caughtType_agrees (fits : Fits R ev ev') (e : Option Expr) (hn : Expr.sizeOfOption e < n)
    (hd : Within D place.unit (frameItems.exprOption e)) :
    Agrees R n D s (caughtType ev place e) (caughtType ev' place e) fun t s' =>
      s'.heap.IsValue t ∧ s'.Did place.unit (ownItems.exprOption e) := by
  cases e with
  | none => exact .of_sound fun hs => .pure ⟨hs.heap.isValue_unknown, .nil⟩
  | some e =>
    refine .bind (fits.expr e hn hd) ?_
    rintro t s1 _ ⟨ht, hdid⟩
    refine .theHeap_bind ?_
    exact (Agrees.lift (caughtObjects_value _ ht)).mono fun u s2 hl2 hu => ⟨hu, hl2.did hdid⟩

def Syntax.Collector.goal {β : Type} (c : Collector β) : Option Expr → List β
  | none => []
  | some e => c.target e

theorem bindGoal_agrees (fits : Fits R ev ev') (target : Option Expr)
    (hv : s.heap.IsValue value) (hn : Expr.sizeOfOption target < n)
    (hd : Within D place.unit (frameItems.goal target)) :
    Agrees R n D s (bindGoal ev place value target) (bindGoal ev' place value target)
      fun _ s' => s'.Did place.unit (ownItems.goal target) := by
  cases target with
  | none => exact .pure .nil
  | some target => exact fits.bind target hv hn hd

theorem handlerType_agrees (fits : Fits R ev ev') (handler : Handler Stmt)
    (hn : Stmt.sizeOfHandlers [handler] < n) (hd : Within D place.unit (frameItems.handlers [handler])) :
    Agrees R n D s (handlerType ev place handler) (handlerType ev' place handler) fun t s' =>
      s'.heap.Leaves t (Stmt.blockFlow handler.body) ∧ s'.Did place.unit (ownItems.handlers [handler]) := by
  obtain ⟨caught, target, body⟩ := handler
  simp only [Stmt.sizeOfHandlers] at hn
  -- Collectors go through a handler in this order, with or without a target.
  have hparts : ∀ {β : Type} (c : Collector β), c.handlers [⟨caught, target, body⟩] =
      c.exprOption caught ++ (c.goal target ++ (c.block body ++ [])) := fun _ => by cases target <;> rfl
  rw [hparts, List.append_nil] at hd ⊢
  simp only [Within.append, Session.Did.append] at hd ⊢
  refine .bind (caughtType_agrees fits caught (by omega) hd.1) ?_
  rintro t s1 _ ⟨ht, hcaught⟩
  refine .bind (bindGoal_agrees fits target ht (by omega) hd.2.1) fun _ s2 hl2 htarget => ?_
  refine (block_agrees fits body (by omega) hd.2.2).mono ?_
  rintro u s3 hl3 ⟨hu, hbody⟩
  refine ⟨hu, ?_, ?_, hbody⟩
  · exact (hl2.trans hl3).did hcaught
  · exact hl3.did htarget

theorem tryType_agrees (fits : Fits R ev ev') (body : List Stmt) (handlers : List (Handler Stmt))
    (orelse final : Option (List Stmt)) (hn : (Stmt.tryBlock body handlers orelse final).size ≤ n)
    (hd : Within D place.unit (frameItems.stmt (.tryBlock body handlers orelse final))) :
    Agrees R n D s (tryType ev place body handlers orelse final) (tryType ev' place body handlers orelse final)
      fun t s' => s'.heap.Leaves t (Stmt.tryBlock body handlers orelse final).flow ∧
        s'.Did place.unit (ownItems.stmt (.tryBlock body handlers orelse final)) := by
  simp only [Stmt.size, Collector.stmt, Stmt.flow, Within.append, Session.Did.append, Stmt.foldl_handlerFlows] at hn hd ⊢
  obtain ⟨hbody, hhandlers, horelse, hfinal⟩ := hd
  rw [Collector.handlers_eq] at hhandlers ⊢
  refine .bind (block_agrees fits body (by omega) hbody) ?_
  rintro t s1 _ ⟨ht, hdid1⟩
  -- The handlers are merged one by one with what the body leaves.
  refine .bind (.foldlM_along (N := fun f h => f.orElse (Stmt.blockFlow h.body)) (I := fun f t s => s.heap.Leaves t f)
    (P := fun handler s => s.Did place.unit (ownItems.handlers [handler])) handlers
    (fun _ _ _ hl => hl.did) (fun handler hm f acc s2 _ hacc => ?_) ht) ?_
  · have hsize := Stmt.sizeOfHandlers_eq handlers ▸
      Syntax.le_sum_of_mem (f := fun h => Stmt.sizeOfHandlers [h]) hm
    refine .bind (handlerType_agrees fits handler (by omega) (Within.flatMap.1 hhandlers handler hm)) ?_
    rintro u s3 hl3 ⟨hu, hdid⟩
    exact (meet_agrees (hl3.types.leaves hacc) hu).mono fun w s4 hl4 hw => ⟨hw, hl4.did hdid⟩
  rintro t s2 hl2 ⟨ht, hdid2⟩
  have hdid2 := Session.Did.flatMap.2 hdid2
  refine .bind (mergeBlock_agrees fits orelse ht (by omega) horelse) ?_
  rintro t s3 hl3 ⟨ht, hdid3⟩
  cases final with
  | none => exact .pure ⟨by simpa [Stmt.optionFlow] using ht, (hl2.trans hl3).did hdid1, hl3.did hdid2, hdid3, .nil⟩
  | some last =>
    simp only [Stmt.sizeOfBlockOption] at hn
    refine .bind (block_agrees fits last (by omega) hfinal) ?_
    rintro f s4 hl4 ⟨hf, hdid4⟩
    refine .of_sound fun hs4 => ?_
    refine .theHeap_bind (.pure ⟨?_, ((hl2.trans hl3).trans hl4).did hdid1, (hl3.trans hl4).did hdid2, hl4.did hdid3, hdid4⟩)
    exact hs4.heap.leaves_final (hl4.types.leaves ht) hf

end Handlers

section Statements

theorem enteredOne_agrees (fits : Fits R ev ev') (hc : s.heap.IsValue context) :
    Agrees R n D s (enteredOne ev context) (enteredOne ev' context) fun t s' => s'.heap.IsValue t := by
  refine .theHeap_bind ?_
  split
  · refine .bind (callMethod_agrees fits "__enter__" hc) fun t s1 hl1 ht => .pure ?_
    cases t with
    | none => exact hl1.isValue hc
    | some t => exact ht t rfl
  · exact .pure hc

theorem enterContext_agrees (fits : Fits R ev ev') (c : Context)
    (hn : c.value.size + Expr.sizeOfOption c.target < n) (hd : Within D place.unit (frameItems.context c)) :
    Agrees R n D s (enterContext ev place c) (enterContext ev' place c)
      fun _ s' => s'.Did place.unit (ownItems.context c) := by
  obtain ⟨value, target⟩ := c
  dsimp only at hn
  simp only [Collector.context, Within.append, Session.Did.append] at hd ⊢
  refine .bind (fits.expr value (by omega) hd.1) ?_
  rintro t s1 _ ⟨ht, hdid⟩
  refine .of_sound fun hs1 => ?_
  cases target with
  | none => exact .pure ⟨hdid, .nil⟩
  | some target =>
    simp only [Expr.sizeOfOption] at hn
    refine .theHeap_bind (.bind (merge_agrees _ (fun m hm s2 hl2 => ?_) hs1.heap.isValue_unknown) ?_)
    · exact enteredOne_agrees fits (hl2.isValue (hs1.heap.isValue_of_mem_members ht hm))
    · intro entered s2 hl2 hentered
      exact (fits.bind target hentered (by omega) hd.2).mono fun _ s3 hl3 h => ⟨(hl2.trans hl3).did hdid, h⟩

theorem addCase_agrees (fits : Fits R ev ev') (c : Case Stmt)
    (hv : s.heap.IsValue subject) (hs : s.heap.Leaves soFar a) (hn : Stmt.sizeOfCases [c] < n)
    (hd : Within D place.unit (frameItems.cases [c])) :
    Agrees R n D s (addCase ev place subject soFar c) (addCase ev' place subject soFar c) fun t s' =>
      s'.heap.Leaves t (a.orElse (Stmt.blockFlow c.body)) ∧ s'.Did place.unit (ownItems.cases [c]) := by
  obtain ⟨p, guard, body⟩ := c
  simp only [Stmt.sizeOfCases, Collector.cases, Within.append, Session.Did.append] at hn hd ⊢
  refine .bind (fits.pattern p hv (by omega) hd.1) fun _ s1 hl1 hpattern => ?_
  refine .bind (fits.exprOption guard (by omega) hd.2.1) fun _ s2 hl2 hguard => ?_
  refine .bind (block_agrees fits body (by omega) hd.2.2.1) ?_
  rintro t s3 hl3 ⟨ht, hbody⟩
  refine (meet_agrees (((hl1.trans hl2).trans hl3).types.leaves hs) ht).mono fun w s4 hl4 hw => ⟨hw, ?_, ?_, ?_, .nil⟩
  · exact ((hl2.trans hl3).trans hl4).did hpattern
  · exact (hl3.trans hl4).did hguard
  · exact hl4.did hbody

theorem declareModuleName_agrees (i : Ident) :
    Agrees R n D s (declareModuleName place i) (declareModuleName place i) fun _ _ => True := by
  refine .bind (.lift (declareGlobal_does ..)) fun _ s1 _ _ => .of_sound fun hs1 => .theHeap_bind ?_
  split
  · exact .pure trivial
  · rename_i hbound
    exact (recordUse_agrees _ _ ((hs1.heap.scopes _).bound hbound)).mono fun _ _ _ _ => trivial

theorem bindAll_agrees (fits : Fits R ev ev') (targets : List Expr) (hv : s.heap.IsValue value) (hn : Expr.sizeOfList targets < n)
    (hd : Within D place.unit (targets.flatMap frameItems.target)) :
    Agrees R n D s (targets.forM fun target => ev.bind place target value kind source)
      (targets.forM fun target => ev'.bind place target value kind source)
      fun _ s' => s'.Did place.unit (targets.flatMap ownItems.target) := by
  simp only [Session.Did.flatMap]
  refine .forM_did targets (fun _ _ _ hl => hl.did) fun target hm s1 hl1 => ?_
  refine fits.bind target (hl1.isValue hv) (Nat.lt_of_le_of_lt ?_ hn) (Within.flatMap.1 hd target hm)
  exact Expr.sizeOfList_eq targets ▸ Syntax.le_sum_of_mem hm

theorem enterContexts_agrees (fits : Fits R ev ev') (contexts : List Context)
    (hn : Stmt.sizeOfContexts contexts < n) (hd : Within D place.unit (contexts.flatMap frameItems.context)) :
    Agrees R n D s (contexts.forM (enterContext ev place)) (contexts.forM (enterContext ev' place))
      fun _ s' => s'.Did place.unit (contexts.flatMap ownItems.context) := by
  simp only [Within.flatMap, Session.Did.flatMap] at hd ⊢
  refine .forM_did contexts (fun _ _ _ hl => hl.did) fun c hc s1 _ => ?_
  have := Stmt.sizeOfContexts_eq contexts ▸
    Syntax.le_sum_of_mem (f := fun c : Context => c.value.size + Expr.sizeOfOption c.target) hc
  exact enterContext_agrees fits c (by omega) (hd c hc)

theorem casesType_agrees (fits : Fits R ev ev') (cases : List (Case Stmt))
    (hsubject : s.heap.IsValue subject) (hn : Stmt.sizeOfCases cases < n)
    (hd : Within D place.unit (frameItems.cases cases)) :
    Agrees R n D s (cases.foldlM (addCase ev place subject) .continues)
      (cases.foldlM (addCase ev' place subject) .continues) fun t s' =>
        s'.heap.Leaves t ((Stmt.caseFlows cases).foldl .orElse .onward) ∧
          s'.Did place.unit (ownItems.cases cases) := by
  rw [Collector.cases_eq] at hd ⊢
  rw [Stmt.foldl_caseFlows]
  refine .of_sound fun hs => ?_
  -- The subject remains a value while the flow grows by that of each case.
  refine (Agrees.foldlM_along (N := fun f c => f.orElse (Stmt.blockFlow c.body))
    (I := fun f u s => s.heap.IsValue subject ∧ s.heap.Leaves u f)
    (P := fun c s => s.Did place.unit (ownItems.cases [c])) cases (fun _ _ _ hl => hl.did)
    (fun c hc f acc s1 _ hacc => ?_) ⟨hsubject, hs.heap.leaves_continues⟩).mono ?_
  · have := Stmt.sizeOfCases_eq cases ▸ Syntax.le_sum_of_mem (f := fun c => Stmt.sizeOfCases [c]) hc
    refine (addCase_agrees fits c hacc.1 hacc.2 (by omega) (Within.flatMap.1 hd c hc)).mono ?_
    exact fun u s2 hl2 h => ⟨⟨hl2.isValue hacc.1, h.1⟩, h.2⟩
  · rintro u s1 _ ⟨hu, hdid⟩
    exact ⟨hu.2, Session.Did.flatMap.2 hdid⟩

theorem goOn_agrees (hx : Agrees R n D s x y fun _ s' => s'.Did place.unit items) :
    Agrees R n D s (do x; return TypeId.continues) (do y; return TypeId.continues) fun t s' =>
      s'.heap.Leaves t .onward ∧ s'.Did place.unit items :=
  .bind hx fun _ _ _ hdid => .of_sound fun hs => .pure ⟨hs.heap.leaves_continues, hdid⟩

theorem stmtType_agrees (fits : Fits R ev ev') (st : Stmt) (fed : ¬ env.IsStarved)
    (hd : Within D place.unit (frameItems.stmt st)) :
    Agrees R st.size D s (stmtType ev place st) (stmtType ev' place st) fun t s' =>
      s'.heap.Leaves t st.flow ∧ s'.Did place.unit (ownItems.stmt st) := by
  cases st with
  | functionDef span node name params body decorators =>
    exact goOn_agrees (defineFunction_agrees fits (by simp only [Stmt.size]; omega) hd)
  | classDef span node name bases keywords body decorators =>
    exact goOn_agrees (defineClass_agrees fits (Nat.le_refl _) hd)
  | line parts => exact block_agrees fits parts (Nat.lt_succ_self _) hd
  | assign targets value =>
    simp only [Stmt.size, Collector.stmt, Within.append, Session.Did.append] at hd ⊢
    refine .bind (fits.expr value (by omega) hd.1) ?_
    rintro t s1 _ ⟨ht, hvalue⟩
    refine .bind (bindAll_agrees fits targets ht (by omega) hd.2) fun _ s2 hl2 htargets => .of_sound fun hs2 => ?_
    exact .pure ⟨hs2.heap.leaves_continues, hl2.did hvalue, htargets⟩
  | declare target hint value =>
    simp only [Stmt.size, Collector.stmt, Within.append, Session.Did.append] at hd ⊢
    refine .bind (fits.discardExpr hint (by omega) hd.1) fun _ s1 _ hhint => ?_
    refine .bind (declaredValue_agrees fits value (by omega) hd.2.1) ?_
    rintro t s2 hl2 ⟨ht, hvalue⟩
    refine .bind (fits.bind target ht (by omega) hd.2.2) fun _ s3 hl3 htarget => .of_sound fun hs3 => ?_
    exact .pure ⟨hs3.heap.leaves_continues, (hl2.trans hl3).did hhint, hl3.did hvalue, htarget⟩
  | augment target op value =>
    simp only [Stmt.size, Collector.stmt, Within.append, Session.Did.append] at hd ⊢
    refine .bind (fits.expr target (by omega) hd.1) ?_
    rintro before s1 _ ⟨hbefore, htarget⟩
    refine .bind (fits.expr value (by omega) hd.2) ?_
    rintro t s2 hl2 ⟨ht, hvalue⟩
    refine .bind (binaryResult_agrees fits op (hl2.isValue hbefore) ht) fun r s3 hl3 hr => ?_
    -- What a target uses has been met before, when the target was evaluated as an expression.
    have hgoal : Within D place.unit (frameItems.target target) :=
      fun x hx => hd.1 x (Collector.target_subset_expr frameItems target hx)
    refine .bind (fits.bind target hr (by omega) hgoal) fun _ s4 hl4 _ => .of_sound fun hs4 => ?_
    exact .pure ⟨hs4.heap.leaves_continues, ((hl2.trans hl3).trans hl4).did htarget, (hl3.trans hl4).did hvalue⟩
  | typeAlias name value =>
    refine .bind (fits.expr value (by simp only [Stmt.size]; omega) hd) ?_
    rintro t s1 _ ⟨ht, hdid⟩
    refine .bind (bindName_agrees ht) fun _ s2 hl2 _ => .of_sound fun hs2 => ?_
    exact .pure ⟨hs2.heap.leaves_continues, hl2.did hdid⟩
  | delete target => exact goOn_agrees (fits.discardExpr target (Nat.lt_succ_self _) hd)
  | importModules modules =>
    refine goOn_agrees ((Agrees.forM modules fun a _ s1 _ => ?_).mono fun _ _ _ _ => .nil)
    exact importModule_agrees fits fed a
  | importNames level source names =>
    refine .bind (loadModule_agrees fits fed _ none level) fun m s1 _ _ => ?_
    refine goOn_agrees ((Agrees.forM names fun a _ s2 _ => ?_).mono fun _ _ _ _ => .nil)
    exact importName_agrees fits fed level source m a
  | importAll level source =>
    refine .bind (loadModule_agrees fits fed _ none level) fun m s1 _ _ => .of_sound fun hs1 => ?_
    cases m with
    | none => exact .pure ⟨hs1.heap.leaves_continues, .nil⟩
    | some m => exact goOn_agrees ((Agrees.lift (importEverything_does m)).mono fun _ _ _ _ => .nil)
  | expr value => exact goOn_agrees (fits.discardExpr value (Nat.lt_succ_self _) hd)
  | giveBack value =>
    cases value with
    | none => exact .of_sound fun hs => .pure ⟨(hs.heap.isValue_singleton (by decide) (by decide)).leaves, .nil⟩
    | some e => exact (fits.expr e (Nat.lt_succ_self _) hd).mono fun t s1 _ h => ⟨h.1.leaves, h.2⟩
  | raise exception cause =>
    simp only [Stmt.size, Collector.stmt, Within.append, Session.Did.append] at hd ⊢
    refine .bind (fits.exprOption exception (by omega) hd.1) fun _ s1 _ hexception => ?_
    refine .bind (fits.exprOption cause (by omega) hd.2) fun _ s2 hl2 hcause => .of_sound fun hs2 => ?_
    exact .pure ⟨hs2.heap.leaves_unknown, hl2.did hexception, hcause⟩
  | assert test message =>
    simp only [Stmt.size, Collector.stmt, Within.append, Session.Did.append] at hd ⊢
    refine .bind (fits.discardExpr test (by omega) hd.1) fun _ s1 _ htest => ?_
    refine .bind (fits.exprOption message (by omega) hd.2) fun _ s2 hl2 hmessage => .of_sound fun hs2 => ?_
    exact .pure ⟨hs2.heap.leaves_continues, hl2.did htest, hmessage⟩
  | global names =>
    refine goOn_agrees ((Agrees.forM names fun i _ s1 _ => ?_).mono fun _ _ _ _ => .nil)
    exact declareModuleName_agrees i
  | nonlocal names =>
    refine goOn_agrees ((Agrees.forM names fun i _ s1 _ => ?_).mono fun _ _ _ _ => .nil)
    exact .lift (declareNonlocal_does ..)
  | pass | leaveLoop | nextRound => exact .of_sound fun hs => .pure ⟨hs.heap.leaves_continues, .nil⟩
  | branch test body orelse =>
    simp only [Stmt.size, Collector.stmt, Within.append, Session.Did.append] at hd ⊢
    refine .bind (fits.discardExpr test (by omega) hd.1) fun _ s1 _ htest => ?_
    refine .bind (block_agrees fits body (by omega) hd.2.1) ?_
    rintro t s2 hl2 ⟨ht, hbody⟩
    refine .bind (optionalBlock_agrees fits orelse (by omega) hd.2.2) ?_
    rintro u s3 hl3 ⟨hu, horelse⟩
    refine (meet_agrees (hl3.types.leaves ht) hu).mono fun w s4 hl4 hw => ⟨hw, ?_, ?_, hl4.did horelse⟩
    · exact ((hl2.trans hl3).trans hl4).did htest
    · exact (hl3.trans hl4).did hbody
  | whileLoop test body orelse =>
    simp only [Stmt.size, Collector.stmt, Within.append, Session.Did.append] at hd ⊢
    refine .bind (fits.discardExpr test (by omega) hd.1) fun _ s1 _ htest => ?_
    refine (loopType_agrees fits body orelse (by omega) hd.2.1 hd.2.2).mono ?_
    rintro t s2 hl2 ⟨ht, hdid⟩
    exact ⟨ht, hl2.did htest, hdid⟩
  | forLoop target iterable body orelse =>
    simp only [Stmt.size, Collector.stmt, Within.append, Session.Did.append] at hd ⊢
    refine .bind (fits.expr iterable (by omega) hd.1) ?_
    rintro t s1 _ ⟨ht, hiterable⟩
    refine .bind (itemsOf_agrees fits iterable ht) fun items s2 hl2 hitems => ?_
    refine .bind (fits.bind target hitems (by omega) hd.2.1) fun _ s3 hl3 htarget => ?_
    refine (loopType_agrees fits body orelse (by omega) hd.2.2.1 hd.2.2.2).mono ?_
    rintro t s4 hl4 ⟨ht, hdid⟩
    exact ⟨ht, ((hl2.trans hl3).trans hl4).did hiterable, hl4.did htarget, hdid⟩
  | tryBlock body handlers orelse final => exact tryType_agrees fits body handlers orelse final (Nat.le_refl _) hd
  | withBlock contexts body =>
    simp only [Stmt.size, Collector.stmt, Within.append, Session.Did.append] at hd ⊢
    refine .bind (enterContexts_agrees fits contexts (by omega) hd.1) fun _ s1 _ hcontexts => ?_
    refine (block_agrees fits body (by omega) hd.2).mono ?_
    rintro t s2 hl2 ⟨ht, hbody⟩
    exact ⟨ht, hl2.did hcontexts, hbody⟩
  | matchBlock subject cases =>
    simp only [Stmt.size, Collector.stmt, Within.append, Session.Did.append] at hd ⊢
    refine .bind (fits.expr subject (by omega) hd.1) ?_
    rintro t s1 _ ⟨ht, hsubject⟩
    refine (casesType_agrees fits cases ht (by omega) hd.2).mono ?_
    rintro u s2 hl2 ⟨hu, hcases⟩
    exact ⟨hu, hl2.did hsubject, hcases⟩
  | unmodelled parts => exact goOn_agrees (fits.exprs parts (Nat.lt_succ_self _) hd)

theorem perform_agrees (fits : Fits R ev ev') (task : Task α)
    (hd : Within D task.unit (task.collect frameItems)) (hpre : task.Pre env s) :
    Agrees R task.size D s (perform ev task) (perform ev' task) task.Post := by
  cases task with
  | expr place e => exact exprType_agrees fits e hd
  | stmt place st => exact stmtType_agrees fits st hpre hd
  | bind place target value kind source =>
    exact (bindTarget_agrees fits target hpre hd).mono fun _ _ _ hdid => ⟨trivial, hdid⟩
  | pattern place p subject => exact (bindCaptures_agrees fits p hpre hd).mono fun _ _ _ hdid => ⟨trivial, hdid⟩

end Statements

end Concordance
