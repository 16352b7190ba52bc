import Concordance.Proofs.Tracking.Definition

/-!
# Expressions keep a session in order

The parts of an expression stand where the expression stands, but for what is inside a comprehension: that stands in the
scope which is made for the comprehension when it is met for the first time.
-/

namespace Concordance

open Syntax (Arg Clause DictItem Element Expr Ident Index Part)

variable {s : Session}

theorem nameType_tracks (hi : s.Stands place (.expr (.name i))) (kind : RefKind) :
    Tracks env final s (nameType place kind i) (nameType place kind i) := by
  unfold nameType
  split
  · exact .pure
  · refine .theHeap_bind fun h _ => ?_
    split
    · exact (countLookup_tracks _).bind fun _ => (report_tracks (fun l hl => hi.contains hl) ..).bind fun _ => .pure
    · refine (countLookup_tracks _).bind fun _ => (recordUse_tracks ..).bind fun _ => ?_
      exact .lift fun _ => typeOfBindings_tame _

theorem addYield_tracks (t : TypeId) : Tracks env final s (addYield t) (addYield t) := by
  refine .get_bind fun s' _ _ => ?_
  split
  · exact .pure
  · refine .theHeap_bind fun h _ => .bind (.lift fun _ => union_tame ..) fun yields => ?_
    exact .lift fun _ => modifyFunction_tame (fun _ => ⟨rfl, rfl⟩) fun _ => rfl

theorem addEntriesOf_tame (dict member : TypeId) : Tame W h (addEntriesOf dict member) := by
  refine .get_bind fun g _ _ => ?_
  split
  · exact addEntry_tame ..
  · exact .pure

section Comprehensions

/-- The session in which a scope is known as that of a comprehension. -/
def Session.addComprehension (s : Session) (r : NodeRef) (scope : ScopeId) : Session :=
  { s with definitions.comprehensions := s.definitions.comprehensions.insert r scope }

theorem Session.Ordered.addComprehension (ho : s.Ordered)
    (hnew : s.definitions.comprehensions.get? r = none) (hm : s.MadeFor r scope) :
    s.Onward (s.addComprehension r scope) ∧ (s.addComprehension r scope).Ordered := by
  refine ho.learn rfl rfl rfl rfl rfl (fun _ _ h => h) (fun _ _ h => Table.get?_insert_of_new hnew h) (fun _ _ h => .inl h)
    fun r' x hx => ?_
  rcases Table.get?_insert_cases hx with ⟨rfl, rfl⟩ | hold
  · exact .inr hm
  · exact .inl hold

theorem comprehensionScope_bind {f g : ScopeId → Analysis α} (hp : s.Due place p) (hnode : node ∈ p.numbers)
    (hf : ∀ scope s', s.Leads s' → s'.Hosts place.unit.number (.comprehension node) scope →
      Tracks env final s' (f scope) (g scope)) :
    Tracks env final s (comprehensionScope place node >>= f) (comprehensionScope place node >>= g) := by
  refine ⟨fun s1 hs1 ho => ?_⟩
  rw [runOn_bind, runOn_bind]
  cases hknown : s1.definitions.comprehensions.get? ⟨place.unit.number, node⟩ with
  | some scope =>
    have hrun : (comprehensionScope place node).runOn env s1 = (.ok scope, s1) := by
      unfold comprehensionScope
      rw [runOn_get_bind, hknown]
      rfl
    rw [hrun]
    exact (hf scope s1 hs1 hknown).run s1 (.refl s1) ho
  | none =>
    let scope : Scope := { kind := .function, path := (s1.heap.scope place.scope).path, parent := some place.scope }
    let made := s1.withHeap { s1.heap with scopes := s1.heap.scopes.push scope }
    have hrun : (comprehensionScope place node).runOn env s1 =
        (.ok ⟨s1.heap.scopes.size⟩, made.addComprehension ⟨place.unit.number, node⟩ ⟨s1.heap.scopes.size⟩) := by
      unfold comprehensionScope
      rw [runOn_get_bind, hknown]
      rfl
    rw [hrun]
    -- First there is a scope, which nothing refers to; then the comprehension is known by it.
    have hal : s1.Alike made := .withHeap ..
    obtain ⟨hsteady, hapart⟩ := ho.apart.addInner (W := Heap.Nowhere) scope
      (ho.mayEnclose (hp.later hs1).stands) rfl (.inl rfl) rfl rfl
    have hon := ho.onward hal hsteady
    have ho1 := ho.steady hal hsteady hapart
    have hp1 := (hp.later (hs1.trans hon.leads)).stands
    have hparent : (made.heap.scope ⟨s1.heap.scopes.size⟩).parent = some place.scope :=
      congrArg Scope.parent ((Heap.scope_push _).trans (if_pos rfl))
    obtain ⟨hon', ho'⟩ := ho1.addComprehension hknown
      ⟨(ho1.stands_belongs hp1).inner hparent, place, p, hp1, rfl, hnode, hparent⟩
    have hstep := hon.trans hon'
    obtain ⟨hon2, ho2, heq⟩ := (hf _ _ (hs1.trans hstep.leads) (Table.get?_insert_self ..)).run _ (.refl _) ho'
    exact ⟨hstep.trans hon2, ho2, heq⟩

end Comprehensions

section Parts

variable (minds : Minds env final ev ev')
include minds

theorem methodValue_tracks (value owner : TypeId) (hf : f.index < s.heap.functions.size) :
    Tracks env final s (methodValue ev value owner f) (methodValue ev' value owner f) := by
  have hbind : ∀ r, Tracks env final s (onHeap (bindReceiver f r)) (onHeap (bindReceiver f r)) :=
    fun r => .lift_later fun s' hs' => newType_tame (Nat.lt_of_lt_of_le hf hs'.firm.functions_le)
  refine .theHeap_bind fun h _ => ?_
  dsimp only
  split
  · exact .pure
  · split
    · split
      · exact hbind _
      · exact .pure
    · split
      · split
        · exact apply_tracks minds ..
        · exact hbind _
      · exact .pure

theorem attributeValue_tracks (owner value : TypeId) :
    Tracks env final s (attributeValue ev owner value) (attributeValue ev' owner value) := by
  refine .theHeap_get fun s' _ ho => ?_
  split
  · rename_i f r hty
    have hf := ho.apart.furnished.types value
    rw [hty] at hf
    exact methodValue_tracks minds value owner hf
  · exact .pure

theorem addOwner_tracks (site : Site) (kind : RefKind) (soFar owner : TypeId) :
    Tracks env final s (addOwner ev site kind soFar owner) (addOwner ev' site kind soFar owner) := by
  refine .theHeap_bind fun h _ => ?_
  split
  · exact .pure
  · refine (recordUse_tracks ..).bind fun _ => .foldlM _ fun acc b _ => .theHeap_bind fun h' _ => ?_
    exact merge_tracks _ _ fun t _ => attributeValue_tracks minds owner t

theorem attributeType_tracks (hv : s.Due place (.expr value)) (kind : RefKind) (i : Ident) :
    Tracks env final s (attributeType ev place kind value i) (attributeType ev' place kind value i) := by
  refine (minds.expr hv).bind fun owner => .theHeap_bind fun h _ => ?_
  exact .foldlM _ fun acc m _ => addOwner_tracks minds ..

theorem subscriptType_tracks (he : s.Due place (.expr (.subscript span value index))) :
    Tracks env final s (subscriptType ev place span value index) (subscriptType ev' place span value index) := by
  have hv : s.Due place (.expr value) := he.part (.head _)
  have hi : ∀ e ∈ index.flatMap Index.values, s.Due place (.expr e) :=
    fun e hmem => he.part (Part.mem_exprs.2 (.tail _ hmem))
  refine (minds.expr hv).bind fun owner => (indexType_tracks minds hi).bind fun key => .theHeap_bind fun h _ => ?_
  dsimp only
  split
  · exact .pure
  · refine subscript_tracks (fun _ _ => report_tracks (fun l hl => he.stands.contains hl) ..) (fun f receiver => ?_) owner key
    exact apply_tracks minds ..

theorem addArgument_tracks (ha : s.Due place (.expr a.value)) (args : CallArgs) :
    Tracks env final s (addArgument ev place args a) (addArgument ev' place args a) := by
  refine (minds.expr ha).bind fun t => ?_
  cases a <;> exact .pure

theorem callType_tracks (hp : ∀ q, (none, q) ∈ Part.exprs (callee :: args.map Arg.value) → s.Due place q) :
    Tracks env final s (callType ev place callee args) (callType ev' place callee args) := by
  have hcallee : s.Due place (.expr callee) := hp _ (.head _)
  refine .bind ?_ fun function => .bind (.foldlM args fun acc a ha => addArgument_tracks minds (hp _ ?_) acc)
    fun _ => call_tracks minds ..
  · unfold calleeType
    split
    · exact nameType_tracks hcallee.stands ..
    · exact attributeType_tracks minds (hcallee.part (.head _)) ..
    · exact minds.expr hcallee
  · rw [Part.mem_exprs]
    exact .tail _ (List.mem_map.2 ⟨a, ha, rfl⟩)

theorem itemsOf_tracks (he : s.Due place (.expr e)) (value : TypeId) :
    Tracks env final s (itemsOf ev place e value) (itemsOf ev' place e value) :=
  iterated_tracks minds value fun _ hl => he.stands.contains hl

section Displays

variable {elements : List (Element Expr)} (hes : ∀ e ∈ elements, s.Due place (.expr e.value))
include hes

theorem listDisplay_tracks : Tracks env final s (listDisplay ev place elements) (listDisplay ev' place elements) := by
  refine .bind (.lift fun _ => newType_tame trivial) fun list => .bind (.forM elements fun e he => ?_) fun _ => .pure
  refine (minds.expr (hes e he)).bind fun t => ?_
  split
  · exact (itemsOf_tracks minds (hes e he) t).bind fun _ => .lift fun _ => widenList_tame ..
  · exact .lift fun _ => addElement_tame ..

theorem setDisplay_tracks : Tracks env final s (setDisplay ev place elements) (setDisplay ev' place elements) := by
  refine .bind (.lift fun _ => newType_tame trivial) fun list => .bind (.forM elements fun e he => ?_) fun _ => .pure
  refine (minds.expr (hes e he)).bind fun t => ?_
  split
  · exact (itemsOf_tracks minds (hes e he) t).bind fun _ => .lift fun _ => widenList_tame ..
  · exact .lift fun _ => widenList_tame ..

theorem tupleDisplay_tracks : Tracks env final s (tupleDisplay ev place elements) (tupleDisplay ev' place elements) := by
  refine .bind (.foldlM elements fun soFar e he => ?_) fun x => ?_
  · refine (minds.expr (hes e he)).bind fun t => ?_
    split
    · exact .pure
    · refine .theHeap_bind fun h _ => ?_
      split
      · exact .pure
      · exact (itemsOf_tracks minds (hes e he) t).bind fun _ => .pure
  · dsimp only
    split
    · exact .lift fun _ => newType_tame trivial
    · exact .bind (.lift fun _ => unionAll_tame _) fun _ => .lift fun _ => newType_tame trivial

end Displays

theorem dictDisplay_tracks (hi : ∀ e ∈ items.flatMap DictItem.values, s.Due place (.expr e)) :
    Tracks env final s (dictDisplay ev place items) (dictDisplay ev' place items) := by
  refine .bind (.lift fun _ => newType_tame trivial) fun dict => .bind (.forM items fun x hx => ?_) fun _ => .pure
  have hvalues : ∀ e ∈ x.values, s.Due place (.expr e) := fun e he => hi e (List.mem_flatMap.2 ⟨x, hx, he⟩)
  cases x with
  | entry key value =>
    refine (minds.expr (hvalues key (.head _))).bind fun k => ?_
    refine (minds.expr (hvalues value (by simp [DictItem.values]))).bind fun v => .lift fun _ => addEntry_tame ..
  | spread value =>
    refine (minds.expr (hvalues value (.head _))).bind fun t => .theHeap_bind fun h _ => ?_
    exact .forM _ fun m _ => .lift fun _ => addEntriesOf_tame ..

theorem evaluateClauses_tracks {inner : Place} (clauses : List (Clause Expr))
    (hinner : ∀ c ∈ clauses, s.Due inner (.expr c.target) ∧ ∀ e ∈ c.conditions, s.Due inner (.expr e))
    (hfirst : ∀ c ∈ clauses.head?, s.Due outer (.expr c.iterable))
    (hrest : ∀ c ∈ clauses.tail, s.Due inner (.expr c.iterable)) :
    Tracks env final s (evaluateClauses ev outer inner clauses) (evaluateClauses ev' outer inner clauses) := by
  induction clauses generalizing outer with
  | nil => exact .pure
  | cons c rest ih =>
    obtain ⟨htarget, hconditions⟩ := hinner c (.head _)
    refine (minds.expr (hfirst c rfl)).bind fun t => (itemsOf_tracks minds (hfirst c rfl) t).bind fun item => ?_
    refine (minds.bind htarget .none ..).bind fun _ => (minds.exprs hconditions).bind fun _ => ?_
    -- From the second clause on, what a clause goes through stands inside as well.
    refine ih (fun c' hc' => hinner c' (.tail _ hc')) (fun c' hc' => ?_) fun c' hc' => ?_
    · exact hrest c' (List.mem_of_mem_head? hc')
    · exact hrest c' (List.mem_of_mem_tail hc')

theorem enterComprehension_bind {f g : Place → Analysis α} (hp : s.Due place p) (hnode : node ∈ p.numbers)
    (hclauses : ∀ x ∈ Part.ofClauses node clauses, x ∈ p.parts)
    (hf : ∀ scope s', s.Leads s' → s'.Hosts place.unit.number (.comprehension node) scope →
      Tracks env final s' (f ⟨place.unit, scope⟩) (g ⟨place.unit, scope⟩)) :
    Tracks env final s (enterComprehension ev place node clauses >>= f)
      (enterComprehension ev' place node clauses >>= g) := by
  simp only [enterComprehension, bind_assoc, pure_bind]
  refine comprehensionScope_bind hp hnode fun scope s' hs' hhost => .bind ?_ fun _ => hf scope s' hs' hhost
  have hp' := hp.later hs'
  have hinside : ∀ q, (some (.comprehension node), q) ∈ Part.ofClauses node clauses → s'.Due ⟨place.unit, scope⟩ q :=
    fun q hq => hp'.inside (.comprehension node) (hclauses _ hq) hhost
  cases clauses with
  | nil => exact .pure
  | cons c rest =>
    refine evaluateClauses_tracks minds (c :: rest) (fun c' hc' => ?_) (fun c' hc' => ?_) fun c' hc' => ?_
    · refine ⟨hinside _ ?_, fun e he => hinside _ ?_⟩
      · rcases List.mem_cons.1 hc' with rfl | hc'
        · exact List.mem_append_left _ (.head _)
        · exact List.mem_append_right _ (List.mem_flatMap.2 ⟨c', hc', .head _⟩)
      · have hcondition : ∀ outer, (some (.comprehension node), .expr e) ∈ Part.ofClause node outer c' := fun outer =>
          .tail _ (.tail _ (List.mem_map.2 ⟨e, he, rfl⟩))
        rcases List.mem_cons.1 hc' with rfl | hc'
        · exact List.mem_append_left _ (hcondition none)
        · exact List.mem_append_right _ (List.mem_flatMap.2 ⟨c', hc', hcondition _⟩)
    · cases hc'
      exact hp'.part (hclauses _ (List.mem_append_left _ (.tail _ (.head _))))
    · refine hinside _ (List.mem_append_right _ (List.mem_flatMap.2 ⟨c', hc', ?_⟩))
      exact .tail _ (.head _)

theorem exprType_tracks (he : s.Due place (.expr e)) :
    Tracks env final s (exprType ev place e) (exprType ev' place e) := by
  have hpart : ∀ x, (none, .expr x) ∈ e.parts → s.Due place (.expr x) := fun x hx => he.part hx
  cases e with
  | name i => exact nameType_tracks he.stands ..
  | attr span value i => exact attributeType_tracks minds (hpart value (.head _)) ..
  | subscript span value index => exact subscriptType_tracks minds he
  | call span callee args => exact callType_tracks minds fun q hq => he.part hq
  | integer | float | imaginary | ellipsis => exact .pure
  | string span bytes => exact .pure
  | concatenated span left right =>
    simp only [Expr.parts, Part.mem_exprs] at hpart
    exact (minds.expr (hpart right (by simp))).discard.bind fun _ => minds.expr (hpart left (by simp))
  | formatted span parts =>
    simp only [Expr.parts, Part.mem_exprs] at hpart
    exact (minds.exprs hpart).bind fun _ => .pure
  | list span elements =>
    simp only [Expr.parts, Part.mem_exprs, List.forall_mem_map] at hpart
    exact listDisplay_tracks minds hpart
  | set span elements =>
    simp only [Expr.parts, Part.mem_exprs, List.forall_mem_map] at hpart
    exact setDisplay_tracks minds hpart
  | tuple span elements =>
    simp only [Expr.parts, Part.mem_exprs, List.forall_mem_map] at hpart
    exact tupleDisplay_tracks minds hpart
  | dict span items =>
    simp only [Expr.parts, Part.mem_exprs] at hpart
    exact dictDisplay_tracks minds hpart
  | comprehension span node element clauses =>
    refine enterComprehension_bind minds he (List.mem_singleton.2 rfl) (fun x hx => .tail _ hx)
      fun scope s' hs' hhost => ?_
    -- The element stands in the scope that was found or made for the comprehension.
    have helement := (he.later hs').inside (.comprehension node) (.head _) hhost
    exact (minds.expr helement).bind fun _ => .lift fun _ => newType_tame trivial
  | dictComprehension span node key value clauses =>
    refine enterComprehension_bind minds he (List.mem_singleton.2 rfl)
      (fun x hx => .tail _ (.tail _ hx)) fun scope s' hs' hhost => ?_
    have hkey := (he.later hs').inside (.comprehension node) (.head _) hhost
    have hvalue := (he.later hs').inside (.comprehension node) (.tail _ (.head _)) hhost
    exact (minds.expr hkey).bind fun _ => (minds.expr hvalue).bind fun _ => .lift fun _ => newType_tame trivial
  | lambda span node params body => exact lambdaType_tracks minds he
  | binary span op left right =>
    simp only [Expr.parts, Part.mem_exprs] at hpart
    refine (minds.expr (hpart left (by simp))).bind fun l => (minds.expr (hpart right (by simp))).bind fun r => ?_
    exact binaryResult_tracks minds ..
  | boolean span left right =>
    simp only [Expr.parts, Part.mem_exprs] at hpart
    refine (minds.expr (hpart left (by simp))).bind fun l => (minds.expr (hpart right (by simp))).bind fun r => ?_
    exact .lift fun _ => union_tame ..
  | unary span op operand =>
    exact (minds.expr (hpart operand (.head _))).bind fun _ => .theHeap_bind fun _ _ => .pure
  | comparison span first others =>
    simp only [Expr.parts, Part.mem_exprs] at hpart
    exact (minds.exprs hpart).bind fun _ => .pure
  | conditional span test body orelse =>
    simp only [Expr.parts, Part.mem_exprs] at hpart
    refine (minds.expr (hpart test (by simp))).discard.bind fun _ => (minds.expr (hpart body (by simp))).bind fun t => ?_
    exact (minds.expr (hpart orelse (by simp))).bind fun _ => .lift fun _ => union_tame ..
  | assignment span target value =>
    simp only [Expr.parts, Part.mem_exprs] at hpart
    refine (minds.expr (hpart value (by simp))).bind fun t => ?_
    exact (minds.bind (hpart target (by simp)) .none ..).bind fun _ => .pure
  | yield span value =>
    simp only [Expr.parts, Part.mem_exprs, Option.mem_toList] at hpart
    have hyield : ∀ t, Tracks env final s (do addYield t; return TypeId.unknown) (do addYield t; return .unknown) :=
      fun t => (addYield_tracks t).bind fun _ => .pure
    cases value with
    | none => exact .bind .pure hyield
    | some x => exact (minds.expr (hpart x rfl)).bind hyield
  | yieldFrom span source =>
    have hsource := hpart source (.head _)
    refine (minds.expr hsource).bind fun t => (itemsOf_tracks minds hsource t).bind fun item => ?_
    exact (addYield_tracks item).bind fun _ => .pure
  | await span operand => exact minds.expr (hpart operand (.head _))
  | starred span value => exact (minds.expr (hpart value (.head _))).discard.bind fun _ => .pure
  | unmodelled span parts =>
    simp only [Expr.parts, Part.mem_exprs] at hpart
    exact (minds.exprs hpart).bind fun _ => .pure

end Parts

end Concordance
