import Concordance.Proofs.Inference.Definition

/-!
# Expressions

Evaluating an expression gives the type of a value and deals with everything that the expression uses or defines:
one lemma for each kind of expression, put together in `exprType_agrees`.
-/

namespace Concordance

open Syntax (Expr Ident Span Arg Element DictItem Index Clause Item ownItems frameItems Collector)

variable {env : Environment} {s : Session} {place : Place}

section Names

theorem Scope.bound_ne_nil {scope : Scope} (hb : scope.bound? name = some bs) : bs ≠ [] := by
  unfold Scope.bound? at hb
  split at hb
  · cases hb
    exact List.cons_ne_nil _ _
  · cases hb

theorem Heap.lookup_ne_nil {h : Heap} {scope : ScopeId} (hb : h.lookup scope name = some bs) : bs ≠ [] := by
  obtain ⟨_, hbound⟩ := Heap.bound_of_lookup hb
  exact Scope.bound_ne_nil hbound

theorem nameType_agrees (kind : RefKind) (i : Ident) :
    Agrees R n D s (nameType place kind i) (nameType place kind i) fun t s' =>
      s'.heap.IsValue t ∧ s'.Did place.unit [.use i] := by
  refine .of_sound fun hs => ?_
  have hone : ∀ {s' : Session}, s'.Happened place.unit (.use i) → s'.Did place.unit [.use i] :=
    fun hi x hx => List.mem_singleton.1 hx ▸ hi
  unfold nameType
  split
  · rename_i t ht
    refine .pure ⟨?_, hone (.inl (by simp [ht]))⟩
    unfold constantType? at ht
    split at ht
    · cases ht
      exact hs.heap.isValue_singleton (by decide) (by decide)
    · split at ht
      · cases ht
        exact hs.heap.isValue_singleton (by decide) (by decide)
      · cases ht
  · refine .theHeap_bind ?_
    split
    · refine .bind (countLookup_agrees false) fun _ s1 _ _ => ?_
      refine .bind (report_agrees ..) fun _ s2 _ hreported => .of_sound fun hs2 => ?_
      exact .pure ⟨hs2.heap.isValue_unknown, hone (.inr fun l hl => .inr (hreported rfl l hl))⟩
    · rename_i bindings hbindings
      refine .bind (countLookup_agrees true) fun _ s1 hl1 _ => ?_
      -- The bindings found exist, so the use can be linked to them.
      have hexist := fun b hb => hl1.hasBinding (hs.heap.lookup hbindings b hb)
      refine .bind (recordUse_agrees _ _ hexist) fun _ s2 _ hrecorded => ?_
      refine (Agrees.lift (typeOfBindings_value bindings)).mono fun t s3 hl3 ht => ⟨ht, hone (.inr fun l hl => .inl ?_)⟩
      exact hl3.recorded (hrecorded (Heap.lookup_ne_nil hbindings) l hl)

end Names

section Attributes

theorem Heap.IsSound.classReceiver {h : Heap} (hs : h.IsSound) (ho : h.IsValue owner) :
    ∀ t ∈ h.classReceiver owner, h.IsValue t := by
  unfold Heap.classReceiver
  split
  · rename_i c _ _
    simpa using (hs.classes c).type
  · simpa using ho
  · simp

theorem methodValue_agrees (fits : Fits R ev ev') (f : FunctionId)
    (hv : s.heap.IsValue value) (ho : s.heap.IsValue owner) :
    Agrees R n D s (methodValue ev value owner f) (methodValue ev' value owner f) fun t s' => s'.heap.IsValue t := by
  refine .of_sound fun hs => .theHeap_bind ?_
  dsimp only
  split
  · exact .pure hv
  · split
    · split
      · rename_i receiver hreceiver
        exact .lift (bindReceiver_value (hs.heap.classReceiver ho receiver hreceiver))
      · exact .pure hv
    · split
      · split
        · exact applyTo_agrees fits f ho .empty
        · exact .lift (bindReceiver_value ho)
      · exact .pure hv

theorem attributeValue_agrees (fits : Fits R ev ev') (ho : s.heap.IsValue owner) (hv : s.heap.IsValue value) :
    Agrees R n D s (attributeValue ev owner value) (attributeValue ev' owner value) fun t s' => s'.heap.IsValue t := by
  refine .theHeap_bind ?_
  split
  · exact methodValue_agrees fits _ hv ho
  · exact .pure hv

theorem addOwner_agrees (fits : Fits R ev ev') (site : Site) (kind : RefKind)
    (hs : s.heap.IsValue soFar) (ho : s.heap.IsValue owner) :
    Agrees R n D s (addOwner ev site kind soFar owner) (addOwner ev' site kind soFar owner)
      fun t s' => s'.heap.IsValue t := by
  refine .of_sound fun hsound => .theHeap_bind ?_
  split
  · exact .pure hs
  · rename_i hbindings
    refine .bind (recordUse_agrees _ _ (hsound.heap.attrOf hbindings)) fun _ s1 hl1 _ => ?_
    refine .foldlM (I := fun t s => s.heap.IsValue t) _ (fun b _ acc s2 hl2 hacc => ?_) (hl1.isValue hs)
    refine .of_sound fun hs2 => .theHeap_bind (merge_agrees _ (fun t ht s3 hl3 => ?_) hacc)
    exact attributeValue_agrees fits (((hl1.trans hl2).trans hl3).isValue ho)
      (hl3.isValue (hs2.heap.isValue_of_mem_members (hs2.heap.bindings b) ht))

theorem attributeType_agrees (fits : Fits R ev ev') (kind : RefKind) (value : Expr) (i : Ident)
    (hn : value.size < n) (hd : Within D place.unit (frameItems.expr value)) :
    Agrees R n D s (attributeType ev place kind value i) (attributeType ev' place kind value i) fun t s' =>
      s'.heap.IsValue t ∧ s'.Did place.unit (ownItems.expr value) := by
  refine .bind (fits.expr value hn hd) ?_
  rintro owner s1 _ ⟨ho, hdid⟩
  refine .of_sound fun hs1 => .theHeap_bind ?_
  refine (Agrees.foldlM (I := fun t s => s.heap.IsValue t) _ (fun m hm acc s2 hl2 hacc => ?_)
    hs1.heap.isValue_unknown).mono fun t s2 hl2 ht => ⟨ht, hl2.did hdid⟩
  exact addOwner_agrees fits _ kind hacc (hl2.isValue (hs1.heap.isValue_of_mem_members ho hm))

end Attributes

section Subscripts

theorem mem_of_elementAt (ht : elementAt? elements position = some t) : t ∈ elements := by
  unfold elementAt? at ht
  split at ht
  · exact List.mem_of_getElem? ht
  · split at ht
    · exact List.mem_of_getElem? ht
    · cases ht

theorem subscriptType_agrees (fits : Fits R ev ev') (span : Option Span) (value : Expr)
    (index : List (Index Expr)) (hn : value.size + Expr.sizeOfIndex index < n)
    (hd : Within D place.unit (frameItems.expr value ++ frameItems.indexes index)) :
    Agrees R n D s (subscriptType ev place span value index) (subscriptType ev' place span value index) fun t s' =>
      s'.heap.IsValue t ∧ s'.Did place.unit (ownItems.expr value ++ ownItems.indexes index) := by
  rw [Within.append] at hd
  simp only [Session.Did.append]
  refine .bind (fits.expr value (by omega) hd.1) ?_
  rintro owner s1 hl1 ⟨ho, hvalue⟩
  refine .bind (indexType_agrees fits index (by omega) hd.2) ?_
  rintro key s2 hl2 ⟨hk, hindex⟩
  refine .of_sound fun hs2 => .theHeap_bind ?_
  have hdid : s2.Did place.unit (ownItems.expr value) ∧ s2.Did place.unit (ownItems.indexes index) :=
    ⟨hl2.did hvalue, hindex⟩
  dsimp only
  split
  · rename_i t ht
    -- A literal position in a tuple.
    refine .pure ⟨?_, hdid⟩
    split at ht
    · rename_i es _ hty _
      have hfits := hs2.heap.types owner
      rw [hty] at hfits
      exact hfits t (mem_of_elementAt ht)
    · cases ht
  · refine (subscript_agrees ⟨fun kind text s3 _ => ?_, fun f receiver s3 hl3 hr => ?_⟩ (hl2.isValue ho)).mono
      fun t s3 hl3 ht => ⟨ht, hl3.did hdid.1, hl3.did hdid.2⟩
    · exact (report_agrees ..).mono fun _ _ _ _ => trivial
    · exact applyTo_agrees fits f hr ⟨by simpa using hl3.isValue hk, by simp [Table.values], by simp, by simp⟩

end Subscripts

section Calls

theorem addArgument_agrees (fits : Fits R ev ev') (a : Arg Expr) (ha : args.All s.heap.IsValue)
    (hn : a.value.size < n) (hd : Within D place.unit (frameItems.expr a.value)) :
    Agrees R n D s (addArgument ev place args a) (addArgument ev' place args a) fun args s' =>
      args.All s'.heap.IsValue ∧ s'.Did place.unit (ownItems.expr a.value) := by
  refine .bind (fits.expr a.value hn hd) ?_
  rintro t s1 hl1 ⟨ht, hdid⟩
  have ha1 := ha.mono fun t => hl1.isValue (t := t)
  cases a with
  | positional e =>
    refine .pure ⟨{ ha1 with positional := ?_ }, hdid⟩
    exact List.forall_mem_append.2 ⟨ha1.positional, by simpa using ht⟩
  | keyword name e =>
    refine .pure ⟨{ ha1 with keywords := fun u hu => ?_ }, hdid⟩
    rcases Table.mem_values_insert hu with rfl | hu
    · exact ht
    · exact ha1.keywords u hu
  | items e => exact .pure ⟨{ ha1 with items := by simpa using ht }, hdid⟩
  | entries e => exact .pure ⟨{ ha1 with entries := by simpa using ht }, hdid⟩

theorem calleeType_agrees (fits : Fits R ev ev') (callee : Expr) (hn : callee.size < n)
    (hd : Within D place.unit (frameItems.expr callee)) :
    Agrees R n D s (calleeType ev place callee) (calleeType ev' place callee) fun t s' =>
      s'.heap.IsValue t ∧ s'.Did place.unit (ownItems.expr callee) := by
  cases callee with
  | name i => exact nameType_agrees .call i
  | attr span value i => exact attributeType_agrees fits .call value i (Nat.lt_of_succ_lt hn) hd
  | _ => exact fits.expr _ hn hd

theorem callType_agrees (fits : Fits R ev ev') (callee : Expr) (args : List (Arg Expr))
    (hn : callee.size + Expr.sizeOfArgs args < n)
    (hd : Within D place.unit (frameItems.expr callee ++ frameItems.arguments args)) :
    Agrees R n D s (callType ev place callee args) (callType ev' place callee args) fun t s' =>
      s'.heap.IsValue t ∧ s'.Did place.unit (ownItems.expr callee ++ ownItems.arguments args) := by
  rw [Within.append, Collector.arguments_eq] at hd
  simp only [Session.Did.append, Collector.arguments_eq, Session.Did.flatMap]
  refine .bind (calleeType_agrees fits callee (by omega) hd.1) ?_
  rintro f s1 hl1 ⟨hf, hcallee⟩
  refine .bind (.foldlM_did (I := fun args s => args.All s.heap.IsValue)
    (P := fun a s => s.Did place.unit (ownItems.expr a.value)) args (fun _ _ _ hl => hl.did)
    (fun a ha acc s2 _ hacc => ?_) .empty) ?_
  · refine addArgument_agrees fits a hacc (Nat.lt_of_le_of_lt ?_ hn) (Within.flatMap.1 hd.2 a ha)
    have := Syntax.le_sum_of_mem (f := fun a : Arg Expr => a.value.size) ha
    rw [← Expr.sizeOfArgs_eq] at this
    omega
  · rintro values s2 hl2 ⟨hvalues, hall⟩
    refine (call_agrees fits (hl2.isValue hf) hvalues).mono fun t s3 hl3 ht => ⟨ht, ?_, fun a ha => hl3.did (hall a ha)⟩
    exact (hl2.trans hl3).did hcallee

end Calls

section Displays

theorem itemsOf_agrees (fits : Fits R ev ev') (e : Expr) (hv : s.heap.IsValue value) :
    Agrees R n D s (itemsOf ev place e value) (itemsOf ev' place e value) fun t s' => s'.heap.IsValue t :=
  iterated_agrees fits _ hv

theorem size_element_lt (hn : Expr.sizeOfElements elements < n) (he : e ∈ elements) : e.value.size < n := by
  have := Syntax.le_sum_of_mem (f := fun e : Element Expr => e.value.size) he
  rw [← Expr.sizeOfElements_eq] at this
  omega

theorem listDisplay_agrees (fits : Fits R ev ev') (elements : List (Element Expr))
    (hn : Expr.sizeOfElements elements < n) (hd : Within D place.unit (frameItems.elements elements)) :
    Agrees R n D s (listDisplay ev place elements) (listDisplay ev' place elements) fun t s' =>
      s'.heap.IsValue t ∧ s'.Did place.unit (ownItems.elements elements) := by
  rw [Collector.elements_eq] at hd
  simp only [Collector.elements_eq, Session.Did.flatMap]
  refine .of_sound fun hs => ?_
  have hnew : Does s.heap (newType (.list .unknown (some []))) fun t h => h.IsValue t :=
    newType_value _ ⟨hs.heap.isValue_unknown, by simp⟩ trivial (by simp)
  refine .bind (.lift hnew) fun list s1 _ hlist => ?_
  refine .bind (.forM_did (P := fun e s => s.Did place.unit (ownItems.expr e.value)) elements
    (fun _ _ _ hl => hl.did) fun e he s2 _ => ?_) fun _ s2 hl2 hall => .pure ⟨hl2.isValue hlist, hall⟩
  refine .bind (fits.expr e.value (size_element_lt hn he) (Within.flatMap.1 hd e he)) ?_
  rintro t s3 _ ⟨ht, hdid⟩
  split
  · refine .bind (itemsOf_agrees fits e.value ht) fun u s4 hl4 hu => ?_
    exact (Agrees.lift (widenList_does hu)).mono fun _ _ hl _ => (hl4.trans hl).did hdid
  · exact (Agrees.lift (addElement_does ht)).mono fun _ _ hl _ => hl.did hdid

theorem setDisplay_agrees (fits : Fits R ev ev') (elements : List (Element Expr))
    (hn : Expr.sizeOfElements elements < n) (hd : Within D place.unit (frameItems.elements elements)) :
    Agrees R n D s (setDisplay ev place elements) (setDisplay ev' place elements) fun t s' =>
      s'.heap.IsValue t ∧ s'.Did place.unit (ownItems.elements elements) := by
  rw [Collector.elements_eq] at hd
  simp only [Collector.elements_eq, Session.Did.flatMap]
  refine .of_sound fun hs => .bind (.lift (newList_value hs.heap.isValue_unknown)) fun list s1 _ hlist => ?_
  refine .bind (.forM_did (P := fun e s => s.Did place.unit (ownItems.expr e.value)) elements
    (fun _ _ _ hl => hl.did) fun e he s2 _ => ?_) fun _ s2 hl2 hall => .pure ⟨hl2.isValue hlist, hall⟩
  refine .bind (fits.expr e.value (size_element_lt hn he) (Within.flatMap.1 hd e he)) ?_
  rintro t s3 _ ⟨ht, hdid⟩
  split
  · refine .bind (itemsOf_agrees fits e.value ht) fun u s4 hl4 hu => ?_
    exact (Agrees.lift (widenList_does hu)).mono fun _ _ hl _ => (hl4.trans hl).did hdid
  · exact .bind (.pure ht) fun u s4 hl4 hu =>
      (Agrees.lift (widenList_does hu)).mono fun _ _ hl _ => (hl4.trans hl).did hdid

theorem addTupleElement_agrees (fits : Fits R ev ev') (e : Element Expr)
    (hs : ∀ t ∈ soFar.1, s.heap.IsValue t) (hn : e.value.size < n)
    (hd : Within D place.unit (frameItems.expr e.value)) :
    Agrees R n D s (addTupleElement ev place soFar e) (addTupleElement ev' place soFar e) fun p s' =>
      (∀ t ∈ p.1, s'.heap.IsValue t) ∧ s'.Did place.unit (ownItems.expr e.value) := by
  refine .bind (fits.expr e.value hn hd) ?_
  rintro t s1 hl1 ⟨ht, hdid⟩
  have hs1 : ∀ t ∈ soFar.1, s1.heap.IsValue t := fun t ht => hl1.isValue (hs t ht)
  split
  · exact .pure ⟨List.forall_mem_append.2 ⟨hs1, by simpa using ht⟩, hdid⟩
  · refine .of_sound fun hsound => .theHeap_bind ?_
    split
    · rename_i es hty
      have hfits := hsound.heap.types t
      rw [hty] at hfits
      exact .pure ⟨List.forall_mem_append.2 ⟨hs1, hfits⟩, hdid⟩
    · refine .bind (itemsOf_agrees fits e.value ht) fun u s2 hl2 hu => .pure ⟨?_, hl2.did hdid⟩
      exact List.forall_mem_append.2 ⟨fun t ht => hl2.isValue (hs1 t ht), by simpa using hu⟩

theorem tupleDisplay_agrees (fits : Fits R ev ev') (elements : List (Element Expr))
    (hn : Expr.sizeOfElements elements < n) (hd : Within D place.unit (frameItems.elements elements)) :
    Agrees R n D s (tupleDisplay ev place elements) (tupleDisplay ev' place elements) fun t s' =>
      s'.heap.IsValue t ∧ s'.Did place.unit (ownItems.elements elements) := by
  rw [Collector.elements_eq] at hd
  simp only [Collector.elements_eq, Session.Did.flatMap]
  refine .bind (.foldlM_did (I := fun p s => ∀ t ∈ p.1, s.heap.IsValue t)
    (P := fun e s => s.Did place.unit (ownItems.expr e.value)) elements (fun _ _ _ hl => hl.did)
    (fun e he acc s1 _ hacc => ?_) (by simp)) ?_
  · exact addTupleElement_agrees fits e hacc (size_element_lt hn he) (Within.flatMap.1 hd e he)
  · rintro ⟨types, fixed⟩ s1 _ ⟨hp, hall⟩
    dsimp only
    split
    · exact (Agrees.lift (newTuple_value hp)).mono fun t s2 hl2 ht => ⟨ht, fun e he => hl2.did (hall e he)⟩
    · refine .bind (.lift (unionAll_value hp)) fun u s2 hl2 hu => ?_
      exact (Agrees.lift (newList_value hu)).mono fun t s3 hl3 ht => ⟨ht, fun e he => (hl2.trans hl3).did (hall e he)⟩

theorem addEntriesOf_does (dict member : TypeId) : Does h (addEntriesOf dict member) fun _ _ => True := by
  refine .of_sound fun hs => .get_bind ?_
  have hfits := hs.types member
  split <;> rename_i heq
  · rw [heq] at hfits
    exact addEntry_does hfits.1 hfits.2
  · exact .pure trivial

theorem addDictItem_agrees (fits : Fits R ev ev') (dict : TypeId) (item : DictItem Expr)
    (hn : Expr.sizeOfItems [item] < n) (hd : Within D place.unit (frameItems.dictItems [item])) :
    Agrees R n D s (addDictItem ev place dict item) (addDictItem ev' place dict item)
      fun _ s' => s'.Did place.unit (ownItems.dictItems [item]) := by
  cases item with
  | entry key value =>
    simp only [Expr.sizeOfItems, Collector.dictItems, List.append_nil, Within.append, Session.Did.append] at hn hd ⊢
    refine .bind (fits.expr key (by omega) hd.1) ?_
    rintro k s1 _ ⟨hk, hkey⟩
    refine .bind (fits.expr value (by omega) hd.2) ?_
    rintro v s2 hl2 ⟨hv, hvalue⟩
    exact (Agrees.lift (addEntry_does (hl2.isValue hk) hv)).mono fun _ _ hl _ =>
      ⟨(hl2.trans hl).did hkey, hl.did hvalue⟩
  | spread value =>
    simp only [Expr.sizeOfItems, Collector.dictItems, List.append_nil] at hn hd ⊢
    refine .bind (fits.expr value (by omega) hd) ?_
    rintro t s1 _ ⟨_, hdid⟩
    refine .theHeap_bind ?_
    exact (Agrees.forM _ fun m _ s2 _ => .lift (addEntriesOf_does dict m)).mono fun _ _ hl _ => hl.did hdid

theorem dictDisplay_agrees (fits : Fits R ev ev') (items : List (DictItem Expr)) (hn : Expr.sizeOfItems items < n)
    (hd : Within D place.unit (frameItems.dictItems items)) :
    Agrees R n D s (dictDisplay ev place items) (dictDisplay ev' place items) fun t s' =>
      s'.heap.IsValue t ∧ s'.Did place.unit (ownItems.dictItems items) := by
  rw [Collector.dictItems_eq] at hd ⊢
  simp only [Session.Did.flatMap]
  refine .of_sound fun hs => ?_
  refine .bind (.lift (newDict_value hs.heap.isValue_unknown hs.heap.isValue_unknown)) fun dict s1 _ hdict => ?_
  refine .bind (.forM_did (P := fun i s => s.Did place.unit (ownItems.dictItems [i])) items
    (fun _ _ _ hl => hl.did) fun i hi s2 _ => ?_) fun _ s2 hl2 hall => .pure ⟨hl2.isValue hdict, hall⟩
  refine addDictItem_agrees fits dict i ?_ (Within.flatMap.1 hd i hi)
  have := Syntax.le_sum_of_mem (f := fun i => Expr.sizeOfItems [i]) hi
  rw [← Expr.sizeOfItems_eq] at this
  omega

end Displays

section Comprehensions

theorem comprehensionScope_agrees (node : Nat) :
    Agrees R n D s (comprehensionScope place node) (comprehensionScope place node) fun _ _ => True := by
  refine .get_bind ?_
  split
  · exact .pure trivial
  · refine .theHeap_bind (.bind (.lift (newScope_does _ rfl)) fun scope s1 _ _ => ?_)
    refine .bind (Q := fun _ _ => True) ?_ fun _ _ _ _ => .pure trivial
    exact .change (.comprehension _ scope) trivial

theorem evaluateClauses_agrees (fits : Fits R ev ev') (u : UnitRef) {inner : ScopeId}
    (clauses : List (Clause Expr)) (outer : ScopeId) (hn : Expr.sizeOfClauses clauses < n)
    (hd : Within D u (frameItems.clauses clauses)) :
    Agrees R n D s (evaluateClauses ev ⟨u, outer⟩ ⟨u, inner⟩ clauses) (evaluateClauses ev' ⟨u, outer⟩ ⟨u, inner⟩ clauses)
      fun _ s' => s'.Did u (ownItems.clauses clauses) := by
  induction clauses generalizing s outer with
  | nil => exact .pure .nil
  | cons c rest ih =>
    obtain ⟨target, iterable, conditions⟩ := c
    simp only [Expr.sizeOfClauses, Collector.clauses, Within.append, Session.Did.append] at hn hd ⊢
    obtain ⟨hiterable, htarget, hconditions, hrest⟩ := hd
    refine .bind (fits.expr iterable (by omega) hiterable) ?_
    rintro t s1 hl1 ⟨ht, h1⟩
    refine .bind (itemsOf_agrees fits iterable ht) fun items s2 hl2 hitems => ?_
    refine .bind (fits.bind target hitems (by omega) htarget) fun _ s3 hl3 h3 => ?_
    refine .bind (fits.exprs conditions (by omega) hconditions) fun _ s4 hl4 h4 => ?_
    refine (ih inner (by omega) hrest).mono fun _ s5 hl5 h5 => ⟨?_, ?_, hl5.did h4, h5⟩
    · exact (((hl2.trans hl3).trans hl4).trans hl5).did h1
    · exact (hl4.trans hl5).did h3

theorem enterComprehension_agrees (fits : Fits R ev ev') (node : Nat) (clauses : List (Clause Expr))
    (hn : Expr.sizeOfClauses clauses < n) (hd : Within D place.unit (frameItems.clauses clauses)) :
    Agrees R n D s (enterComprehension ev place node clauses) (enterComprehension ev' place node clauses)
      fun inner s' => inner.unit = place.unit ∧ s'.Did place.unit (ownItems.clauses clauses) := by
  refine .bind (comprehensionScope_agrees node) fun scope s1 _ _ => ?_
  exact .bind (evaluateClauses_agrees fits place.unit clauses place.scope hn hd) fun _ s2 _ hdid => .pure ⟨rfl, hdid⟩

end Comprehensions

theorem addYield_agrees (ht : s.heap.IsValue t) : Agrees R n D s (addYield t) (addYield t) fun _ _ => True := by
  refine .of_sound fun hs => .get_bind ?_
  split
  · exact .pure trivial
  · rename_i f fs hstack
    refine .theHeap_bind ?_
    refine .bind_run (.lift (union_value (all_getD (hs.heap.functions f).yields hs.heap.isValue_unknown) ht)) ?_
    intro y s1 hr hy
    have happlied : f ∈ s1.callStack := by
      rw [hr.callStack, hstack]
      exact .head _
    exact ⟨fun _ _ => ⟨rfl, .change (.yields f y hy happlied), trivial⟩⟩

theorem unaryType_value {h : Heap} (hs : h.IsSound) (op : Syntax.UnaryOp)
    (ho : h.IsValue operand) : h.IsValue (unaryType h op operand) := by
  unfold unaryType
  split
  · exact hs.isValue_singleton (by decide) (by decide)
  · split
    · exact hs.isValue_singleton (by decide) (by decide)
    · exact ho

theorem exprType_agrees (fits : Fits R ev ev') (e : Expr) (hd : Within D place.unit (frameItems.expr e)) :
    Agrees R e.size D s (exprType ev place e) (exprType ev' place e) fun t s' =>
      s'.heap.IsValue t ∧ s'.Did place.unit (ownItems.expr e) := by
  refine .of_sound fun hs => ?_
  have hsingle : ∀ {s' : Session} {t : TypeId}, s'.IsSound → t.index < Heap.initial.types.size → t ≠ .continues →
      s'.heap.IsValue t := fun hs => hs.heap.isValue_singleton
  cases e with
  | name i => exact nameType_agrees .ref i
  | attr span value i => exact attributeType_agrees fits .ref value i (Nat.lt_succ_self _) hd
  | subscript span value index => exact subscriptType_agrees fits span value index (Nat.lt_succ_self _) hd
  | call span callee args => exact callType_agrees fits callee args (Nat.lt_succ_self _) hd
  | integer | float | imaginary => exact .pure ⟨hsingle hs (by decide) (by decide), .nil⟩
  | string span bytes =>
    refine .pure ⟨?_, .nil⟩
    cases bytes
    · exact hsingle hs (by decide) (by decide)
    · exact hsingle hs (by decide) (by decide)
  | ellipsis => exact .pure ⟨hs.heap.isValue_unknown, .nil⟩
  | concatenated span left right =>
    simp only [Expr.size, Collector.expr, Within.append, Session.Did.append] at hd ⊢
    refine .bind (fits.discardExpr right (by omega) hd.2) fun _ s1 _ hright => ?_
    refine (fits.expr left (by omega) hd.1).mono ?_
    rintro t s2 hl2 ⟨ht, hleft⟩
    exact ⟨ht, hleft, hl2.did hright⟩
  | formatted span parts =>
    refine .bind (fits.exprs parts (Nat.lt_succ_self _) hd) fun _ s1 _ hdid => .of_sound fun hs1 => ?_
    exact .pure ⟨hsingle hs1 (by decide) (by decide), hdid⟩
  | list span elements => exact listDisplay_agrees fits elements (Nat.lt_succ_self _) hd
  | set span elements => exact setDisplay_agrees fits elements (Nat.lt_succ_self _) hd
  | tuple span elements => exact tupleDisplay_agrees fits elements (Nat.lt_succ_self _) hd
  | dict span items => exact dictDisplay_agrees fits items (Nat.lt_succ_self _) hd
  | comprehension span node element clauses =>
    simp only [Expr.size, Collector.expr, Within.append, Session.Did.append] at hd ⊢
    refine .bind (enterComprehension_agrees fits node clauses (by omega) hd.1) ?_
    rintro inner s1 _ ⟨hunit, hclauses⟩
    refine .bind (fits.expr element (by omega) (hunit ▸ hd.2)) ?_
    rintro t s2 hl2 ⟨ht, helement⟩
    refine (Agrees.lift (newList_value ht)).mono fun u s3 hl3 hu => ⟨hu, (hl2.trans hl3).did hclauses, ?_⟩
    exact hl3.did (hunit ▸ helement)
  | dictComprehension span node key value clauses =>
    simp only [Expr.size, Collector.expr, Within.append, Session.Did.append] at hd ⊢
    refine .bind (enterComprehension_agrees fits node clauses (by omega) hd.1) ?_
    rintro inner s1 _ ⟨hunit, hclauses⟩
    refine (fits.operands key value (by omega) (hunit ▸ hd.2.1) (hunit ▸ hd.2.2)
      fun _ _ _ hk hv => .lift (newDict_value hk hv)).mono ?_
    rintro t s2 hl2 ⟨ht, hdid⟩
    exact ⟨ht, hl2.did hclauses, hunit ▸ hdid⟩
  | lambda span node params body =>
    exact lambdaType_agrees fits (by simp only [Expr.size]; omega) hd
  | binary span op left right =>
    simp only [Expr.size, Collector.expr, Within.append, Session.Did.append] at hd ⊢
    exact fits.operands left right (by omega) hd.1 hd.2 fun _ _ _ hl hr => binaryResult_agrees fits op hl hr
  | boolean span left right =>
    simp only [Expr.size, Collector.expr, Within.append, Session.Did.append] at hd ⊢
    exact fits.operands left right (by omega) hd.1 hd.2 fun _ _ _ hl hr => .lift (union_value hl hr)
  | unary span op operand =>
    refine .bind (fits.expr operand (Nat.lt_succ_self _) hd) ?_
    rintro t s1 _ ⟨ht, hdid⟩
    refine .of_sound fun hs1 => ?_
    exact .theHeap_bind (.pure ⟨unaryType_value hs1.heap op ht, hdid⟩)
  | comparison span first others =>
    refine .bind (fits.exprs (first :: others) (Nat.lt_succ_self _) hd) fun _ s1 _ hdid => .of_sound fun hs1 => ?_
    exact .pure ⟨hsingle hs1 (by decide) (by decide), hdid⟩
  | conditional span test body orelse =>
    simp only [Expr.size, Collector.expr, Within.append, Session.Did.append] at hd ⊢
    refine .bind (fits.discardExpr test (by omega) hd.1) fun _ s1 _ htest => ?_
    refine (fits.operands body orelse (by omega) hd.2.1 hd.2.2 fun _ _ _ ht hu => .lift (union_value ht hu)).mono ?_
    rintro t s2 hl2 ⟨ht, hdid⟩
    exact ⟨ht, hl2.did htest, hdid⟩
  | assignment span target value =>
    simp only [Expr.size, Collector.expr, Within.append, Session.Did.append] at hd ⊢
    refine .bind (fits.expr value (by omega) hd.1) ?_
    rintro t s1 _ ⟨ht, hvalue⟩
    refine .bind (fits.bind target ht (by omega) hd.2) fun _ s2 hl2 htarget => ?_
    exact .pure ⟨hl2.isValue ht, hl2.did hvalue, htarget⟩
  | yield span value =>
    cases value with
    | none =>
      refine .bind (Q := fun t s => s.heap.IsValue t) (.pure (hsingle hs (by decide) (by decide))) fun t s1 _ ht => ?_
      exact .bind (addYield_agrees ht) fun _ s2 _ _ => .of_sound fun hs2 => .pure ⟨hs2.heap.isValue_unknown, .nil⟩
    | some e =>
      refine .bind (fits.expr e (Nat.lt_succ_self _) hd) ?_
      rintro t s1 _ ⟨ht, hdid⟩
      refine .bind (addYield_agrees ht) fun _ s2 hl2 _ => .of_sound fun hs2 => ?_
      exact .pure ⟨hs2.heap.isValue_unknown, hl2.did hdid⟩
  | yieldFrom span source =>
    refine .bind (fits.expr source (Nat.lt_succ_self _) hd) ?_
    rintro t s1 _ ⟨ht, hdid⟩
    refine .bind (itemsOf_agrees fits source ht) fun items s2 hl2 hitems => ?_
    refine .bind (addYield_agrees hitems) fun _ s3 hl3 _ => .of_sound fun hs3 => ?_
    exact .pure ⟨hs3.heap.isValue_unknown, (hl2.trans hl3).did hdid⟩
  | await span operand => exact fits.expr operand (Nat.lt_succ_self _) hd
  | starred span value =>
    refine .bind (fits.discardExpr value (Nat.lt_succ_self _) hd) fun _ s1 _ hdid => .of_sound fun hs1 => ?_
    exact .pure ⟨hs1.heap.isValue_unknown, hdid⟩
  | unmodelled span parts =>
    refine .bind (fits.exprs parts (Nat.lt_succ_self _) hd) fun _ s1 _ hdid => .of_sound fun hs1 => ?_
    exact .pure ⟨hs1.heap.isValue_unknown, hdid⟩

end Concordance
