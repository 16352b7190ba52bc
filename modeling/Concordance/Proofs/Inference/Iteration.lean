import Concordance.Proofs.Inference.Call

/-!
# Values made from values

Going through a value, combining two values by an operator and subscripting a value apply methods on the way, and
give types of values.
-/

namespace Concordance

open Syntax (Item BinaryOp)

variable {h : Heap}

variable {env : Environment} {R : Regime env}

section Iteration

theorem Access.ofDict_value (access : Access) (hk : h.IsValue key)
    (hv : h.IsValue value) : h.IsValue (access.ofDict key value) := by
  cases access with
  | loop => exact hk
  | unpacking => exact hv

theorem iteratorElement_agrees (fits : Fits R ev ev') (access : Access) (hi : s.heap.IsValue iterator) :
    Agrees R n D s (iteratorElement ev access iterator) (iteratorElement ev' access iterator)
      fun t s' => s'.heap.IsValue t := by
  refine .of_sound fun hs => .theHeap_bind ?_
  have hfits := hs.heap.types iterator
  split <;> rename_i heq <;> try rw [heq] at hfits
  · exact .pure hfits.1
  · exact .lift (unionAll_value hfits)
  · exact .pure (access.ofDict_value hfits.1 hfits.2)
  · refine .pure ?_
    split
    · exact hi
    · exact hs.heap.isValue_unknown
  · refine .bind (callMethod_agrees fits _ hi) fun t s' _ ht => .of_sound fun hs' => .pure ?_
    exact all_getD ht hs'.heap.isValue_unknown

theorem elementOfOne_agrees (fits : Fits R ev ev') (access : Access) (hv : s.heap.IsValue value) :
    Agrees R n D s (elementOfOne? ev access value) (elementOfOne? ev' access value)
      fun t s' => ∀ u ∈ t, s'.heap.IsValue u := by
  refine .of_sound fun hs => .theHeap_bind ?_
  have hfits := hs.heap.types value
  split <;> rename_i heq <;> try rw [heq] at hfits
  · exact .pure (by simpa using hs.heap.isValue_unknown)
  · exact .pure (by simpa using hfits.1)
  · exact .bind (.lift (unionAll_value hfits)) fun t _ _ ht => .pure (by simpa using ht)
  · exact .pure (by simpa using access.ofDict_value hfits.1 hfits.2)
  · refine .pure ?_
    split <;> simp [hv]
  · refine .bind (callMethod_agrees fits _ hv) fun t s1 _ ht => ?_
    cases t with
    | none => exact .pure (by simp)
    | some iterator =>
      refine .of_sound fun hs1 => .theHeap_bind ?_
      refine .bind (merge_agrees _ (fun m hm s2 hl2 => ?_) hs1.heap.isValue_unknown) fun t _ _ ht =>
        .pure (by simpa using ht)
      exact iteratorElement_agrees fits access
        (hl2.isValue (hs1.heap.isValue_of_mem_members (ht iterator rfl) hm))

theorem element_agrees (fits : Fits R ev ev') (access : Access) (hv : s.heap.IsValue value) :
    Agrees R n D s (element? ev access value) (element? ev' access value) fun t s' => ∀ u ∈ t, s'.heap.IsValue u := by
  refine .of_sound fun hs => .theHeap_bind ?_
  split
  · rename_i ms heq
    have hms : ∀ m ∈ ms, s.heap.IsValue m := fun m hm =>
      hs.heap.isValue_of_mem_members hv (Heap.members_of_union heq ▸ hm)
    refine .bind (.foldlM (I := fun t s => s.heap.IsValue t) ms (fun m hm acc s1 hl hacc => ?_)
      hs.heap.isValue_unknown) fun t _ _ ht => .pure (by simpa using ht)
    refine .bind (elementOfOne_agrees fits access (hl.isValue (hms m hm))) fun t s2 hl2 ht =>
      .of_sound fun hs2 => .lift (union_value (hl2.isValue hacc) (all_getD ht hs2.heap.isValue_unknown))
  · exact elementOfOne_agrees fits access hv

theorem iterated_agrees (fits : Fits R ev ev') (site : Option Location) (hv : s.heap.IsValue value) :
    Agrees R n D s (iterated ev value site) (iterated ev' value site) fun t s' => s'.heap.IsValue t := by
  refine .of_sound fun hs => .theHeap_bind ?_
  refine .bind (.foldlM (I := fun p s => s.heap.IsValue p.1) _ (fun m hm acc s1 hl hacc => ?_)
    hs.heap.isValue_unknown) fun p s2 _ hp => ?_
  · have hm' := hl.isValue (hs.heap.isValue_of_mem_members hv hm)
    refine .bind (element_agrees fits .loop hm') fun t s3 hl3 ht => ?_
    cases t with
    | none => exact .pure (hl3.isValue hacc)
    | some e => exact .bind (.lift (union_value (hl3.isValue hacc) (ht e rfl))) fun w _ _ hw => .pure hw
  · refine .theHeap_bind ?_
    split
    · exact .bind (report_agrees ..) fun _ _ hl _ => .pure (hl.isValue hp)
    · exact .pure hp

end Iteration

section Operators

theorem ofRank_value (hs : h.IsSound) (rank : Nat) : h.IsValue (ofRank rank) := by
  unfold ofRank
  split
  · exact hs.isValue_singleton (by decide) (by decide)
  · split
    · exact hs.isValue_singleton (by decide) (by decide)
    · exact hs.isValue_singleton (by decide) (by decide)

theorem arithmetic_value (hs : h.IsSound) (op : BinaryOp) (left right : Nat) :
    h.IsValue (arithmetic op left right) := by
  unfold arithmetic
  dsimp only
  split
  · exact hs.isValue_singleton (by decide) (by decide)
  · exact ofRank_value hs _

theorem scalarResult_value (hs : h.IsSound)
    (hl : h.IsValue left) (hr : h.IsValue right) (ht : scalarResult? op left right l r = some t) : h.IsValue t := by
  simp only [scalarResult?] at ht
  split at ht
  · cases ht
    exact arithmetic_value hs ..
  · split at ht
    · cases ht
      exact hl
    · split at ht
      · cases ht
        exact hr
      · cases ht

theorem containerResult_value (op : BinaryOp) {left right : Ty} (hl : h.Fits left)
    (hr : h.Fits right) : Does h (containerResult? op left right) fun t h' => ∀ u ∈ t, h'.IsValue u := by
  have hsome : ∀ {h : Heap} {x : HeapM TypeId}, Does h x (fun t h' => h'.IsValue t) →
      Does h (do return some (← x)) fun t h' => ∀ u ∈ t, h'.IsValue u :=
    fun hx => hx.bind fun t _ _ ht => .pure (by simpa using ht)
  unfold containerResult?
  split
  · exact (union_value hl.1 hr.1).bind fun w _ _ hw => hsome (newList_value hw)
  · exact hsome (newList_value hl.1)
  · exact hsome (newTuple_value (List.forall_mem_append.2 ⟨hl, hr⟩))
  · exact (unionAll_value hl).bind fun w _ _ hw => hsome (newList_value hw)
  · refine (union_value hl.1 hr.1).bind fun k h1 he1 hk => ?_
    refine (union_value (he1.isValue hl.2) (he1.isValue hr.2)).bind fun v h2 he2 hv => ?_
    exact hsome (newDict_value (he2.isValue hk) hv)
  · exact .pure (by simp)

theorem byMethod_agrees (fits : Fits R ev ev') (op : BinaryOp)
    (hl : s.heap.IsValue left) (hr : s.heap.IsValue right) :
    Agrees R n D s (byMethod ev op left right) (byMethod ev' op left right) fun t s' => s'.heap.IsValue t := by
  refine .theHeap_bind ?_
  split
  · split
    · exact .lift (union_value hl hr)
    · exact applyAll_agrees fits _ hl ⟨by simpa using hr, by simp [Table.values], by simp, by simp⟩
  · exact .lift (union_value hl hr)

theorem binaryOne_agrees (fits : Fits R ev ev') (op : BinaryOp)
    (hl : s.heap.IsValue left) (hr : s.heap.IsValue right) :
    Agrees R n D s (binaryOne ev op left right) (binaryOne ev' op left right) fun t s' => s'.heap.IsValue t := by
  refine .of_sound fun hs => .theHeap_bind ?_
  split
  · exact .pure hs.heap.isValue_unknown
  · dsimp only
    split
    · rename_i t ht
      refine .pure ?_
      split at ht
      · exact scalarResult_value hs.heap hl hr ht
      · cases ht
    · refine .bind (.lift (containerResult_value op (hs.heap.types left) (hs.heap.types right))) fun t s' hl' ht => ?_
      cases t with
      | some t => exact .pure (ht t rfl)
      | none => exact byMethod_agrees fits op (hl'.isValue hl) (hl'.isValue hr)

theorem binaryResult_agrees (fits : Fits R ev ev') (op : BinaryOp)
    (hl : s.heap.IsValue left) (hr : s.heap.IsValue right) :
    Agrees R n D s (binaryResult ev op left right) (binaryResult ev' op left right)
      fun t s' => s'.heap.IsValue t := by
  refine .of_sound fun hs => .theHeap_bind ?_
  split
  · exact .pure hs.heap.isValue_unknown
  · split
    · refine merge_agrees _ (fun p hp s' hlater => ?_) hs.heap.isValue_unknown
      obtain ⟨l, hlm, hp⟩ := List.mem_flatMap.1 hp
      obtain ⟨r, hrm, rfl⟩ := List.mem_map.1 hp
      exact binaryOne_agrees fits op (hlater.isValue (hs.heap.isValue_of_mem_members hl hlm))
        (hlater.isValue (hs.heap.isValue_of_mem_members hr hrm))
    · exact binaryOne_agrees fits op hl hr

end Operators

section Subscripts

variable {report : ProblemKind → String → Analysis Unit} {method : FunctionId → TypeId → Analysis TypeId}

/-- What subscripting needs of the work that it is given: reports end, and methods applied to values give values. -/
structure SubscriptWork (R : Regime env) (n : Nat) (D : UnitRef → Item → Prop)
    (report : ProblemKind → String → Analysis Unit) (method method' : FunctionId → TypeId → Analysis TypeId)
    (s : Session) : Prop where
  report : ∀ kind text s', s.Later s' → Agrees R n D s' (report kind text) (report kind text) fun _ _ => True
  method : ∀ f receiver s', s.Later s' → s'.heap.IsValue receiver →
    Agrees R n D s' (method f receiver) (method' f receiver) fun t s'' => s''.heap.IsValue t

section

variable (hw : SubscriptWork R n D report method method' s)
include hw

theorem SubscriptWork.later (hl : s.Later s') :
    SubscriptWork R n D report method method' s' where
  report kind text s'' hl' := hw.report kind text s'' (hl.trans hl')
  method f receiver s'' hl' := hw.method f receiver s'' (hl.trans hl')

theorem subscriptByMethod_agrees (hv : s.heap.IsValue value) :
    Agrees R n D s (subscriptByMethod report method value) (subscriptByMethod report method' value)
      fun t s' => s'.heap.IsValue t := by
  have hreport : ∀ kind text s', s.Later s' → Agrees R n D s'
      (do report kind text; return TypeId.unknown) (do report kind text; return TypeId.unknown)
      fun t s' => s'.heap.IsValue t := by
    intro kind text s' hl
    exact .bind (hw.report kind text s' hl) fun _ _ _ _ => .of_sound fun hs => .pure hs.heap.isValue_unknown
  refine .liftGet_bind ?_
  dsimp only
  split
  · exact hreport _ _ s (.refl s)
  · refine .bind (.lift (typeOfBindings_value _)) fun t s1 hl1 ht => .liftGet_bind ?_
    split
    · exact hreport _ _ s1 hl1
    · refine .of_sound fun hs1 => merge_agrees _ (fun f _ s2 hl2 => ?_) hs1.heap.isValue_unknown
      have hl := hl1.trans hl2
      exact hw.method f value s2 hl (hl.isValue hv)

theorem subscriptList_agrees
    (hlist : s.heap.IsValue list) (he : s.heap.IsValue element) :
    Agrees R n D s (subscriptList report method list element index)
      (subscriptList report method' list element index) fun t s' => s'.heap.IsValue t := by
  refine .liftGet_bind ?_
  split
  · exact .pure hlist
  · split
    · exact .pure he
    · exact subscriptByMethod_agrees hw hlist

theorem subscriptOne_agrees (hv : s.heap.IsValue value) :
    Agrees R n D s (subscriptOne report method value index) (subscriptOne report method' value index)
      fun t s' => s'.heap.IsValue t := by
  refine .of_sound fun hs => .liftGet_bind ?_
  have hfits := hs.heap.types value
  split <;> rename_i heq <;> try rw [heq] at hfits
  · exact .pure hs.heap.isValue_unknown
  · exact subscriptList_agrees hw hv hfits.1
  · refine .bind (.lift (unionAll_value hfits)) fun e s1 hl1 he => ?_
    refine .bind (.lift (newList_value he)) fun list s2 hl2 hlist => ?_
    exact subscriptList_agrees (hw.later (hl1.trans hl2)) hlist (hl2.isValue he)
  · split
    · exact .lift (listOf_value hv)
    · exact .pure hfits.2
  · exact .pure hv
  · split
    · split
      · exact .pure hv
      · exact .bind (hw.report _ _ s (.refl s)) fun _ _ _ _ => .of_sound fun hs => .pure hs.heap.isValue_unknown
    · exact subscriptByMethod_agrees hw hv

theorem subscript_agrees (hv : s.heap.IsValue value) :
    Agrees R n D s (subscript report method value index) (subscript report method' value index)
      fun t s' => s'.heap.IsValue t := by
  refine .of_sound fun hs => .liftGet_bind ?_
  split
  · rename_i ms heq
    refine merge_agrees ms (fun m hm s' hl => ?_) hs.heap.isValue_unknown
    exact subscriptOne_agrees (hw.later hl)
      (hl.isValue (hs.heap.isValue_of_mem_members hv (Heap.members_of_union heq ▸ hm)))
  · exact subscriptOne_agrees hw hv

end

end Subscripts

end Concordance
