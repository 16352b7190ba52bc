import Concordance.Proofs.Inference.Iteration

/-!
# Targets

Binding a target evaluates the objects and indexes in it, also where the value does not fit the pattern: a value
that is taken apart gives as many types as the pattern has slots.
-/

namespace Concordance

open Syntax (Expr Element Span Index Item ownItems frameItems Collector)

variable {h : Heap} {slots : Slots}

variable {env : Environment} {s : Session} {place : Place}

theorem Agrees.mapM_values {α : Type} {f g : α → Analysis TypeId} {P : α → Session → Prop} (xs : List α)
    (hP : ∀ x s s', s.Later s' → P x s → P x s')
    (hf : ∀ x ∈ xs, ∀ s', s.Later s' → Agrees R n D s' (f x) (g x) fun t s'' => s''.heap.IsValue t ∧ P x s'') :
    Agrees R n D s (xs.mapM f) (xs.mapM g) fun ts s' =>
      ts.length = xs.length ∧ (∀ t ∈ ts, s'.heap.IsValue t) ∧ ∀ x ∈ xs, P x s' := by
  induction xs generalizing s with
  | nil => exact .pure ⟨rfl, by simp, by simp⟩
  | cons x xs ih =>
    rw [List.mapM_cons, List.mapM_cons]
    refine .bind (hf x (.head _) s (.refl s)) ?_
    rintro t s1 hl1 ⟨ht, hx⟩
    refine .bind (ih fun y hy s2 hl2 => hf y (.tail _ hy) s2 (hl1.trans hl2)) ?_
    rintro ts s2 hl2 ⟨hlen, hts, hxs⟩
    exact .pure ⟨congrArg (· + 1) hlen, List.forall_mem_cons.2 ⟨hl2.isValue ht, hts⟩,
      List.forall_mem_cons.2 ⟨hP x s1 s2 hl2 hx, hxs⟩⟩

section Names

theorem bindName_agrees (hv : s.heap.IsValue value) :
    Agrees R n D s (bindName place i value kind extent) (bindName place i value kind extent) fun _ _ => True :=
  .theHeap_bind ((bindIn_agrees hv).discard fun _ _ _ h => h)

end Names

section Patterns

def Slots.IsSound (slots : Slots) : Prop := ∀ i ∈ slots.star, i < slots.count

theorem Slots.ofElements_isSound (elements : List (Element Expr)) : (Slots.ofElements elements).IsSound := by
  intro i hi
  exact (List.findIdx?_eq_some_iff_getElem.1 hi).1

def Slots.Filled (slots : Slots) (h : Heap) (ts : List TypeId) : Prop :=
  ts.length = slots.count ∧ ∀ t ∈ ts, h.IsValue t

theorem Slots.fit_filled (hslots : slots.IsSound) (hv : ∀ t ∈ values, h.IsValue t) :
    Does h (slots.fit values) fun r h' => ∀ ts, r = .ok ts → slots.Filled h' ts := by
  obtain ⟨count, star⟩ := slots
  cases star with
  | none =>
    simp only [Slots.fit]
    split
    · exact .pure (by simp)
    · split
      · exact .pure (by simp)
      · refine .pure ?_
        rintro ts ⟨⟩
        exact ⟨by dsimp only; omega, hv⟩
  | some star =>
    have hstar : star < count := hslots star rfl
    simp only [Slots.fit]
    split
    · exact .pure (by simp)
    rename_i hrequired
    -- The starred slot takes what the others leave.
    have hpart : ∀ t ∈ (values.drop star).take (values.length - (count - 1)), h.IsValue t := fun t ht =>
      hv t (List.mem_of_mem_drop (List.mem_of_mem_take ht))
    refine (unionAll_value hpart).bind fun u h1 he1 hu => ?_
    refine (newList_value hu).bind fun list h2 he2 hlist => .pure ?_
    rintro ts ⟨⟩
    refine ⟨by simp only [List.length_append, List.length_take, List.length_drop, List.length_singleton]; omega, ?_⟩
    have he := he1.trans he2
    simp only [List.forall_mem_append, List.forall_mem_singleton]
    exact ⟨⟨fun t ht => he.isValue (hv t (List.mem_of_mem_take ht)), hlist⟩,
      fun t ht => he.isValue (hv t (List.mem_of_mem_drop ht))⟩

theorem Heap.IsSound.fixedShape (hs : h.IsSound) (hts : h.fixedShape? value display = some ts) : ∀ t ∈ ts, h.IsValue t := by
  have hfits := hs.types value
  unfold Heap.fixedShape? at hts
  split at hts <;> rename_i heq
  · rw [heq] at hfits
    cases hts
    exact hfits
  · rw [heq] at hfits
    split at hts
    · subst hts
      exact hfits.2
    · cases hts
  · cases hts

theorem destructure_agrees (fits : Fits R ev ev') (hslots : slots.IsSound) (display : Bool)
    (hv : s.heap.IsValue value) :
    Agrees R n D s (destructure ev slots display value) (destructure ev' slots display value)
      fun r s' => ∀ ts, r = .ok ts → slots.Filled s'.heap ts := by
  refine .of_sound fun hs => .theHeap_bind ?_
  split
  · rename_i values hvalues
    exact .lift (Slots.fit_filled hslots (hs.heap.fixedShape hvalues))
  · refine .bind (element_agrees fits .unpacking hv) fun e s1 hl1 he => ?_
    cases e with
    | none => exact .theHeap_bind (.pure (by simp))
    | some e =>
      -- Every slot gets the type of the elements, but a starred one a list of them.
      have hrepeated : ∀ t ∈ List.replicate slots.count e, s1.heap.IsValue t := fun t ht =>
        (List.mem_replicate.1 ht).2 ▸ he e rfl
      dsimp only
      split
      · refine .pure ?_
        rintro ts ⟨⟩
        exact ⟨List.length_replicate, hrepeated⟩
      · refine .bind (.lift (newList_value (he e rfl))) fun list s2 hl2 hlist => .pure ?_
        rintro ts ⟨⟩
        refine ⟨by simp, fun t ht => ?_⟩
        rcases List.mem_or_eq_of_mem_set ht with ht | rfl
        · exact hl2.isValue (hrepeated t ht)
        · exact hlist

theorem destructureStep_agrees (fits : Fits R ev ev') (hslots : slots.IsSound) (display : Bool) (hm : s.heap.IsValue member)
    (hsoFar : ∀ ts ∈ soFar.1, slots.Filled s.heap ts) :
    Agrees R n D s (destructureStep ev slots display soFar member) (destructureStep ev' slots display soFar member)
      fun p s' => ∀ ts ∈ p.1, slots.Filled s'.heap ts := by
  have hkeep : ∀ {s' : Session}, s.Later s' → ∀ ts ∈ soFar.1, slots.Filled s'.heap ts := fun hl ts hts =>
    ⟨(hsoFar ts hts).1, fun t ht => hl.isValue ((hsoFar ts hts).2 t ht)⟩
  refine .bind (destructure_agrees fits hslots display hm) fun r s1 hl1 hr => ?_
  cases r with
  | error mismatch => exact .pure (hkeep hl1)
  | ok types =>
    have htypes := hr types rfl
    dsimp only
    split
    · refine .pure ?_
      rintro ts ⟨⟩
      exact htypes
    · rename_i before hbefore
      -- Slot by slot, the types of the alternatives are merged.
      have hb := hkeep hl1 before hbefore
      refine .bind (.mapM_values (P := fun _ _ => True) (before.zip types) (fun _ _ _ _ h => h)
        fun p hp s2 hl2 => ?_) ?_
      · have hp' := List.of_mem_zip hp
        exact (Agrees.lift (union_value (hl2.isValue (hb.2 p.1 hp'.1)) (hl2.isValue (htypes.2 p.2 hp'.2)))).mono
          fun _ _ _ hw => ⟨hw, trivial⟩
      · rintro ts s2 _ ⟨hlen, hts, _⟩
        refine .pure ?_
        rintro us ⟨⟩
        refine ⟨?_, hts⟩
        rw [hlen, List.length_zip, hb.1, htypes.1, Nat.min_self]

theorem reportMismatch_agrees (span : Option Span) (source : Option Expr) (mismatch : Option Mismatch) :
    Agrees R n D s (reportMismatch place span source mismatch) (reportMismatch place span source mismatch)
      fun _ _ => True := by
  unfold reportMismatch
  split
  · exact (reportAt_agrees ..).mono fun _ _ _ _ => trivial
  · exact .pure trivial

theorem bindPattern_agrees (fits : Fits R ev ev') (elements : List (Element Expr)) (hv : s.heap.IsValue value)
    (hn : Expr.sizeOfElements elements < n) (hd : Within D place.unit (frameItems.targets elements)) :
    Agrees R n D s (bindPattern ev place span elements value kind source)
      (bindPattern ev' place span elements value kind source)
      fun _ s' => s'.Did place.unit (ownItems.targets elements) := by
  refine .of_sound fun hs => .theHeap_bind ?_
  have hslots := Slots.ofElements_isSound elements
  refine .bind (.foldlM (I := fun p s => ∀ ts ∈ p.1, (Slots.ofElements elements).Filled s.heap ts) _
    (fun m hm acc s1 hl hacc => ?_) (by simp)) fun p s1 _ hp => ?_
  · exact destructureStep_agrees fits hslots _ (hl.isValue (hs.heap.isValue_of_mem_members hv hm)) hacc
  · obtain ⟨types, mismatch⟩ := p
    cases types with
    | none =>
      refine .bind (reportMismatch_agrees ..) fun _ s2 _ _ => .of_sound fun hs2 => ?_
      -- Nothing fitted: each name in the pattern is bound as unknown.
      rw [Collector.targets_eq_leavesOf] at hd ⊢
      simp only [Session.Did.flatMap]
      refine .forM_did _ (fun _ _ _ hl => hl.did) fun leaf hleaf s3 hl3 => ?_
      exact fits.bind leaf (hl3.isValue hs2.heap.isValue_unknown)
        (Nat.lt_of_le_of_lt (Expr.size_le_of_mem_leavesOf hleaf) hn) (Within.flatMap.1 hd leaf hleaf)
    | some types =>
      obtain ⟨hlen, htypes⟩ := hp types rfl
      rw [Collector.targets_eq] at hd ⊢
      refine (Agrees.forM_did (P := fun p s => s.Did place.unit (ownItems.target p.1.value)) (elements.zip types)
        (fun _ _ _ hl => hl.did) fun p hp s2 hl2 => ?_).mono fun _ s2 _ hall => ?_
      · have hp' := List.of_mem_zip hp
        refine fits.bind p.1.value (hl2.isValue (htypes p.2 hp'.2)) (Nat.lt_of_le_of_lt ?_ hn)
          (Within.flatMap.1 hd p.1 hp'.1)
        exact Expr.sizeOfElements_eq elements ▸ Syntax.le_sum_of_mem (f := fun e => e.value.size) hp'.1
      · -- There are as many types as elements, so no element is left out.
        refine Session.Did.flatMap.2 fun e he => ?_
        obtain ⟨i, hi, rfl⟩ := List.mem_iff_getElem.1 he
        have hi' : i < types.length := hlen.symm ▸ hi
        exact hall (elements[i], types[i]) (List.mem_iff_getElem.2 ⟨i, by simp [hi, hi'], by simp⟩)

end Patterns

section Subscripts

theorem indexPart_agrees (fits : Fits R ev ev') (i : Index Expr) (hn : Expr.sizeOfIndex [i] < n)
    (hd : Within D place.unit (frameItems.indexes [i])) :
    Agrees R n D s (indexPart ev place i) (indexPart ev' place i) fun t s' =>
      s'.heap.IsValue t ∧ s'.Did place.unit (ownItems.indexes [i]) := by
  cases i with
  | single e =>
    simp only [Expr.sizeOfIndex, Nat.add_zero, Collector.indexes, List.append_nil] at hn hd ⊢
    exact fits.expr e hn hd
  | slice lower upper step =>
    simp only [Expr.sizeOfIndex, Collector.indexes, List.append_nil, Within.append, Session.Did.append] at hn hd ⊢
    refine .bind (fits.exprOption lower (by omega) hd.1) fun _ s1 hl1 h1 => ?_
    refine .bind (fits.exprOption upper (by omega) hd.2.1) fun _ s2 hl2 h2 => ?_
    refine .bind (fits.exprOption step (by omega) hd.2.2) fun _ s3 hl3 h3 => .of_sound fun hs => ?_
    refine (Agrees.lift (newList_value hs.heap.isValue_unknown)).mono fun t s4 hl4 ht => ⟨ht, ?_, ?_, hl4.did h3⟩
    · exact ((hl2.trans hl3).trans hl4).did h1
    · exact (hl3.trans hl4).did h2

theorem indexType_agrees (fits : Fits R ev ev') (index : List (Index Expr)) (hn : Expr.sizeOfIndex index < n)
    (hd : Within D place.unit (frameItems.indexes index)) :
    Agrees R n D s (indexType ev place index) (indexType ev' place index) fun t s' =>
      s'.heap.IsValue t ∧ s'.Did place.unit (ownItems.indexes index) := by
  rw [Collector.indexes_eq] at hd
  refine .bind (.mapM_values (P := fun i s => s.Did place.unit (ownItems.indexes [i])) index
    (fun _ _ _ hl => hl.did) fun i hi s1 _ => ?_) ?_
  · refine indexPart_agrees fits i (Nat.lt_of_le_of_lt ?_ hn) (Within.flatMap.1 hd i hi)
    exact Expr.sizeOfIndex_eq index ▸ Syntax.le_sum_of_mem (f := fun e => Expr.sizeOfIndex [e]) hi
  · rintro ts s1 _ ⟨_, hts, hall⟩
    have hdid : s1.Did place.unit (ownItems.indexes index) := by
      rw [Collector.indexes_eq]
      exact Session.Did.flatMap.2 hall
    split
    · exact .pure ⟨hts _ (List.mem_singleton.2 rfl), hdid⟩
    · exact (Agrees.lift (newTuple_value hts)).mono fun t _ hl ht => ⟨ht, hl.did hdid⟩

theorem storeAt_does (container : TypeId) (hk : h.IsValue key)
    (hv : h.IsValue value) : Does h (storeAt key value container) fun _ _ => True := by
  refine .get_bind ?_
  split
  · exact widenList_does hv
  · exact addEntry_does hk hv
  · exact .pure trivial

end Subscripts

theorem bindTarget_agrees (fits : Fits R ev ev') (target : Expr) (hv : s.heap.IsValue value) (hd : Within D place.unit (frameItems.target target)) :
    Agrees R target.size D s (bindTarget ev place target value kind source)
      (bindTarget ev' place target value kind source) fun _ s' => s'.Did place.unit (ownItems.target target) := by
  cases target with
  | name i => exact (bindName_agrees hv).mono fun _ _ _ _ => .nil
  | tuple span elements => exact bindPattern_agrees fits elements hv (Nat.lt_succ_self _) hd
  | list span elements => exact bindPattern_agrees fits elements hv (Nat.lt_succ_self _) hd
  | starred span inner => exact fits.bind inner hv (Nat.lt_succ_self _) hd
  | attr span object i =>
    refine .bind (fits.expr object (Nat.lt_succ_self _) hd) ?_
    rintro owner s1 hl1 ⟨_, hdid⟩
    refine .theHeap_bind ?_
    refine (Agrees.forM _ fun m _ s2 hl2 => ?_).mono fun _ _ hl _ => hl.did hdid
    -- The value is bound in each alternative of the owner.
    exact (setAttr_agrees ((hl1.trans hl2).isValue hv)).discard fun _ _ _ _ => trivial
  | subscript span object index =>
    simp only [Expr.size, Collector.target, Within.append, Session.Did.append] at hd ⊢
    refine .bind (fits.expr object (by omega) hd.1) ?_
    rintro container s1 hl1 ⟨_, hobject⟩
    refine .bind (indexType_agrees fits index (by omega) hd.2) ?_
    rintro key s2 hl2 ⟨hk, hindex⟩
    refine .theHeap_bind ?_
    refine (Agrees.forM _ fun m _ s3 hl3 => ?_).mono fun _ s4 hl4 _ => ⟨(hl2.trans hl4).did hobject, hl4.did hindex⟩
    exact .lift (storeAt_does m (hl3.isValue hk) (((hl1.trans hl2).trans hl3).isValue hv))
  | _ => exact (report_agrees ..).mono fun _ _ _ _ => .nil

end Concordance
