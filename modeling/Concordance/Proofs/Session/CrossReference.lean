import Mathlib.Combinatorics.Enumerative.DoubleCounting
import Concordance.Proofs.Session.FixedPoint

/-!
# Cross-references

Between steps, whatever has happened before, references and bindings know of each other: a reference is linked to a
binding exactly if the binding holds the reference.
-/

namespace Concordance

namespace Session

def bindings (s : Session) : List BindingId := (List.range s.heap.bindings.size).map BindingId.mk

def linked (s : Session) (r : ReferenceId) : List BindingId := s.links.getD r.index []

theorem mem_bindings {s : Session} : b ∈ s.bindings ↔ s.heap.HasBinding b := by
  obtain ⟨i⟩ := b
  simp [bindings, Heap.HasBinding]

theorem nodup_bindings (s : Session) : s.bindings.Nodup :=
  List.nodup_range.map fun _ _ heq => BindingId.mk.inj heq

end Session

section Counting

theorem card_filter_mem [DecidableEq α] (hmk : Function.Injective mk) {xs : List α}
    (hn : xs.Nodup) {n : Nat} (hlt : ∀ x ∈ xs, ∃ i < n, mk i = x) :
    ((Finset.range n).filter fun i => mk i ∈ xs).card = xs.length := by
  have himage : ((Finset.range n).filter fun i => mk i ∈ xs).image mk = xs.toFinset := by
    ext x
    simp only [Finset.mem_image, Finset.mem_filter, Finset.mem_range, List.mem_toFinset]
    constructor
    · rintro ⟨i, ⟨_, hi⟩, rfl⟩
      exact hi
    · intro hx
      obtain ⟨i, hi, rfl⟩ := hlt x hx
      exact ⟨i, ⟨hi, hx⟩, rfl⟩
  rw [← Finset.card_image_of_injective _ hmk, himage, List.toFinset_card_of_nodup hn]

theorem foldl_add_eq_sum (f : α → Nat) (d : α) (xs : List α) (n : Nat) :
    xs.foldl (fun n x => n + f x) n = n + ∑ i ∈ Finset.range xs.length, f (xs.getD i d) := by
  induction xs generalizing n with
  | nil => rfl
  | cons x xs ih =>
    rw [List.foldl_cons, ih, List.length_cons, Finset.sum_range_succ']
    simp only [List.getD_cons_succ, List.getD_cons_zero]
    omega

theorem Mirrored.count (hm : Mirrored references bindings links) :
    ∑ i ∈ Finset.range links.size, (links.getD i []).length =
      ∑ j ∈ Finset.range bindings.size, (bindings.getD j default).refs.length := by
  have hlinks : ∀ i, ((Finset.range bindings.size).filter fun j => BindingId.mk j ∈ links.getD i []).card =
      (links.getD i []).length := fun i =>
    card_filter_mem (fun _ _ heq => BindingId.mk.inj heq) (hm.linksOnce i) fun b hb =>
      ⟨b.index, hm.lt_of_mem (r := ⟨i⟩) hb, rfl⟩
  have hrefs : ∀ j, ((Finset.range links.size).filter fun i => ReferenceId.mk i ∈ (bindings.getD j default).refs).card =
      (bindings.getD j default).refs.length := fun j =>
    card_filter_mem (fun _ _ heq => ReferenceId.mk.inj heq) (hm.refsOnce j) fun r hr =>
      ⟨r.index, hm.aligned ▸ hm.lt_of_mem_refs (b := ⟨j⟩) hr, rfl⟩
  calc ∑ i ∈ Finset.range links.size, (links.getD i []).length
      = ∑ i ∈ Finset.range links.size, ((Finset.range bindings.size).filter fun j =>
          BindingId.mk j ∈ links.getD i []).card := Finset.sum_congr rfl fun i _ => (hlinks i).symm
    _ = ∑ j ∈ Finset.range bindings.size, ((Finset.range links.size).filter fun i =>
          BindingId.mk j ∈ links.getD i []).card :=
        Finset.sum_card_bipartiteAbove_eq_sum_card_bipartiteBelow fun i j => BindingId.mk j ∈ links.getD i []
    _ = ∑ j ∈ Finset.range bindings.size, (bindings.getD j default).refs.length := by
        refine Finset.sum_congr rfl fun j _ => ?_
        simp only [← hrefs j, hm.both ⟨_⟩ ⟨j⟩]

theorem Session.IsSound.count {s : Session} (hs : s.IsSound) :
    s.summary.references = (s.bindings.map fun b => (s.heap.binding b).refs.length).sum := by
  calc s.links.foldl (fun n bs => n + bs.length) 0
      = ∑ i ∈ Finset.range s.links.size, (s.links.getD i []).length := by
        rw [← Array.foldl_toList, foldl_add_eq_sum List.length [], Nat.zero_add, Array.length_toList]
        simp only [List.getD_eq_getElem?_getD, Array.getElem?_toList, Array.getD_eq_getD_getElem?]
    _ = ∑ j ∈ Finset.range s.heap.bindings.size, (s.heap.binding ⟨j⟩).refs.length := hs.mirrored.count
    _ = (s.bindings.map fun b => (s.heap.binding b).refs.length).sum := by
        rw [Session.bindings, List.map_map]
        rfl

end Counting

theorem Move.references (hm : Move env step b s s') {i : Nat} (hr : s.heap.references[i]? = some r) :
    ∃ r', s'.heap.references[i]? = some r' ∧ (r' = r ∨ step = .finish ∧ r.Becomes r') := by
  induction hm generalizing r with
  | run hrun => exact ⟨r, hrun.later.references i r hr, .inl rfl⟩
  | trans _ _ ih ih' =>
    obtain ⟨r1, hr1, h1⟩ := ih hr
    obtain ⟨r2, hr2, h2⟩ := ih' hr1
    refine ⟨r2, hr2, ?_⟩
    rcases h1 with rfl | ⟨hstep, h1⟩
    · exact h2
    rcases h2 with rfl | ⟨_, h2⟩
    · exact .inr ⟨hstep, h1⟩
    -- A construction is no call, so it is not changed again.
    rcases h1 with rfl | ⟨hcall, rfl⟩
    · exact .inr ⟨hstep, h2⟩
    · rcases h2 with rfl | ⟨hnew, _⟩
      · exact .inr ⟨hstep, .inr ⟨hcall, rfl⟩⟩
      · cases hnew
  | reclassify closing references size same =>
    obtain ⟨r', hr', hb⟩ := same i r hr
    exact ⟨r', hr', .inr ⟨closing, hb⟩⟩
  | recover _ _ ih | within _ _ ih => exact ih hr
  | _ => exact ⟨r, hr, .inl rfl⟩

/-- In every reachable session references and bindings are two sides of one relation: there is one reference at a
place; a binding is linked to a reference exactly if it holds the reference, and either is once; the bindings that
references are linked to are there, once. No step changes a reference, but that finishing turns a call into a
construction. So the linked pairs that the summary counts are as many as bindings hold references. -/
theorem references_mirror_bindings {s : Session} (hs : Reachable s) :
    s.links.size = s.heap.references.size ∧
    (∀ (i j : Nat) p q, s.heap.references[i]? = some p → s.heap.references[j]? = some q → p.file = q.file →
      p.start = q.start → i = j) ∧
    (∀ r b, b ∈ s.linked r ↔ r ∈ (s.heap.binding b).refs) ∧
    (∀ r, (s.linked r).Nodup) ∧ (∀ b, (s.heap.binding b).refs.Nodup) ∧
    (∀ r, ∀ b ∈ s.linked r, s.bindings.count b = 1) ∧
    (∀ (env : Environment) (step : SessionStep) (i : Nat) r, s.heap.references[i]? = some r →
      ∃ r', (step.run.runOn env s).2.heap.references[i]? = some r' ∧
        (r' = r ∨ step = .finish ∧ r.kind = .call ∧ r' = { r with kind := .new })) ∧
    s.summary.references = (s.bindings.map fun b => (s.heap.binding b).refs.length).sum := by
  have hsound := hs.idle.sound
  have hm := hsound.mirrored
  refine ⟨hm.aligned, fun i j p q hp hq hfile hstart => hm.places i j p q hp hq ?_, hm.both, fun r => hm.linksOnce r.index,
    fun b => hm.refsOnce b.index, fun r b hb => ?_, fun env step i r hr => ?_, hsound.count⟩
  · simp [Reference.samePlace, hfile, hstart]
  · exact List.count_eq_one_of_mem s.nodup_bindings (Session.mem_bindings.2 (hm.lt_of_mem hb))
  · obtain ⟨_, hmove⟩ := hs.moves env step
    obtain ⟨r', hr', hsame⟩ := hmove.references hr
    refine ⟨r', hr', hsame.elim .inl ?_⟩
    rintro ⟨hstep, rfl | ⟨hcall, rfl⟩⟩
    · exact .inl rfl
    · exact .inr ⟨hstep, hcall, rfl⟩

theorem references_mirror_bindings_selfReturning : ∃ s, Reachable s ∧ s.summary.references = 1 ∧
    (s.bindings.map fun b => (s.heap.binding b).refs.length).sum = 1 := by
  obtain ⟨s, s', hs, hfinish, htest⟩ := Loaded.of_endsWith rfl rfl selfReturning_endsWith
  have hs' : Reachable s' := by
    have hstep := hs.reachable.step selfReturning .finish
    rwa [hfinish] at hstep
  have hone := (of_decide_eq_true htest).2.2
  obtain ⟨_, _, _, _, _, _, _, hcount⟩ := references_mirror_bindings hs'
  exact ⟨s', hs', hone, hcount.symm.trans hone⟩

end Concordance
