import Concordance.Proofs.Session.Run

/-!
# References and bindings know of each other

Which bindings a reference is linked to is stored with the references, and which references lead to a binding with
the bindings. The two are kept in step: whatever stands on one side stands on the other, once.
-/

namespace Concordance

section Rows

variable {α : Type} [DecidableEq α] {xs : List α}

theorem mem_addOnce : x ∈ (if y ∈ xs then xs else xs ++ [y]) ↔ x ∈ xs ∨ x = y := by
  by_cases hy : y ∈ xs
  · rw [if_pos hy]
    exact ⟨.inl, fun h => h.elim id fun heq => heq ▸ hy⟩
  · rw [if_neg hy, List.mem_append, List.mem_singleton]

theorem nodup_addOnce (hn : xs.Nodup) : (if y ∈ xs then xs else xs ++ [y]).Nodup := by
  by_cases hy : y ∈ xs
  · rwa [if_pos hy]
  · rw [if_neg hy]
    exact List.nodup_append.2 ⟨hn, List.nodup_singleton y, by
      rintro a ha b hb rfl
      exact hy (List.mem_singleton.1 hb ▸ ha)⟩

end Rows

theorem modify_congr {xs : Array α} (heq : f (xs.getD i d) = g (xs.getD i d)) : xs.modify i f = xs.modify i g := by
  apply Array.ext_getElem?
  intro j
  rw [Array.getElem?_modify, Array.getElem?_modify]
  split
  · rename_i hij
    subst hij
    rw [Array.getD_eq_getD_getElem?] at heq
    cases hx : xs[i]? with
    | none => rfl
    | some x =>
      rw [hx] at heq
      exact congrArg some heq
  · rfl

theorem modify_id (xs : Array α) (i : Nat) : xs.modify i id = xs := by
  apply Array.ext_getElem?
  intro j
  rw [Array.getElem?_modify]
  split
  · exact Option.map_id_apply
  · rfl

/-- References and bindings that are linked know of each other. -/
structure Mirrored (references : Array Reference) (bindings : Array Binding) (links : Array (List BindingId)) :
    Prop where
  aligned : links.size = references.size
  places : ∀ (i j : Nat) p q, references[i]? = some p → references[j]? = some q → p.samePlace q = true → i = j
  both : ∀ (r : ReferenceId) (b : BindingId),
    b ∈ links.getD r.index [] ↔ r ∈ (bindings.getD b.index default).refs
  linksOnce : ∀ i, (links.getD i []).Nodup
  refsOnce : ∀ i, (bindings.getD i default).refs.Nodup

namespace Mirrored

section

variable (hm : Mirrored references bindings links)
include hm

theorem of_refs
    (hrefs : ∀ i, (bindings'.getD i default).refs = (bindings.getD i default).refs) :
    Mirrored references bindings' links where
  aligned := hm.aligned
  places := hm.places
  both r b := by rw [hrefs, hm.both]
  linksOnce := hm.linksOnce
  refsOnce i := by
    rw [hrefs]
    exact hm.refsOnce i

theorem of_places (hsize : references'.size = references.size)
    (hplaces : ∀ (i : Nat) r', references'[i]? = some r' →
      ∃ r, references[i]? = some r ∧ r'.file = r.file ∧ r'.start = r.start) : Mirrored references' bindings links where
  aligned := hm.aligned.trans hsize.symm
  places i j p' q' hp' hq' hsame := by
    obtain ⟨p, hp, hfile, hstart⟩ := hplaces i p' hp'
    obtain ⟨q, hq, hfile', hstart'⟩ := hplaces j q' hq'
    refine hm.places i j p q hp hq ?_
    rwa [Reference.samePlace, hfile, hstart, hfile', hstart'] at hsame
  both := hm.both
  linksOnce := hm.linksOnce
  refsOnce := hm.refsOnce

theorem newSite (r : Reference)
    (fresh : ∀ q ∈ references, r.samePlace q = false) : Mirrored (references.push r) bindings (links.push []) := by
  have hlinks : ∀ i, (links.push []).getD i [] = links.getD i [] := by
    intro i
    rw [getD_push]
    split
    · rename_i heq
      rw [heq, Array.getD_eq_getD_getElem?, Array.getElem?_eq_none (Nat.le_refl _), Option.getD_none]
    · rfl
  have hsymm : ∀ a b : Reference, a.samePlace b = b.samePlace a := fun a b => by
    rw [Reference.samePlace, Reference.samePlace, Bool.beq_comm, Bool.beq_comm (a := a.file)]
  have hnew : ∀ (i : Nat) q, references[i]? = some q → r.samePlace q = false :=
    fun i q hq => fresh q (Array.mem_of_getElem? hq)
  refine ⟨by simp [hm.aligned], fun i j p q hp hq hsame => ?_, fun r' b => by rw [hlinks, hm.both],
    fun i => hlinks i ▸ hm.linksOnce i, hm.refsOnce⟩
  rw [Array.getElem?_push] at hp hq
  -- Two references at one place are both new or both old.
  split at hp <;> split at hq
  · rename_i hi hj
    rw [hi, hj]
  · cases hp
    rw [hnew j q hq] at hsame
    cases hsame
  · cases hq
    rw [hsymm, hnew i p hp] at hsame
    cases hsame
  · exact hm.places i j p q hp hq hsame

theorem lt_of_mem {r : ReferenceId}
    (hb : b ∈ links.getD r.index []) : b.index < bindings.size := by
  by_contra hlt
  have hr := (hm.both r b).1 hb
  rw [Array.getD_eq_getD_getElem?, Array.getElem?_eq_none (Nat.le_of_not_lt hlt)] at hr
  cases hr

theorem lt_of_mem_refs {b : BindingId}
    (hr : r ∈ (bindings.getD b.index default).refs) : r.index < references.size := by
  by_contra hlt
  have hb := (hm.both r b).2 hr
  rw [Array.getD_eq_getD_getElem?, Array.getElem?_eq_none (hm.aligned ▸ Nat.le_of_not_lt hlt)] at hb
  cases hb

end

theorem any_samePlace {h : Heap} (hm : Mirrored h.references h.bindings links) (hr : r.index < h.references.size) :
    ((h.binding b).refs.any fun q => (h.reference q).samePlace (h.reference r)) = decide (r ∈ (h.binding b).refs) := by
  rw [Bool.eq_iff_iff, List.any_eq_true, decide_eq_true_iff]
  have hat : ∀ q : ReferenceId, q.index < h.references.size → h.references[q.index]? = some (h.reference q) := by
    intro q hq
    rw [Heap.reference, Array.getD_eq_getD_getElem?, Array.getElem?_eq_getElem hq, Option.getD_some]
  refine ⟨fun ⟨q, hq, hsame⟩ => ?_, fun hmem => ⟨r, hmem, by simp [Reference.samePlace]⟩⟩
  have hindex := hm.places _ _ _ _ (hat q (hm.lt_of_mem_refs hq)) (hat r hr) hsame
  cases q
  cases r
  cases hindex
  exact hq

theorem addReference_run (hm : Mirrored h.references h.bindings links) (b : BindingId)
    (hr : r.index < h.references.size) : (addReference b r).run h = ((), { h with
      bindings := h.bindings.modify b.index fun x => { x with refs := if r ∈ x.refs then x.refs else x.refs ++ [r] } }) := by
  show (if ((h.binding b).refs.any fun q => (h.reference q).samePlace (h.reference r)) = true then pure ()
    else modifyBinding b fun x => { x with refs := x.refs ++ [r] } : HeapM Unit).run h = _
  rw [hm.any_samePlace hr]
  by_cases hmem : r ∈ (h.binding b).refs
  · have hkeep : h.bindings.modify b.index
        (fun x => { x with refs := if r ∈ x.refs then x.refs else x.refs ++ [r] }) = h.bindings.modify b.index id :=
      modify_congr (d := default) (congrArg (fun refs => { h.binding b with refs }) (if_pos hmem))
    rw [if_pos (decide_eq_true hmem), hkeep, modify_id]
    rfl
  · have hadd : h.bindings.modify b.index
        (fun x => { x with refs := if r ∈ x.refs then x.refs else x.refs ++ [r] }) =
          h.bindings.modify b.index fun x => { x with refs := x.refs ++ [r] } :=
      modify_congr (d := default) (congrArg (fun refs => { h.binding b with refs }) (if_neg hmem))
    rw [if_neg (by simpa using hmem), hadd]
    rfl

end Mirrored

namespace Session

variable {s : Session} {r q : ReferenceId} {c : BindingId}

theorem mem_links_link (hr : r.index < s.links.size) :
    c ∈ (s.link r b).links.getD q.index [] ↔ c ∈ s.links.getD q.index [] ∨ q = r ∧ c = b := by
  have hq : q.index = r.index ↔ q = r := by cases q; cases r; simp
  show c ∈ (s.links.modify r.index _).getD q.index [] ↔ _
  rw [getD_modify]
  by_cases heq : q = r
  · rw [if_pos ⟨hq.2 heq, hr⟩, mem_addOnce]
    simp [heq]
  · rw [if_neg fun h => heq (hq.1 h.1)]
    simp [heq]

theorem mem_refs_link (hb : s.heap.HasBinding b) :
    q ∈ ((s.link r b).heap.bindings.getD c.index default).refs ↔
      q ∈ (s.heap.bindings.getD c.index default).refs ∨ q = r ∧ c = b := by
  have hc : c.index = b.index ↔ c = b := by cases c; cases b; simp
  show q ∈ ((s.heap.bindings.modify b.index _).getD c.index default).refs ↔ _
  rw [getD_modify]
  by_cases heq : c = b
  · rw [if_pos ⟨hc.2 heq, hb⟩, mem_addOnce]
    simp [heq]
  · rw [if_neg fun h => heq (hc.1 h.1)]
    simp [heq]

theorem mirrored_link (hm : Mirrored s.heap.references s.heap.bindings s.links) (hr : r.index < s.heap.references.size)
    (hb : s.heap.HasBinding b) :
    Mirrored (s.link r b).heap.references (s.link r b).heap.bindings (s.link r b).links where
  aligned := by
    show (s.links.modify r.index _).size = _
    rw [Array.size_modify]
    exact hm.aligned
  places := hm.places
  both q c := by rw [mem_links_link (hm.aligned ▸ hr), mem_refs_link hb, hm.both]
  linksOnce i := by
    show ((s.links.modify r.index _).getD i []).Nodup
    rw [getD_modify]
    split
    · exact nodup_addOnce (hm.linksOnce i)
    · exact hm.linksOnce i
  refsOnce i := by
    show ((s.heap.bindings.modify b.index _).getD i default).refs.Nodup
    rw [getD_modify]
    split
    · exact nodup_addOnce (hm.refsOnce i)
    · exact hm.refsOnce i

end Session

end Concordance
