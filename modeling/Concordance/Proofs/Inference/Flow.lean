import Concordance.Proofs.Heap.Work
import Concordance.Proofs.Syntax.Flow

/-!
# The types of statements and the flow of control

The type of a statement holds the marker that control goes on only if control may go on after it.
-/

namespace Concordance

open Syntax (Flow)

namespace Heap

/-- What a type says of the flow of the code that it is the type of. -/
structure Leaves (h : Heap) (t : TypeId) (f : Flow) : Prop where
  has : h.Has t
  /-- The marker is not made up. -/
  falls : .continues ∈ h.members t → f.falls = true
  /-- The marker is not lost, if branches are clear. -/
  shown : f.clear = true → f.falls = true → .continues ∈ h.members t
  /-- Where nothing is given back, there is nothing besides the marker. -/
  silent : f.gives = false → t = .continues ∨ h.ty t = .unknown

variable {h : Heap}

theorem Extends.leaves (he : Extends h h') (hl : h.Leaves t a) : h'.Leaves t a where
  has := he.has hl.has
  falls hc := hl.falls (he.members hl.has ▸ hc)
  shown hclear hfalls := he.members hl.has ▸ hl.shown hclear hfalls
  silent hgives := (hl.silent hgives).imp_right (he.unknown hl.has)

theorem IsValue.leaves (hv : h.IsValue t) : h.Leaves t .back :=
  ⟨hv.has, fun hc => absurd hc hv.unmarked, fun _ hf => (nomatch hf), fun hg => (nomatch hg)⟩

namespace IsSound

variable (hs : h.IsSound)
include hs

theorem leaves_continues : h.Leaves .continues .onward := by
  refine ⟨hs.has_continues, fun _ => rfl, fun _ _ => ?_, fun _ => .inl rfl⟩
  rw [members_of_not_union (by simp [hs.ty_continues])]
  exact List.mem_singleton.2 rfl

theorem leaves_unknown : h.Leaves .unknown .away :=
  ⟨hs.isValue_unknown.has, fun hc => absurd hc hs.isValue_unknown.unmarked, fun _ hf => (nomatch hf),
    fun _ => .inr hs.ty_unknown⟩

theorem members_of_silent (ht : t = .continues ∨ h.ty t = .unknown) : h.members t = [t] := by
  refine members_of_not_union fun ms hms => ?_
  rcases ht with rfl | hu
  · cases hs.ty_continues.symm.trans hms
  · cases hu.symm.trans hms

theorem known_of_continues (hc : .continues ∈ h.members t) : h.ty t ≠ .unknown := by
  intro hu
  rw [hs.members_of_silent (.inr hu), List.mem_singleton] at hc
  rw [← hc, hs.ty_continues] at hu
  cases hu

end IsSound

theorem Leaves.equal_eq_false (hs : h.IsSound) (hu : h.Leaves u a) (hv : h.Leaves v b)
    (hclear : a.gives = false ∨ b.gives = false) (hcu : .continues ∉ h.members u) (hcv : .continues ∈ h.members v) :
    h.equal u v = false := by
  by_contra heq
  have heq : h.equal u v = true := by simpa using heq
  have hne : u ≠ .continues := by
    rintro rfl
    exact hcu (hs.leaves_continues.shown rfl rfl)
  have hkv : h.ty v ≠ .unknown := hs.known_of_continues hcv
  rcases hclear with hgives | hgives
  · rcases hu.silent hgives with rfl | hunknown
    · exact hne rfl
    · exact known_of_equal heq hkv hunknown
  · rcases hv.silent hgives with rfl | hunknown
    · exact hne (hs.equal_continues.1 heq)
    · exact hkv hunknown

theorem Merges.leaves (hm : h.Merges u v w h') (hs : h.IsSound) (hs' : h'.IsSound) (hu : h.Leaves u a)
    (hv : h.Leaves v b) : h'.Leaves w (a.orElse b) where
  has := hm.has
  falls hc := by
    refine Bool.or_eq_true_iff.2 ?_
    exact ((hm.continues_iff hs).1 hc).imp hu.falls fun hc => hv.falls hc.1
  shown hclear hfalls := by
    simp only [Flow.orElse, Bool.and_eq_true, Bool.or_eq_true, Bool.not_eq_true'] at hclear hfalls
    obtain ⟨⟨hca, hcb⟩, hbranches⟩ := hclear
    refine (hm.continues_iff hs).2 ?_
    by_cases hcu : .continues ∈ h.members u
    · exact .inl hcu
    -- Then only the second branch goes on, and one of the two gives nothing back.
    have hfa : a.falls ≠ true := fun hfa => hcu (hu.shown hca hfa)
    have hfb : b.falls = true := hfalls.resolve_left hfa
    have hcv := hv.shown hcb hfb
    refine .inr ⟨hcv, hu.equal_eq_false hs hv ?_ hcu hcv⟩
    exact Bool.and_eq_false_iff.1 (hbranches.resolve_left fun h => h.elim hfa (by simp [hfb]))
  silent hgives := by
    obtain ⟨hga, hgb⟩ := Bool.or_eq_false_iff.1 hgives
    have hmember : ∀ m ∈ h'.members w, m = .continues ∨ h'.ty m = .unknown := by
      intro m hmem
      have hhas := hm.has_member hs hu.has hv.has hmem
      rw [hm.only.holds.types m hhas]
      rcases hm.within m hmem with hmem | ⟨hmem, _⟩
      · rw [hs.members_of_silent (hu.silent hga), List.mem_singleton] at hmem
        exact hmem ▸ hu.silent hga
      · rw [hs.members_of_silent (hv.silent hgb), List.mem_singleton] at hmem
        exact hmem ▸ hv.silent hgb
    by_cases hunion : ∃ ms, h'.ty w = .union ms
    · -- The members of a union are known, hence all of them would be the marker; but they are different.
      obtain ⟨ms, hms⟩ := hunion
      rw [members_of_union hms] at hmember
      obtain ⟨hlen, hdiff, hparts⟩ : h'.Fits (.union ms) := hms ▸ hs'.types w
      have hall : ∀ m ∈ ms, m = .continues := fun m hm => (hmember m hm).resolve_right (hparts m hm).2.1
      match ms, hlen with
      | m :: m' :: _, _ =>
        have heq : m = m' := (hall m (by simp)).trans (hall m' (by simp)).symm
        simp [heq] at hdiff
    · have hnot : ∀ ms, h'.ty w ≠ .union ms := fun ms hms => hunion ⟨ms, hms⟩
      exact hmember w (members_of_not_union hnot ▸ List.mem_singleton.2 rfl)

theorem Leaves.andThen (hl : h.Leaves t a) (hc : .continues ∉ h.members t) (b : Flow) : h.Leaves t (a.andThen b) where
  has := hl.has
  falls hc' := absurd hc' hc
  shown hclear hfalls :=
    absurd (hl.shown (Bool.and_eq_true_iff.1 hclear).1 (Bool.and_eq_true_iff.1 hfalls).1) hc
  silent hgives := hl.silent (Bool.or_eq_false_iff.1 hgives).1

theorem IsSound.leaves_final (hs : h.IsSound) (ht : h.Leaves t a) (hu : h.Leaves u b) :
    h.Leaves (if h.mayContinue u = true then t else u) (a.andThen b) := by
  split
  · rename_i hmay
    have hfalls := hu.falls (hs.mayContinue_iff.1 hmay)
    refine ⟨ht.has, fun hc => Bool.and_eq_true_iff.2 ⟨ht.falls hc, hfalls⟩, fun hclear hf => ?_, fun hg => ?_⟩
    · exact ht.shown (Bool.and_eq_true_iff.1 hclear).1 (Bool.and_eq_true_iff.1 hf).1
    · exact ht.silent (Bool.or_eq_false_iff.1 hg).1
  · rename_i hmay
    have hc : .continues ∉ h.members u := fun hc => hmay (hs.mayContinue_iff.2 hc)
    refine ⟨hu.has, fun hc' => absurd hc' hc, fun hclear hf => ?_, fun hg => hu.silent (Bool.or_eq_false_iff.1 hg).2⟩
    exact absurd (hu.shown (Bool.and_eq_true_iff.1 hclear).2 (Bool.and_eq_true_iff.1 hf).2) hc

/-- The type of a block up to some statement, and whether control has left the block: it has if the marker is
missing. -/
structure Carries (h : Heap) (soFar : TypeId × Bool) (f : Flow) : Prop where
  leaves : h.Leaves soFar.1 f
  marked : .continues ∈ h.members soFar.1 ↔ soFar.2 = false

end Heap

section Work

variable {h : Heap} {b : Flow}

theorem union_leaves (hu : h.Leaves u a) (hv : h.Leaves v b) : Does h (union u v) fun w h' =>
    h'.Leaves w (a.orElse b) ∧
      (.continues ∈ h.members u ∨ a.gives = false ∧ .continues ∈ h.members v → .continues ∈ h'.members w) := by
  refine .of_sound fun hs => (does_union hu.has hv.has).mono fun w h' he hm => ?_
  refine ⟨hm.leaves hs (he.isSound hs) hu hv, fun hmarked => (hm.continues_iff hs).2 ?_⟩
  by_cases hcu : .continues ∈ h.members u
  · exact .inl hcu
  · obtain ⟨hgives, hcv⟩ := hmarked.resolve_left hcu
    exact .inr ⟨hcv, hu.equal_eq_false hs hv (.inl hgives) hcu hcv⟩

theorem stripContinues_silent (ht : t = .continues ∨ h.ty t = .unknown) :
    Does h (stripContinues t .unknown) fun w h' => h'.ty w = .unknown := by
  refine .of_sound fun hs => .get_bind ?_
  rcases ht with rfl | hu
  · rw [if_pos (hs.equal_continues.2 rfl)]
    exact .pure hs.ty_unknown
  · have hne : ¬ h.equal t .continues = true := by
      rw [hs.equal_continues]
      rintro rfl
      cases hs.ty_continues.symm.trans hu
    rw [if_neg hne, hu]
    exact .pure hu

theorem stripContinues_leaves (hl : h.Leaves t a) (hb : b.falls = false ∨ b.clear = false)
    (hgives : b.gives = false → a.gives = false) :
    Does h (stripContinues t .unknown) fun w h' => h'.Leaves w b ∧ .continues ∉ h'.members w := by
  refine .of_sound fun hs => ⟨fun _ => ?_⟩
  -- What is left is a type of a value, so only what it gives back has to be looked at.
  obtain ⟨he, hvalue⟩ := (stripContinues_value hl.has hs.isValue_unknown).run hs
  refine ⟨he, ⟨hvalue.has, fun hc => absurd hc hvalue.unmarked, fun hclear hfalls => ?_, fun hg => .inr ?_⟩, hvalue.unmarked⟩
  · simp [hclear, hfalls] at hb
  · exact ((stripContinues_silent (hl.silent (hgives hg))).run hs).2

end Work

end Concordance
