import Concordance.Proofs.Heap.Work

/-!
# Plain types

Numbers and texts, classes, objects, functions and modules have no parts.
-/

namespace Concordance

def Ty.isPlain : Ty → Bool
  | .scalar _ | .function .. | .classObject _ | .object .. | .module _ => true
  | _ => false

namespace Heap

variable {h h' : Heap} {b m t u v : TypeId}

def Includes (h : Heap) (t m : TypeId) : Prop := ∃ m' ∈ h.members t, h.equal m' m = true

def Retains (h h' : Heap) : Prop := ∀ b, h.HasBinding b → h'.HasBinding b ∧
  ∀ m ∈ h.members (h.binding b).type, (h.ty m).isPlain = true → h'.Includes (h'.binding b).type m

/-- Two unions that are taken to be equal, so that the second is not merged into the first. -/
def TakenEqual (h : Heap) (u v : TypeId) : Prop :=
  (∃ us, h.ty u = .union us) ∧ (∃ vs, h.ty v = .union vs) ∧ h.equal u v = true

def samePlain (h : Heap) : Ty → Ty → Bool
  | .scalar m, .scalar n => m == n
  | .function f _, .function g _ => h.sameFunction f g
  | .object c _, .object d _ => c == d
  | .module m, .module n => h.sameFile m n
  | _, _ => false

theorem includes_self (hm : m ∈ h.members t) : h.Includes t m := ⟨m, hm, h.equal_self m⟩

theorem members_of_isPlain (hm : (h.ty m).isPlain = true) : h.members m = [m] :=
  members_of_not_union fun ms hms => by simp [hms, Ty.isPlain] at hm

theorem has_of_isPlain (hm : (h.ty m).isPlain = true) : h.Has m :=
  has_of_ty_ne fun hty => by simp [hty, Ty.isPlain] at hm

theorem known_of_isPlain (hm : (h.ty m).isPlain = true) : h.ty m ≠ .unknown :=
  fun hty => by simp [hty, Ty.isPlain] at hm

section Equality

theorem equal_of_isPlain (hm : (h.ty m).isPlain = true) :
    h.equal a m = (a == m || h.samePlain (h.ty a) (h.ty m)) := by
  by_cases ham : a = m
  · simp [equal, ham]
  have hcompare : ((h.compare h.compareFuel a m).run []).1 = h.samePlain (h.ty a) (h.ty m) := by
    rw [compareFuel, compare_succ, if_neg (by simp [ham])]
    -- Types without parts are compared at once: no pairs are met inside.
    cases hty : h.ty m with
    | scalar | function | classObject | object | module => cases h.ty a <;> rfl
    | _ => simp [hty, Ty.isPlain] at hm
  rw [equal, hcompare]

theorem isPlain_of_samePlain {t : Ty} (hst : h.samePlain s t = true) : s.isPlain = true := by
  cases s <;> cases t <;> first | rfl | cases hst

theorem isPlain_of_equal (hm : (h.ty m).isPlain = true) (heq : h.equal a m = true) : (h.ty a).isPlain = true := by
  rw [equal_of_isPlain hm, Bool.or_eq_true, beq_iff_eq] at heq
  rcases heq with rfl | hsame
  · exact hm
  · exact isPlain_of_samePlain hsame

theorem samePlain_trans {t u : Ty} (hst : h.samePlain s t = true) (htu : h.samePlain t u = true) :
    h.samePlain s u = true := by
  cases s <;> cases t <;> first | cases hst | skip
  all_goals cases u <;> first | cases htu | skip
  · simp only [samePlain, beq_iff_eq] at hst htu ⊢
    exact hst.trans htu
  · simp only [samePlain, sameFunction_iff] at hst htu ⊢
    grind
  · simp only [samePlain, beq_iff_eq] at hst htu ⊢
    exact hst.trans htu
  · simp only [samePlain, sameFile_iff] at hst htu ⊢
    grind

theorem equal_trans_of_isPlain (hm : (h.ty m).isPlain = true) (hab : h.equal a b = true) (hbm : h.equal b m = true) :
    h.equal a m = true := by
  rw [equal_of_isPlain (isPlain_of_equal hm hbm), Bool.or_eq_true, beq_iff_eq] at hab
  rcases hab with rfl | hab
  · exact hbm
  rw [equal_of_isPlain hm, Bool.or_eq_true, beq_iff_eq] at hbm ⊢
  rcases hbm with rfl | hbm
  · exact .inr hab
  · exact .inr (samePlain_trans hab hbm)

end Equality

/-- What plain types depend on: what there is of types, the code of functions and the files of modules. -/
structure Prolongs (h h' : Heap) : Prop where
  types : Extends h h'
  codes : ∀ f c, (h.function f).code = some c → (h'.function f).code = some c
  files : ∀ m path, (h.module m).file = some path → (h'.module m).file = some path

namespace Prolongs

variable (hc : Prolongs h h')
include hc

theorem ty_eq (hm : (h.ty m).isPlain = true) : h'.ty m = h.ty m := by
  refine (hc.types.alike m (has_of_isPlain hm)).resolve_right fun hwiden => ?_
  revert hm hwiden
  cases h.ty m <;> cases h'.ty m <;> simp [Ty.isPlain, Widens]

theorem samePlain {t : Ty} (hst : h.samePlain s t = true) : h'.samePlain s t = true := by
  cases s <;> cases t <;> first | cases hst | skip
  · exact hst
  · rw [Heap.samePlain, sameFunction_iff] at hst ⊢
    rcases hst with rfl | ⟨c, d, hf, hg, href⟩
    · exact .inl rfl
    · exact .inr ⟨c, d, hc.codes _ c hf, hc.codes _ d hg, href⟩
  · exact hst
  · rw [Heap.samePlain, sameFile_iff] at hst ⊢
    obtain ⟨path, hm, hn⟩ := hst
    exact ⟨path, hc.files _ _ hm, hc.files _ _ hn⟩

theorem equal (hm : (h.ty m).isPlain = true) (heq : h.equal a m = true) : h'.equal a m = true := by
  have ha := hc.ty_eq (isPlain_of_equal hm heq)
  have hm' := hc.ty_eq hm
  rw [equal_of_isPlain hm, Bool.or_eq_true] at heq
  rw [equal_of_isPlain (hm' ▸ hm), Bool.or_eq_true, ha, hm']
  exact heq.imp_right hc.samePlain

theorem includes (hm : (h.ty m).isPlain = true) (hi : h.Includes t m) : h'.Includes t m := by
  obtain ⟨m', hmem, heq⟩ := hi
  -- A type that is not there yet is unknown, and so includes nothing plain.
  have ht : h.Has t := by
    by_contra hnot
    have hty : h.ty t = .unknown := by
      by_contra hne
      exact hnot (has_of_ty_ne hne)
    rw [members_of_not_union (by simp [hty]), List.mem_singleton] at hmem
    exact hnot (hmem ▸ has_of_isPlain (isPlain_of_equal hm heq))
  exact ⟨m', hc.types.members ht ▸ hmem, hc.equal hm heq⟩

theorem retains (same : ∀ b, h.HasBinding b → h'.HasBinding b ∧ (h'.binding b).type = (h.binding b).type) :
    h.Retains h' := by
  intro b hb
  obtain ⟨hb', htype⟩ := same b hb
  refine ⟨hb', fun m hm hplain => ?_⟩
  rw [htype]
  exact hc.includes hplain (includes_self hm)

end Prolongs

theorem Retains.refl (h : Heap) : h.Retains h := fun _ hb => ⟨hb, fun _ hm _ => includes_self hm⟩

theorem Retains.includes (hr : h.Retains h') (hc : Prolongs h h') {b : BindingId} (hb : h.HasBinding b)
    (hplain : (h.ty m).isPlain = true) (hi : h.Includes (h.binding b).type m) : h'.Includes (h'.binding b).type m := by
  obtain ⟨m', hm', heq⟩ := hi
  obtain ⟨m'', hm'', heq'⟩ := (hr b hb).2 m' hm' (isPlain_of_equal hplain heq)
  -- The alternative may have been replaced by an equal one; between plain types that is no loss.
  refine ⟨m'', hm'', equal_trans_of_isPlain ?_ heq' (hc.equal hplain heq)⟩
  rwa [hc.ty_eq hplain]

theorem Retains.trans (hr : h.Retains h') (hr' : h'.Retains h'') (hc : Prolongs h h') (hc' : Prolongs h' h'') :
    h.Retains h'' := by
  intro b hb
  obtain ⟨hb', hkept⟩ := hr b hb
  refine ⟨(hr' b hb').1, fun m hm hplain => hr'.includes hc' hb' ?_ (hkept m hm hplain)⟩
  rwa [hc.ty_eq hplain]

end Heap

section Merging

variable {h : Heap}

open Heap (Includes TakenEqual)

theorem Heap.prolongs_push (h : Heap) (ty : Ty) : Prolongs h { h with types := h.types.push ty } := by
  refine ⟨⟨by simp, fun t ht => .inl ?_⟩, fun _ _ hc => hc, fun _ _ hf => hf⟩
  rw [ty_push, if_neg (Nat.ne_of_lt ht)]

theorem includes_unionOf (ht : t ∈ ts) (hm : m ∈ h.members t) (hplain : (h.ty m).isPlain = true) :
    ((unionOf ts).run h).2.Includes ((unionOf ts).run h).1 m := by
  obtain ⟨m', hm', heq⟩ := Heap.exists_equal_unionMembers ht hm (Heap.known_of_isPlain hplain)
  rw [run_unionOf]
  split
  · rename_i hnil
    rw [hnil] at hm'
    cases hm'
  · rename_i w hone
    rw [hone, List.mem_singleton] at hm'
    subst hm'
    -- A single alternative stands for itself.
    refine ⟨m', ?_, heq⟩
    rw [Heap.members_of_isPlain (Heap.isPlain_of_equal hplain heq)]
    exact List.mem_singleton.2 rfl
  · have hty : Heap.ty { h with types := h.types.push (.union (h.unionMembers ts)) } ⟨h.types.size⟩ =
        .union (h.unionMembers ts) := Heap.ty_push.trans (if_pos rfl)
    refine ⟨m', ?_, (h.prolongs_push _).equal hplain heq⟩
    rw [Heap.members_of_union hty]
    exact hm'

theorem includes_union_left (hm : m ∈ h.members u) (hplain : (h.ty m).isPlain = true) :
    ((union u v).run h).2.Includes ((union u v).run h).1 m := by
  rw [run_union]
  split
  · exact Heap.includes_self hm
  · split
    · rename_i hu
      -- Nothing is plain in the unknown type.
      have hty := Heap.isUnknown_iff.1 hu
      rw [Heap.members_of_not_union (by simp [hty]), List.mem_singleton] at hm
      rw [hm, hty] at hplain
      cases hplain
    · split
      · exact Heap.includes_self hm
      · exact includes_unionOf (.head _) hm hplain

theorem Heap.includes_of_equal (heq : h.equal u v = true) (hm : m ∈ h.members v) (hplain : (h.ty m).isPlain = true) :
    h.Includes u m ∨ h.TakenEqual u v := by
  by_cases huv : u = v
  · exact .inl (includes_self (huv ▸ hm))
  -- A union is equal to unions only; anything else is its own only alternative.
  by_cases hv : ∃ vs, h.ty v = .union vs
  · right
    obtain ⟨vs, hvs⟩ := hv
    refine ⟨?_, ⟨vs, hvs⟩, heq⟩
    by_contra hu
    have hrun : ((h.compare h.compareFuel u v).run []).1 = true := by simpa [equal, huv] using heq
    rw [compareFuel, compare_succ, if_neg (by simp [huv]), hvs] at hrun
    cases hty : h.ty u with
    | union us => exact hu ⟨us, hty⟩
    | _ =>
      rw [hty] at hrun
      cases hrun
  · left
    rw [members_of_not_union fun vs hvs => hv ⟨vs, hvs⟩, List.mem_singleton] at hm
    subst hm
    refine ⟨u, ?_, heq⟩
    rw [members_of_isPlain (isPlain_of_equal hplain heq)]
    exact List.mem_singleton.2 rfl

theorem includes_union_right (hm : m ∈ h.members v) (hplain : (h.ty m).isPlain = true) :
    ((union u v).run h).2.Includes ((union u v).run h).1 m ∨ h.TakenEqual u v := by
  rw [run_union]
  split
  · rename_i heq
    exact Heap.includes_of_equal heq hm hplain
  · left
    split
    · exact Heap.includes_self hm
    · split
      · rename_i hv
        have hty := Heap.isUnknown_iff.1 hv
        rw [Heap.members_of_not_union (by simp [hty]), List.mem_singleton] at hm
        rw [hm, hty] at hplain
        cases hplain
      · exact includes_unionOf (.tail _ (List.mem_singleton.2 rfl)) hm hplain

end Merging

end Concordance
