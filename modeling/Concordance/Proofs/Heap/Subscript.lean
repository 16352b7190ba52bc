import Mathlib.Data.List.Forall2
import Concordance.Graph.Subscript
import Concordance.Proofs.Heap.Merge

/-!
# Subscripts of rows

Lists, tuples and texts that are subscripted with a number. Types that are merged one after the other are comprised by
what comes out, up to comparisons (`Heap.Comprises`).
-/

namespace Concordance

namespace Heap

variable {h : Heap}

/-- Nothing has happened to a heap but that types were added. -/
structure Grows (h g : Heap) : Prop where
  only : h.OnlyTypes g
  size : h.types.size ≤ g.types.size

namespace Grows

theorem refl (h : Heap) : h.Grows h := ⟨.refl h, Nat.le_refl _⟩

theorem trans (hg : h.Grows g) (hk : g.Grows k) : h.Grows k := by
  refine ⟨⟨⟨fun t ht => ?_, fun f => ?_, fun m => ?_⟩, ?_⟩, hg.size.trans hk.size⟩
  · exact (hk.only.holds.types t (Nat.lt_of_lt_of_le ht hg.size)).trans (hg.only.holds.types t ht)
  · exact (hk.only.holds.codes f).trans (hg.only.holds.codes f)
  · exact (hk.only.holds.files m).trans (hg.only.holds.files m)
  · rw [hk.only.rest, hg.only.rest]

variable (hg : h.Grows g)
include hg

theorem has (ht : h.Has t) : g.Has t := Nat.lt_of_lt_of_le ht hg.size

theorem ty (ht : h.Has t) : g.ty t = h.ty t := hg.only.holds.types t ht

theorem members (ht : h.Has t) : g.members t = h.members t := by rw [Heap.members, Heap.members, hg.ty ht]

theorem equal (hs : h.IsSound) (hu : h.Has u) (hv : h.Has v) : g.equal u v = h.equal u v :=
  hg.only.holds.equal hs hg.size hu hv

end Grows

/-- Types that exist and lead to each other by a chain of comparisons. -/
def Linked (h : Heap) : TypeId → TypeId → Prop :=
  Relation.ReflTransGen fun a b => h.Has a ∧ h.Has b ∧ h.equal a b = true

theorem Linked.known (hl : h.Linked u v) (hk : h.ty v ≠ .unknown) : h.ty u ≠ .unknown := by
  induction hl using Relation.ReflTransGen.head_induction_on with
  | refl => exact hk
  | head hab _ ih => exact known_of_equal hab.2.2 ih

/-- A type is contained in another one: the known alternatives of a type that it is taken to be equal to are there, up to
comparisons. -/
def Contains (h : Heap) (v t : TypeId) : Prop := ∃ u, h.Has u ∧ h.equal u t = true ∧
  ∀ m ∈ h.members u, h.ty m ≠ .unknown → ∃ m' ∈ h.members v, h.Linked m' m

/-- A type that contains some types and nothing else that is known. -/
structure Comprises (h : Heap) (v : TypeId) (ts : List TypeId) : Prop where
  has : h.Has v
  parts : ∀ t ∈ ts, h.Has t
  contains : ∀ t ∈ ts, h.Contains v t
  within : ∀ m ∈ h.members v, h.ty m = .unknown ∨ ∃ t ∈ ts, m ∈ h.members t

theorem Contains.mono (hc : h.Contains v t) (hs : h.IsSound) (hg : h.Grows g) (hv : h.Has v) (ht : h.Has t) :
    g.Contains v t := by
  obtain ⟨u, hu, heq, hkept⟩ := hc
  refine ⟨u, hg.has hu, (hg.equal hs hu ht).trans heq, fun m hm hk => ?_⟩
  rw [hg.members hu] at hm
  rw [hg.ty (hs.has_of_mem_members hu hm).1] at hk
  obtain ⟨m', hm', hl⟩ := hkept m hm hk
  refine ⟨m', (hg.members hv).symm ▸ hm', Relation.ReflTransGen.mono (fun a b hab => ?_) _ _ hl⟩
  exact ⟨hg.has hab.1, hg.has hab.2.1, (hg.equal hs hab.1 hab.2.1).trans hab.2.2⟩

theorem Comprises.mono (hc : h.Comprises v ts) (hs : h.IsSound) (hg : h.Grows g) : g.Comprises v ts := by
  refine ⟨hg.has hc.has, fun t ht => hg.has (hc.parts t ht), fun t ht => ?_, fun m hm => ?_⟩
  · exact (hc.contains t ht).mono hs hg hc.has (hc.parts t ht)
  · rw [hg.members hc.has] at hm
    rw [hg.ty (hs.has_of_mem_members hc.has hm).1]
    refine (hc.within m hm).imp_right fun ht => ?_
    obtain ⟨t, ht, hm⟩ := ht
    exact ⟨t, ht, (hg.members (hc.parts t ht)).symm ▸ hm⟩

theorem comprises_self (ht : h.Has t) : h.Comprises t [t] :=
  ⟨ht, by simpa, by simpa using ⟨t, ht, h.equal_self t, fun m hm _ => ⟨m, hm, .refl⟩⟩, fun m hm => .inr (by simpa)⟩

theorem comprises_unknown (hs : h.IsSound) : h.Comprises .unknown [] := by
  refine ⟨hs.isValue_unknown.has, by simp, by simp, fun m hm => .inl ?_⟩
  rw [members_of_not_union (by simp [hs.ty_unknown]), List.mem_singleton] at hm
  exact hm ▸ hs.ty_unknown

end Heap

open Heap

variable {h g : Heap}

theorem Heap.Comprises.union (hc : h.Comprises acc ts) (ht : h.Has t) :
    Does h (union acc t) fun v g => h.Grows g ∧ g.Comprises v (ts ++ [t]) := by
  refine .of_sound fun hs => (does_union hc.has ht).mono fun v g he hm => ?_
  have hg : h.Grows g := ⟨hm.only, he.toExtends.size_le⟩
  have hlink : ∀ {a b}, h.Has a → h.Has b → h.equal a b = true → g.Linked a b := fun ha hb heq =>
    .single ⟨hg.has ha, hg.has hb, (hg.equal hs ha hb).trans heq⟩
  have hmember : ∀ {m}, m ∈ g.members v → h.Has m := fun hmem => hm.has_member hs hc.has ht hmem
  refine ⟨hg, hm.has, fun x hx => ?_, fun x hx => ?_, fun x hx => ?_⟩
  · rcases List.mem_append.1 hx with hx | hx
    · exact hg.has (hc.parts x hx)
    · exact hg.has (List.mem_singleton.1 hx ▸ ht)
  · rcases List.mem_append.1 hx with hx | hx
    · -- What was contained before is linked to alternatives that are kept.
      obtain ⟨u, hu, heq, hkept⟩ := (hc.contains x hx).mono hs hg hc.has (hc.parts x hx)
      refine ⟨u, hu, heq, fun m hmem hk => ?_⟩
      obtain ⟨m', hm', hl⟩ := hkept m hmem hk
      have hk' := hl.known hk
      rw [hg.members hc.has] at hm'
      have hhas := (hs.has_of_mem_members hc.has hm').1
      rw [hg.ty hhas] at hk'
      obtain ⟨m'', hm'', heq'⟩ := hm.left m' hm' hk'
      exact ⟨m'', hm'', .trans (hlink (hmember hm'') hhas heq') hl⟩
    · obtain rfl := List.mem_singleton.1 hx
      cases heq : h.equal acc x with
      | true =>
        refine ⟨acc, hg.has hc.has, (hg.equal hs hc.has ht).trans heq, fun m hmem hk => ?_⟩
        rw [hg.members hc.has] at hmem
        have hhas := (hs.has_of_mem_members hc.has hmem).1
        obtain ⟨m', hm', heq'⟩ := hm.left m hmem (hg.ty hhas ▸ hk)
        exact ⟨m', hm', hlink (hmember hm') hhas heq'⟩
      | false =>
        refine ⟨x, hg.has ht, g.equal_self x, fun m hmem hk => ?_⟩
        rw [hg.members ht] at hmem
        have hhas := (hs.has_of_mem_members ht hmem).1
        obtain ⟨m', hm', heq'⟩ := hm.right m hmem (hg.ty hhas ▸ hk) heq
        exact ⟨m', hm', hlink (hmember hm') hhas heq'⟩
  · rcases hm.within x hx with hx | ⟨hx, -⟩
    · rw [hg.ty (hs.has_of_mem_members hc.has hx).1]
      refine (hc.within x hx).imp_right fun hy => ?_
      obtain ⟨y, hy, hxy⟩ := hy
      exact ⟨y, List.mem_append_left _ hy, (hg.members (hc.parts y hy)).symm ▸ hxy⟩
    · exact .inr ⟨t, by simp, (hg.members ht).symm ▸ hx⟩

theorem Heap.Comprises.foldlM (hc : h.Comprises acc us) (hts : ∀ t ∈ ts, h.Has t) :
    Does h (ts.foldlM Concordance.union acc) fun v g => h.Grows g ∧ g.Comprises v (us ++ ts) := by
  induction ts generalizing h acc us with
  | nil => exact .pure ⟨.refl h, by rwa [List.append_nil]⟩
  | cons t ts ih =>
    rw [List.foldlM_cons]
    refine (hc.union (hts t (.head _))).bind fun v g _ hv => ?_
    have hrest := ih hv.2 fun x hx => hv.1.has (hts x (.tail _ hx))
    refine hrest.mono fun w k _ hw => ⟨hv.1.trans hw.1, ?_⟩
    rw [List.append_cons]
    exact hw.2

section Rows

/-- A row: a list, a tuple or a text. -/
inductive Heap.IsRow (h : Heap) (t : TypeId) : Prop
  | list {e : TypeId} {shape : Option (List TypeId)} (ty : h.ty t = .list e shape)
  | tuple {es : List TypeId} (ty : h.ty t = .tuple es)
  | text (isText : h.isText t = true)

/-- What a row has as elements: those of a list have one type, those of a tuple have all of theirs, and those of a text are
texts of its kind. -/
def Heap.IsElement (h : Heap) (t e : TypeId) : Prop :=
  match h.ty t with
  | .list e' _ => e = e'
  | .tuple es => h.Comprises e es
  | _ => e = t

theorem Heap.IsRow.mono (hrow : h.IsRow t) (hg : h.Grows g) (ht : h.Has t) : g.IsRow t := by
  cases hrow with
  | list ty => exact .list ((hg.ty ht).trans ty)
  | tuple ty => exact .tuple ((hg.ty ht).trans ty)
  | text isText => exact .text (by rwa [Heap.isText, hg.ty ht])

theorem Heap.IsElement.mono (he : h.IsElement t e) (hs : h.IsSound) (hg : h.Grows g) (ht : h.Has t) :
    g.IsElement t e := by
  unfold IsElement at he ⊢
  rw [hg.ty ht]
  split at he
  · exact he
  · exact he.mono hs hg
  · exact he

theorem exists_scalar_of_isText (htext : h.isText t = true) : ∃ name, h.ty t = .scalar name := by
  unfold isText at htext
  split at htext
  · exact ⟨_, ‹_›⟩
  · cases htext

/-- The kind of problem that is reported for a row whose index does not count as one. -/
def Heap.problemOf (h : Heap) (t : TypeId) : ProblemKind := if h.isText t then .wrongSubscript else .notSliceable

end Rows

section Reports

/-- Work on the heap that reports problems. -/
abbrev Reporting := StateT (List (ProblemKind × String)) HeapM

def note (kind : ProblemKind) (message : String) : Reporting Unit := modify (· ++ [(kind, message)])

variable {log : List (ProblemKind × String)}

theorem does_lift_bind {f : α → Reporting TypeId} (hx : Does h x P)
    (hf : ∀ a g, h.Evolves g → P a g → Does g ((f a).run log) Q) : Does h ((liftM x >>= f).run log) Q := by
  have hrun : (liftM x >>= f).run log = x >>= fun a => (f a).run log := rfl
  rw [hrun]
  exact hx.bind hf

theorem does_get_bind {f : Heap → Reporting TypeId} (hf : Does h ((f h).run log) Q) :
    Does h ((liftM (get : HeapM Heap) >>= f).run log) Q := ⟨hf.run⟩

/-- What is made for each of some types, with the kinds of problems that are reported, is merged and reported one after the
other. -/
theorem does_foldlM_union {f : TypeId → Reporting TypeId} {E : Heap → TypeId → TypeId × List ProblemKind → Prop}
    (xs : List TypeId) (hE : ∀ {g k x r}, x ∈ xs → g.IsSound → h.Grows g → g.Grows k → E g x r → E k x r)
    (hf : ∀ x ∈ xs, ∀ g log, h.Grows g → Does g ((f x).run log) fun r k => k.Has r.1 ∧ g.Grows k ∧
      ∃ kinds, r.2.map Prod.fst = log.map Prod.fst ++ kinds ∧ E k x (r.1, kinds)) (hc : h.Comprises acc ts) :
    Does h ((xs.foldlM (fun acc x => do (union acc (← f x) : HeapM TypeId)) acc).run log) fun r g => h.Grows g ∧
      ∃ rs, List.Forall₂ (E g) xs rs ∧ g.Comprises r.1 (ts ++ rs.map Prod.fst) ∧
        r.2.map Prod.fst = log.map Prod.fst ++ rs.flatMap Prod.snd := by
  induction xs generalizing h acc ts log with
  | nil => exact .pure ⟨.refl h, [], .nil, by simpa, by simp⟩
  | cons x xs ih =>
    refine .of_sound fun hs => ?_
    rw [List.foldlM_cons, bind_assoc, StateT.run_bind]
    refine (hf x (.head _) h log (.refl h)).bind fun r g he hx => ?_
    obtain ⟨hhas, hg, kinds, hkinds, hx⟩ := hx
    refine does_lift_bind ((hc.mono hs hg).union hhas) fun v k he' hv => ?_
    have hk := hg.trans hv.1
    refine (ih (fun hx hs hg => hE (.tail _ hx) hs (hk.trans hg))
      (fun y hy l log hl => hf y (.tail _ hy) l log (hk.trans hl)) hv.2).mono fun w l _ hw => ?_
    obtain ⟨hl, rs, hrs, hcomp, hlog⟩ := hw
    refine ⟨hk.trans hl, (r.1, kinds) :: rs, .cons ?_ hrs, by simpa using hcomp, by simp [hlog, hkinds]⟩
    exact hE (.head _) (he.isSound hs) hg (hv.1.trans hl) hx

variable (apply : FunctionId → TypeId → Reporting TypeId)

theorem does_subscriptList (hslice : h.isSlice index = false) (hlist : h.tableOf? list = none) :
    Does h ((subscriptList note apply list e index).run log) fun r g => g = h ∧
      r.1 = (if h.isIndex index then e else .unknown) ∧
      r.2.map Prod.fst = log.map Prod.fst ++ if h.isIndex index then [] else [.notSliceable] := by
  have hattr : ∀ name, h.attrOf list name = none := fun name => by rw [attrOf, hlist]
  refine does_get_bind ?_
  simp only [hslice, Bool.false_eq_true, if_false]
  cases h.isIndex index with
  | true => exact .pure ⟨rfl, rfl, by simp⟩
  | false =>
    simp only [Bool.false_eq_true, if_false]
    refine does_get_bind ?_
    simp only [subscriptMethods, hattr, List.findSome?_cons, List.findSome?_nil, Option.map_none]
    exact .pure ⟨rfl, rfl, List.map_append⟩

theorem isIndex_congr (hty : g.ty index = h.ty index) : g.isIndex index = h.isIndex index := by
  simp [isIndex, isUnknown, isNumeric, hty]

theorem isSlice_congr (hty : g.ty index = h.ty index) : g.isSlice index = h.isSlice index := by
  simp [isSlice, hty]

/-- What comes of a row: an element, or nothing known and a problem if the index does not count as one. -/
def Heap.Responds (h : Heap) (ok : Bool) (problem : ProblemKind) (t : TypeId) (r : TypeId × List ProblemKind) : Prop :=
  if ok then h.IsElement t r.1 ∧ r.2 = [] else r.1 = .unknown ∧ r.2 = [problem]

theorem Heap.Responds.mono
    (hr : h.Responds ok problem t r) (hs : h.IsSound) (hg : h.Grows g) (ht : h.Has t) : g.Responds ok problem t r := by
  cases ok with
  | true => exact ⟨hr.1.mono hs hg ht, hr.2⟩
  | false => exact hr

theorem Heap.responds_of_eq (ht : h.IsElement t u)
    (hv : v = if ok then u else .unknown) : h.Responds ok problem t (v, if ok then [] else [problem]) := by
  cases ok with
  | true => exact ⟨hv ▸ ht, rfl⟩
  | false => exact ⟨hv, rfl⟩

theorem Heap.IsSound.has_of_eq {ok : Bool} (hs : h.IsSound) (hu : h.Has u) (hv : v = if ok then u else .unknown) :
    h.Has v := by
  cases ok with
  | true => exact hv ▸ hu
  | false => exact hv ▸ hs.isValue_unknown.has

theorem does_subscriptOne (ht : h.Has t) (hrow : h.IsRow t) (hi : h.Has index) (hslice : h.isSlice index = false) :
    Does h ((subscriptOne note apply t index).run log) fun r g => g.Has r.1 ∧ h.Grows g ∧
      ∃ kinds, r.2.map Prod.fst = log.map Prod.fst ++ kinds ∧
        g.Responds (h.isIndex index) (h.problemOf t) t (r.1, kinds) := by
  refine .of_sound fun hs => does_get_bind ?_
  have hfits := hs.types t
  cases hrow with
  | list ty =>
    rw [ty] at hfits ⊢
    refine (does_subscriptList apply hslice (by rw [tableOf?, ty])).mono fun r g _ hr => ?_
    obtain ⟨rfl, hr, hlog⟩ := hr
    have hkind : g.problemOf t = .notSliceable := by simp [problemOf, isText, ty]
    exact ⟨hs.has_of_eq hfits.1.has hr, .refl g, _, hkind ▸ hlog, responds_of_eq (by rw [IsElement, ty]) hr⟩
  | @tuple es ty =>
    rw [ty] at hfits ⊢
    have hunion : Does h (unionAll es) fun e g => g.IsValue e ∧ h.Grows g ∧ g.Comprises e es :=
      (unionAll_value hfits).and (((comprises_unknown hs).foldlM fun e he => (hfits e he).has).run hs).2
    refine does_lift_bind hunion fun e g he hg => ?_
    obtain ⟨hvalue, hg, hcomp⟩ := hg
    refine does_lift_bind (does_newType (.list e none) ⟨hvalue, by simp⟩ trivial) fun l k hk hl => ?_
    have hgrows : g.Grows k := ⟨hl.2.2, hk.toExtends.size_le⟩
    have hty : k.ty index = h.ty index := (hg.trans hgrows).ty hi
    have hlist : k.tableOf? l = none := by rw [tableOf?, hl.1]
    refine (does_subscriptList apply ((isSlice_congr hty).trans hslice) hlist).mono fun r k' _ hr => ?_
    obtain ⟨rfl, hr, hlog⟩ := hr
    rw [isIndex_congr hty] at hr hlog
    have hkind : h.problemOf t = .notSliceable := by simp [problemOf, isText, ty]
    have helement : k'.IsElement t e := by
      rw [IsElement, (hg.trans hgrows).ty ht, ty]
      exact hcomp.mono (he.isSound hs) hgrows
    exact ⟨(hk.isSound (he.isSound hs)).has_of_eq (hgrows.has hcomp.has) hr, hg.trans hgrows, _, hkind ▸ hlog,
      responds_of_eq helement hr⟩
  | text isText =>
    obtain ⟨name, ty⟩ := exists_scalar_of_isText isText
    rw [ty]
    simp only [isText, if_true, hslice, Bool.false_or, problemOf]
    cases h.isIndex index with
    | true => exact .pure ⟨ht, .refl h, [], by simp, by simp [IsElement, ty], rfl⟩
    | false => exact .pure ⟨hs.isValue_unknown.has, .refl h, [_], List.map_append, rfl, rfl⟩

theorem does_subscript (log : List (ProblemKind × String)) (hv : h.Has value) (hrows : ∀ t ∈ h.members value, h.IsRow t) (hi : h.Has index)
    (hslice : h.isSlice index = false) : Does h ((subscript note apply value index).run log) fun r g => ∃ rs,
      List.Forall₂ (fun t => g.Responds (h.isIndex index) (h.problemOf t) t) (h.members value) rs ∧
        g.Comprises r.1 (rs.map Prod.fst) ∧ r.2.map Prod.fst = log.map Prod.fst ++ rs.flatMap Prod.snd := by
  refine .of_sound fun hs => does_get_bind ?_
  split
  · rename_i ms hty
    rw [members_of_union hty] at hrows ⊢
    have hmem : ∀ t ∈ ms, h.Has t := fun t ht => (hs.has_of_mem_members hv (members_of_union hty ▸ ht)).1
    refine (does_foldlM_union (E := fun g t => g.Responds (h.isIndex index) (h.problemOf t) t) ms
      (fun hx hs hg hk hr => ?_) (fun t ht g log hg => ?_) (comprises_unknown hs)).mono fun r g _ hr => hr.2
    · exact hr.mono hs hk (hg.has (hmem _ hx))
    · have hkind : g.problemOf t = h.problemOf t := by rw [problemOf, problemOf, isText, isText, hg.ty (hmem t ht)]
      rw [← isIndex_congr (hg.ty hi), ← hkind]
      exact does_subscriptOne apply (hg.has (hmem t ht)) ((hrows t ht).mono hg (hmem t ht)) (hg.has hi)
        ((isSlice_congr (hg.ty hi)).trans hslice)
  · rename_i hone
    rw [members_of_not_union hone] at hrows ⊢
    refine (does_subscriptOne apply hv (hrows value (.head _)) hi hslice).mono fun r g _ hr => ?_
    obtain ⟨hhas, -, kinds, hlog, hr⟩ := hr
    exact ⟨[(r.1, kinds)], .cons hr .nil, comprises_self hhas, by simpa using hlog⟩

theorem forall_mem_of_forall₂ {P : TypeId × List ProblemKind → Prop}
    (hrs : List.Forall₂ (fun _ r => P r) ts rs) : ∀ r ∈ rs, P r := by
  induction hrs with
  | nil => exact List.forall_mem_nil _
  | cons hr _ ih => exact List.forall_mem_cons.2 ⟨hr, ih⟩

theorem flatMap_snd {rs : List (TypeId × List ProblemKind)}
    (hrs : List.Forall₂ (fun t r => r.2 = f t) ts rs) : rs.flatMap Prod.snd = ts.flatMap f := by
  induction hrs with
  | nil => rfl
  | cons hr _ ih => rw [List.flatMap_cons, List.flatMap_cons, hr, ih]

end Reports

/-- A subscript of rows with a number gives an element of each of them and nothing else, and no problem is reported. A
number that may be of several types counts as no index: each row is then a problem, although it would be none for any of
those types, and nothing is known of the result. -/
theorem rows_subscripted_memberwise_unless_index_union {h : Heap} {value index : TypeId} (hs : h.IsSound)
    (hv : h.Has value) (hi : h.Has index) (hrows : ∀ t ∈ h.members value, h.IsRow t)
    (hnumeric : ∀ i ∈ h.members index, h.isNumeric i = true) (apply : FunctionId → TypeId → Reporting TypeId) :
    ∃ e problems g, ((subscript note apply value index).run []).run h = ((e, problems), g) ∧
      ((∀ ms, h.ty index ≠ .union ms) → problems = [] ∧
        ∃ es, List.Forall₂ g.IsElement (h.members value) es ∧ g.Comprises e es) ∧
      ∀ ms, h.ty index = .union ms → problems.map Prod.fst = (h.members value).map h.problemOf ∧
        ∀ m ∈ g.members e, g.ty m = .unknown := by
  have hslice : h.isSlice index = false := by
    unfold isSlice
    split
    · rename_i hty
      have hlist := hnumeric index (by rw [members_of_not_union (by simp [hty])]; exact .head _)
      simp [isNumeric, hty] at hlist
    · rfl
  obtain ⟨he, rs, hrs, hcomp, hlog⟩ := (does_subscript apply [] hv hrows hi hslice).run hs
  refine ⟨_, _, _, rfl, fun hone => ?_, fun ms hty => ?_⟩
  · have hok : h.isIndex index = true := by
      rw [isIndex, hnumeric index (by rw [members_of_not_union hone]; exact .head _), Bool.or_true]
    rw [hok] at hrs
    rw [flatMap_snd (hrs.imp fun _ _ hr => hr.2), List.flatMap_eq_nil_iff.2 fun _ _ => rfl] at hlog
    exact ⟨List.map_eq_nil_iff.1 hlog, _, List.forall₂_map_right_iff.2 (hrs.imp fun _ _ hr => hr.1), hcomp⟩
  · have hok : h.isIndex index = false := by simp [isIndex, isUnknown, isNumeric, hty]
    rw [hok] at hrs
    rw [flatMap_snd (hrs.imp fun _ _ hr => hr.2), ← List.map_eq_flatMap] at hlog
    refine ⟨hlog, fun m hm => ?_⟩
    have hunknown := (he.isSound hs).ty_unknown
    obtain hm | ⟨t, ht, hm⟩ := hcomp.within m hm
    · exact hm
    · obtain ⟨r, hr, rfl⟩ := List.mem_map.1 ht
      have hr : r.1 = .unknown := forall_mem_of_forall₂ (hrs.imp fun _ _ hr => hr.1) r hr
      rw [hr, members_of_not_union (by simp [hunknown]), List.mem_singleton] at hm
      rw [hm]
      exact hunknown

/-- A list of numbers or a text, and a number that is whole or not. -/
def countedRows : Heap :=
  .withTypes (.union [.list (.existing .int), .existing .str]) (.union [.existing .int, .existing .float])

theorem rows_subscripted_memberwise_unless_index_union_countedRows :
    ∃ e problems g, ((subscript note (fun _ => pure) ⟨10⟩ ⟨11⟩).run []).run countedRows = ((e, problems), g) ∧
      problems.map Prod.fst = [.notSliceable, .wrongSubscript] ∧ ∀ m ∈ g.members e, g.ty m = .unknown := by
  have hs : countedRows.IsSound := Heap.withTypes_isSound (by simp [Recipe.Plain, Recipe.AllPlain]; decide)
    (by simp [Recipe.Plain, Recipe.AllPlain]; decide)
  have hrows : ∀ t ∈ countedRows.members ⟨10⟩, countedRows.IsRow t := by
    rw [show countedRows.members ⟨10⟩ = [⟨9⟩, .str] by decide, List.forall_mem_cons, List.forall_mem_singleton]
    exact ⟨.list (show countedRows.ty ⟨9⟩ = .list .int none by decide), .text (by decide)⟩
  obtain ⟨e, problems, g, hrun, -, hunion⟩ := rows_subscripted_memberwise_unless_index_union hs
    (show 10 < countedRows.types.size by decide) (show 11 < countedRows.types.size by decide) hrows (by decide) fun _ => pure
  exact ⟨e, problems, g, hrun, hunion [.int, .float] (by decide)⟩

/-- A list of numbers gives a number for either kind of number, but not for one that is of either kind. -/
theorem list_refuses_index_union : countedRows.ty ⟨9⟩ = .list .int none ∧ countedRows.ty ⟨11⟩ = .union [.int, .float] ∧
    (((subscript note (fun _ => pure) ⟨9⟩ .int).run []).run countedRows).1 = (.int, []) ∧
    (((subscript note (fun _ => pure) ⟨9⟩ .float).run []).run countedRows).1 = (.int, []) ∧
    (((subscript note (fun _ => pure) ⟨9⟩ ⟨11⟩).run []).run countedRows).1 =
      (.unknown, [(.notSliceable, "The type can't be sliced: [int]")]) := by
  decide +kernel

end Concordance
