import Concordance.Proofs.Heap.Operations

/-!
# Where attributes are found

Scopes inherit from others, in any shape: two scopes may inherit from a common one, and a scope from itself through
others.
-/

namespace Concordance

namespace Heap

variable {h : Heap} {scopes : List ScopeId}

/-- A scope is another one or inherits from it. -/
inductive Inherits (h : Heap) (x : ScopeId) : ScopeId → Prop
  | self : h.Inherits x x
  | super {s t : ScopeId} (mem : t ∈ (h.scope s).supers) (rest : h.Inherits x t) : h.Inherits x s

/-- The depth-first order in which scopes and what they inherit from are visited, from left to right and each before what
it inherits from, leaving out those seen before. -/
inductive Preorder (h : Heap) : List ScopeId → List ScopeId → List ScopeId → Prop
  | done {seen : List ScopeId} : h.Preorder seen [] []
  | again {seen : List ScopeId} {s : ScopeId} {rest order : List ScopeId} (old : s ∈ seen)
      (after : h.Preorder seen rest order) : h.Preorder seen (s :: rest) order
  | visit {seen : List ScopeId} {s : ScopeId} {rest supers order : List ScopeId} (new : s ∉ seen)
      (below : h.Preorder (s :: seen) (h.scope s).supers supers)
      (after : h.Preorder (supers.reverse ++ s :: seen) rest order) :
      h.Preorder seen (s :: rest) (s :: (supers ++ order))

namespace Preorder

section

variable (hp : h.Preorder seen scopes order)
include hp

theorem unique (hp' : h.Preorder seen scopes order') : order = order' := by
  induction hp generalizing order' with
  | done => cases hp'; rfl
  | again old _ ih =>
    cases hp' with
    | again _ after => exact ih after
    | visit new _ _ => exact absurd old new
  | visit new _ _ ihb iha =>
    cases hp' with
    | again old _ => exact absurd old new
    | visit _ below after =>
      cases ihb below
      cases iha after
      rfl

theorem fresh : order.Nodup ∧ ∀ x ∈ order, x ∉ seen := by
  induction hp with
  | done => simp
  | again _ _ ih => exact ih
  | visit new _ _ ihb iha =>
    simp only [List.mem_append, List.mem_cons, List.mem_reverse, not_or] at ihb iha
    refine ⟨List.nodup_cons.2 ⟨?_, ihb.1.append iha.1 fun x hx hx' => (iha.2 x hx').1 hx⟩, fun x hx => ?_⟩
    · rw [List.mem_append]
      rintro (hx | hx)
      · exact (ihb.2 _ hx).1 rfl
      · exact (iha.2 _ hx).2.1 rfl
    · rcases List.mem_cons.1 hx with rfl | hx
      · exact new
      rcases List.mem_append.1 hx with hx | hx
      · exact (ihb.2 x hx).2
      · exact (iha.2 x hx).2.2

theorem inherits (hx : x ∈ order) : ∃ s ∈ scopes, h.Inherits x s := by
  induction hp with
  | done => cases hx
  | again _ _ ih =>
    obtain ⟨s, hs, hin⟩ := ih hx
    exact ⟨s, .tail _ hs, hin⟩
  | visit _ _ _ ihb iha =>
    rcases List.mem_cons.1 hx with rfl | hx
    · exact ⟨x, .head _, .self⟩
    rcases List.mem_append.1 hx with hx | hx
    · obtain ⟨t, ht, hin⟩ := ihb hx
      exact ⟨_, .head _, .super ht hin⟩
    · obtain ⟨s, hs, hin⟩ := iha hx
      exact ⟨s, .tail _ hs, hin⟩

/-- When all is done the scopes have been seen, and with each one that was visited those that it inherits from at once. -/
theorem closed : (∀ s ∈ scopes, s ∈ order ∨ s ∈ seen) ∧
    ∀ x ∈ order, ∀ t ∈ (h.scope x).supers, t ∈ order ∨ t ∈ seen := by
  induction hp with
  | done => simp
  | again old _ ih =>
    refine ⟨fun s hs => ?_, ih.2⟩
    rcases List.mem_cons.1 hs with rfl | hs
    · exact .inr old
    · exact ih.1 s hs
  | visit new _ _ ihb iha =>
    -- Whatever is closed against what has been visited by then is closed against all that is visited in the end.
    simp only [List.mem_append, List.mem_cons, List.mem_reverse] at ihb iha ⊢
    refine ⟨fun s hs => ?_, fun x hx t ht => ?_⟩
    · rcases hs with rfl | hs
      · exact .inl (.inl rfl)
      · have := iha.1 s hs
        tauto
    · rcases hx with rfl | hx | hx
      · have := ihb.1 t ht
        tauto
      · have := ihb.2 x hx t ht
        tauto
      · have := iha.2 x hx t ht
        tauto

end

theorem mem_iff (hp : h.Preorder [] [s] order) : x ∈ order ↔ h.Inherits x s := by
  constructor
  · intro hx
    obtain ⟨t, ht, hin⟩ := hp.inherits hx
    exact List.mem_singleton.1 ht ▸ hin
  · intro hin
    have hstep : ∀ t, h.Inherits x t → t ∈ order → x ∈ order := by
      intro t ht
      induction ht with
      | self => exact id
      | super mem _ ih => exact fun hs => ih ((hp.closed.2 _ hs _ mem).resolve_right (List.not_mem_nil))
    exact hstep s hin ((hp.closed.1 s (List.mem_singleton.2 rfl)).resolve_right (List.not_mem_nil))

end Preorder

section Steps

def unseen (h : Heap) (seen : List ScopeId) : Nat := unmet h.scopes.size ScopeId.mk seen

theorem unseen_lt (new : s ∉ seen) (ht : t ∈ (h.scope s).supers) : h.unseen (s :: seen) < h.unseen seen := by
  refine unmet_cons_lt (lt_size_of_getD_ne (d := default) fun heq => ?_) new
  rw [Heap.scope, heq] at ht
  cases ht

theorem exists_preorder (h : Heap) (seen scopes : List ScopeId) : ∃ order, h.Preorder seen scopes order := by
  induction hn : h.unseen seen using Nat.strongRecOn generalizing seen scopes with
  | ind n ih =>
    subst hn
    induction scopes generalizing seen with
    | nil => exact ⟨[], .done⟩
    | cons s rest ihr =>
      by_cases hs : s ∈ seen
      · obtain ⟨order, ho⟩ := ihr seen ih
        exact ⟨order, .again hs ho⟩
      have hbelow : ∃ supers, h.Preorder (s :: seen) (h.scope s).supers supers := by
        rcases hsupers : (h.scope s).supers with _ | ⟨t, ts⟩
        · exact ⟨[], .done⟩
        · exact ih _ (unseen_lt hs (hsupers ▸ List.mem_cons_self ..)) _ _ rfl
      obtain ⟨supers, hsupers⟩ := hbelow
      have hle : h.unseen (supers.reverse ++ s :: seen) ≤ h.unseen seen :=
        (unmet_append_le _).trans (unmet_append_le [s])
      obtain ⟨order, ho⟩ := ihr (supers.reverse ++ s :: seen) fun m hm => ih m (hm.trans_le hle)
      exact ⟨_, .visit hs hsupers ho⟩

section Run

variable (fuel : Nat)

theorem attrFrom_of_seen (old : s ∈ seen) : (h.attrFrom name (fuel + 1) s).run seen = (none, seen) := by
  rw [attrFrom, StateT.run_bind, StateT.run_get, pure_bind]
  exact congrArg (StateT.run · seen) (if_pos old)

theorem attrFrom_of_bound (new : s ∉ seen) (hb : (h.scope s).bound? name = some bs) :
    (h.attrFrom name (fuel + 1) s).run seen = (some bs, s :: seen) := by
  rw [attrFrom, StateT.run_bind, StateT.run_get, pure_bind]
  dsimp only
  rw [if_neg new, StateT.run_bind, StateT.run_modify, pure_bind, hb]
  rfl

theorem attrFrom_of_free (new : s ∉ seen) (hb : (h.scope s).bound? name = none) :
    (h.attrFrom name (fuel + 1) s).run seen =
      ((h.scope s).supers.findSomeM? (h.attrFrom name fuel)).run (s :: seen) := by
  rw [attrFrom, StateT.run_bind, StateT.run_get, pure_bind]
  dsimp only
  rw [if_neg new, StateT.run_bind, StateT.run_modify, pure_bind, hb]

end Run

/-- A look-up that ends with a result and with the scopes seen by then follows an order: it finds what the first scope has
that has any, and if there is none it has seen them all. -/
def FindsAlong (h : Heap) (name : String) (seen order : List ScopeId)
    (r : Option (List BindingId) × List ScopeId) : Prop :=
  r.1 = order.findSome? (fun x => (h.scope x).bound? name) ∧ (r.1 = none → r.2 = order.reverse ++ seen)

theorem Preorder.run (hp : h.Preorder seen scopes order) (name : String) (hf : h.unseen seen < fuel) :
    h.FindsAlong name seen order ((scopes.findSomeM? (h.attrFrom name fuel)).run seen) := by
  induction hp generalizing fuel with
  | done => exact ⟨rfl, fun _ => rfl⟩
  | @again seen s rest order old _ ih =>
    obtain ⟨fuel, rfl⟩ := Nat.exists_eq_succ_of_ne_zero (Nat.ne_of_gt (Nat.zero_lt_of_lt hf))
    rw [List.findSomeM?_cons, StateT.run_bind, attrFrom_of_seen fuel old]
    exact ih hf
  | @visit seen s rest supers order new hbelow _ ihb iha =>
    obtain ⟨fuel, rfl⟩ := Nat.exists_eq_succ_of_ne_zero (Nat.ne_of_gt (Nat.zero_lt_of_lt hf))
    have hle : h.unseen (supers.reverse ++ s :: seen) ≤ h.unseen seen :=
      (unmet_append_le _).trans (unmet_append_le [s])
    have hbelow : h.FindsAlong name (s :: seen) supers
        (((h.scope s).supers.findSomeM? (h.attrFrom name fuel)).run (s :: seen)) := by
      rcases hsupers : (h.scope s).supers with _ | ⟨t, ts⟩
      · rw [hsupers] at hbelow
        cases hbelow
        exact ⟨rfl, fun _ => rfl⟩
      · have hlt := unseen_lt new (hsupers ▸ List.mem_cons_self (a := t) (l := ts))
        exact hsupers ▸ ihb (hlt.trans_le (Nat.le_of_lt_succ hf))
    rw [List.findSomeM?_cons, StateT.run_bind]
    cases hbound : (h.scope s).bound? name with
    | some bs =>
      rw [attrFrom_of_bound fuel new hbound, FindsAlong, List.findSome?_cons, hbound]
      exact ⟨rfl, fun hnone => by cases hnone⟩
    | none =>
      rw [attrFrom_of_free fuel new hbound]
      rcases hrun : ((h.scope s).supers.findSomeM? (h.attrFrom name fuel)).run (s :: seen) with ⟨_ | bs, visited⟩
      · rw [hrun] at hbelow
        obtain ⟨hfound, hvisited⟩ := hbelow
        have hvisited : visited = supers.reverse ++ s :: seen := hvisited rfl
        obtain ⟨hrest, hall⟩ := iha (hle.trans_lt hf)
        rw [← hvisited] at hrest hall
        refine ⟨?_, fun hnone => ?_⟩
        · rw [List.findSome?_cons, hbound, List.findSome?_append, ← hfound]
          exact hrest
        · refine (hall hnone).trans ?_
          simp [hvisited]
      · rw [hrun] at hbelow
        refine ⟨?_, fun hnone => by cases hnone⟩
        rw [List.findSome?_cons, hbound, List.findSome?_append, ← hbelow.1]
        rfl

theorem Preorder.attrFrom (hp : h.Preorder [] [s] order) (name : String) (hf : h.scopes.size < fuel) :
    ((h.attrFrom name fuel s).run []).1 = order.findSome? fun x => (h.scope x).bound? name := by
  have hrun := (hp.run name (unmet_le.trans_lt hf)).1
  rw [List.findSomeM?_cons, StateT.run_bind] at hrun
  rw [← hrun]
  rcases (h.attrFrom name fuel s).run [] with ⟨_ | bs, visited⟩ <;> rfl

end Steps

end Heap

/-- Attributes are looked up along one order, the depth-first one from left to right in which each scope stands once: it
has all that the scope inherits from, what is found is what the first scope has that has the attribute, and nothing is
found only if no scope has it. The look-up ends whatever the scopes inherit from: no number of steps above that of all
scopes makes a difference. -/
theorem attributes_found_depth_first (h : Heap) (s : ScopeId) (name : String) :
    ∃ order, (∀ order', h.Preorder [] [s] order' ↔ order' = order) ∧ order.Nodup ∧ (∀ x, x ∈ order ↔ h.Inherits x s) ∧
      (h.lookupAttr s name = none ↔ ∀ x, h.Inherits x s → (h.scope x).bound? name = none) ∧
      (∀ bs, h.lookupAttr s name = some bs ↔ ∃ before x after, order = before ++ x :: after ∧
        (∀ y ∈ before, (h.scope y).bound? name = none) ∧ (h.scope x).bound? name = some bs) ∧
      ∀ fuel, h.scopes.size < fuel → ((h.attrFrom name fuel s).run []).1 = h.lookupAttr s name := by
  obtain ⟨order, hp⟩ := h.exists_preorder [] [s]
  have hfound : h.lookupAttr s name = order.findSome? fun x => (h.scope x).bound? name :=
    hp.attrFrom name (Nat.lt_succ_self _)
  refine ⟨order, fun order' => ⟨fun hp' => hp'.unique hp, fun heq => heq ▸ hp⟩, hp.fresh.1, fun x => hp.mem_iff, ?_, ?_,
    fun fuel hf => (hp.attrFrom name hf).trans hfound.symm⟩
  · rw [hfound, List.findSome?_eq_none_iff]
    exact forall_congr' fun x => imp_congr hp.mem_iff .rfl
  · intro bs
    rw [hfound, List.findSome?_eq_some_iff]
    constructor
    · rintro ⟨before, x, after, heq, hx, hbefore⟩
      exact ⟨before, x, after, heq, hbefore, hx⟩
    · rintro ⟨before, x, after, heq, hbefore, hx⟩
      exact ⟨before, x, after, heq, hx, hbefore⟩

end Concordance
