import Concordance.Proofs.Heap.Operations

/-!
# Scopes within modules

Every module has a scope of its own below the outermost one, and the scopes that it encloses belong to no other module.
-/

namespace Concordance

open Session (globals)

variable {scope : Scope} {name : String}

theorem Heap.SameFrame.refl (s : Scope) : Heap.SameFrame s s := ⟨rfl, rfl, rfl, rfl⟩

theorem Heap.SameFrame.trans (hab : Heap.SameFrame a b) (hbc : Heap.SameFrame b c) : Heap.SameFrame a c where
  kind := hbc.kind.trans hab.kind
  parent := hbc.parent.trans hab.parent
  path := hbc.path.trans hab.path
  owner := hbc.owner.trans hab.owner

theorem Scope.local_ne_none_of_bound {s : Scope} (hb : s.bound? name = some bs) : s.local? name ≠ none := by
  intro hnone
  rw [Scope.bound?, hnone] at hb
  cases hb

theorem Scope.bound_congr {s s' : Scope} (table : s'.table = s.table) (name : String) : s'.bound? name = s.bound? name := by
  rw [Scope.bound?, Scope.bound?, Scope.local?, Scope.local?, table]

namespace Heap

variable {W : ScopeId → Prop} {h h' : Heap} {s p : ScopeId} {m m' : ModuleId}

theorem lt_of_bound (hb : (h.scope s).bound? name = some bs) : s.index < h.scopes.size := by
  refine lt_size_of_getD_ne (d := default) fun heq => ?_
  rw [Heap.scope, heq] at hb
  cases hb

theorem lt_of_local (he : (h.scope s).local? name ≠ none) : s.index < h.scopes.size := by
  refine lt_size_of_getD_ne (d := default) fun heq => ?_
  rw [Heap.scope, heq] at he
  exact he rfl

theorem lt_of_declared (hn : name ∈ (h.scope s).globals) : s.index < h.scopes.size := by
  refine lt_size_of_getD_ne (d := default) fun heq => ?_
  rw [Heap.scope, heq] at hn
  cases hn

def Nowhere (_ : ScopeId) : Prop := False

/-- Names are bound in certain scopes only, and bindings are made for them only. -/
structure BindsIn (W : ScopeId → Prop) (h h' : Heap) : Prop where
  modules : ∀ m : ModuleId, m.index < h.modules.size → m.index < h'.modules.size ∧ h'.module m = h.module m
  rooms : ∀ m : ModuleId, h.modules.size ≤ m.index → m.index < h'.modules.size → h.scopes.size ≤ (h'.module m).table.index
  frames : ∀ s : ScopeId, s.index < h.scopes.size → s.index < h'.scopes.size ∧ SameFrame (h.scope s) (h'.scope s)
  declared : ∀ s name, name ∈ (h.scope s).globals → name ∈ (h'.scope s).globals
  entries : ∀ s, ¬ W s → (h'.scope s).table = (h.scope s).table
  origins : ∀ b, h.HasBinding b → h'.HasBinding b ∧ SameOrigin (h.binding b) (h'.binding b)
  fresh : (∀ s, ¬ W s) → h'.bindings.size = h.bindings.size

namespace BindsIn

theorem refl (h : Heap) : BindsIn W h h :=
  ⟨fun _ hm => ⟨hm, rfl⟩, fun _ hm hm' => absurd hm' (Nat.not_lt_of_le hm), fun _ hs => ⟨hs, .refl _⟩, fun _ _ hn => hn,
    fun _ _ => rfl, fun _ hb => ⟨hb, .refl _⟩, fun _ => rfl⟩

theorem names (hb : BindsIn W h h') (s : ScopeId) (hs : ¬ W s) (name : String) :
    (h'.scope s).bound? name = (h.scope s).bound? name := Scope.bound_congr (hb.entries s hs) name

theorem hasBinding_back (hb : BindsIn Nowhere h h') (hx : h'.HasBinding b) : h.HasBinding b :=
  Nat.lt_of_lt_of_eq hx (hb.fresh fun _ hs => hs)

theorem size_le (hb : BindsIn W h h') : h.scopes.size ≤ h'.scopes.size := by
  by_contra hlt
  exact Nat.lt_irrefl _ (hb.frames ⟨h'.scopes.size⟩ (Nat.lt_of_not_le hlt)).1

theorem parents (hb : BindsIn W h h') (s p : ScopeId) (hp : (h.scope s).parent = some p) : (h'.scope s).parent = some p :=
  (hb.frames s (lt_of_parent hp)).2.parent.trans hp

theorem trans (hb : BindsIn W h h') (hb' : BindsIn W h' h'') : BindsIn W h h'' where
  modules m hm := by
    obtain ⟨hm', heq⟩ := hb.modules m hm
    obtain ⟨hm'', heq'⟩ := hb'.modules m hm'
    exact ⟨hm'', heq'.trans heq⟩
  rooms m hm hm'' := by
    -- A new module was made by the first part of the work or by the second.
    by_cases hm' : m.index < h'.modules.size
    · rw [(hb'.modules m hm').2]
      exact hb.rooms m hm hm'
    · exact hb.size_le.trans (hb'.rooms m (Nat.le_of_not_lt hm') hm'')
  frames s hs := by
    obtain ⟨hs', hframe⟩ := hb.frames s hs
    obtain ⟨hs'', hframe'⟩ := hb'.frames s hs'
    exact ⟨hs'', hframe.trans hframe'⟩
  declared s name hn := hb'.declared s name (hb.declared s name hn)
  entries s hs := (hb'.entries s hs).trans (hb.entries s hs)
  origins b hx := by
    obtain ⟨hx', hsame⟩ := hb.origins b hx
    obtain ⟨hx'', hsame'⟩ := hb'.origins b hx'
    exact ⟨hx'', hsame.trans hsame'⟩
  fresh hw := (hb'.fresh hw).trans (hb.fresh hw)

theorem ofModules (modules : h'.modules = h.modules)
    (frames : ∀ s : ScopeId, s.index < h.scopes.size → s.index < h'.scopes.size ∧ SameFrame (h.scope s) (h'.scope s))
    (declared : ∀ s name, name ∈ (h.scope s).globals → name ∈ (h'.scope s).globals)
    (entries : ∀ s, ¬ W s → (h'.scope s).table = (h.scope s).table)
    (origins : ∀ b, h.HasBinding b → h'.HasBinding b ∧ SameOrigin (h.binding b) (h'.binding b))
    (fresh : (∀ s, ¬ W s) → h'.bindings.size = h.bindings.size) : BindsIn W h h' where
  modules m hm := by
    rw [Heap.module, Heap.module, modules]
    exact ⟨hm, rfl⟩
  rooms m hm hm' := by
    rw [modules] at hm'
    exact absurd hm' (Nat.not_lt_of_le hm)
  frames := frames
  declared := declared
  entries := entries
  origins := origins
  fresh := fresh

theorem ofSame (modules : h'.modules = h.modules) (scopes : h'.scopes = h.scopes) (bindings : h'.bindings = h.bindings) :
    BindsIn W h h' := by
  refine .ofModules modules (fun s hs => ?_) (fun s name hn => ?_) (fun s _ => ?_) (fun b hb => ?_) fun _ => ?_
  · rw [Heap.scope, Heap.scope, scopes]
    exact ⟨hs, .refl _⟩
  · rw [Heap.scope, scopes]
    exact hn
  · rw [Heap.scope, Heap.scope, scopes]
  · rw [HasBinding, Heap.binding, Heap.binding, bindings]
    exact ⟨hb, .refl _⟩
  · rw [bindings]

theorem ofNewScope (empty : scope.table = {}) : BindsIn W h { h with scopes := h.scopes.push scope } := by
  have hscope : ∀ s : ScopeId, Heap.scope { h with scopes := h.scopes.push scope } s =
      if s.index = h.scopes.size then scope else h.scope s := fun s => getD_push
  -- What is not there yet binds and declares nothing.
  have hnone : ∀ s : ScopeId, s.index = h.scopes.size → h.scope s = default := by
    intro s hs
    rw [Heap.scope, Array.getD_eq_getD_getElem?, Array.getElem?_eq_none (Nat.le_of_eq hs.symm)]
    rfl
  refine .ofModules rfl (fun s hs => ⟨Nat.lt_of_lt_of_le hs (by simp), ?_⟩) (fun s name hn => ?_) (fun s _ => ?_)
    (fun b hb => ⟨hb, .refl _⟩) fun _ => rfl
  · rw [hscope, if_neg (Nat.ne_of_lt hs)]
    exact .refl _
  · rw [hscope]
    split
    · rename_i hs
      rw [hnone s hs] at hn
      cases hn
    · exact hn
  · rw [hscope]
    split
    · rename_i hs
      rw [hnone s hs]
      exact empty
    · rfl

theorem ofScope (same : ∀ x, SameFrame x (change x))
    (declared : ∀ x name, name ∈ x.globals → name ∈ (change x).globals) (table : ¬ W s → ∀ x, (change x).table = x.table) :
    BindsIn W h { h with scopes := h.scopes.modify s.index change } := by
  have hscope : ∀ x : ScopeId, Heap.scope { h with scopes := h.scopes.modify s.index change } x =
      if x.index = s.index ∧ s.index < h.scopes.size then change (h.scope x) else h.scope x := fun x => getD_modify
  refine .ofModules rfl (fun x hx => ⟨Nat.lt_of_lt_of_eq hx (Array.size_modify ..).symm, ?_⟩) (fun x name hn => ?_)
    (fun x hx => ?_) (fun b hb => ⟨hb, .refl _⟩) fun _ => rfl
  · rw [hscope]
    split
    · exact same _
    · exact .refl _
  · rw [hscope]
    split
    · exact declared _ name hn
    · exact hn
  · rw [hscope]
    split
    · rename_i heq
      have hxs : x = s := congrArg ScopeId.mk heq.1
      exact table (hxs ▸ hx) _
    · rfl

theorem ofNewBinding (hw : W s) (x : Binding) : BindsIn W h { h with bindings := h.bindings.push x } := by
  refine .ofModules rfl (fun s hs => ⟨hs, .refl _⟩) (fun _ _ hn => hn) (fun _ _ => rfl) (fun b hb => ⟨?_, ?_⟩)
    fun hnone => absurd hw (hnone s)
  · exact Nat.lt_of_lt_of_le hb (by simp)
  · rw [Heap.binding, Heap.binding, getD_push, if_neg (Nat.ne_of_lt hb)]
    exact .refl _

theorem ofBinding {b : BindingId} (same : ∀ x, SameOrigin x (change x)) :
    BindsIn W h { h with bindings := h.bindings.modify b.index change } := by
  refine .ofModules rfl (fun s hs => ⟨hs, .refl _⟩) (fun _ _ hn => hn) (fun _ _ => rfl) (fun x hx => ⟨?_, ?_⟩)
    fun _ => Array.size_modify ..
  · exact Nat.lt_of_lt_of_eq hx (Array.size_modify ..).symm
  · rw [Heap.binding, Heap.binding, getD_modify]
    split
    · exact same _
    · exact .refl _

theorem ofNewModule (empty : scope.table = {}) (table : info.table = ⟨h.scopes.size⟩) :
    BindsIn W h { h with scopes := h.scopes.push scope, modules := h.modules.push info } := by
  have hscope : BindsIn W h { h with scopes := h.scopes.push scope } := ofNewScope empty
  refine ⟨fun m hm => ⟨Nat.lt_of_lt_of_le hm (by simp), ?_⟩, fun m hm hm' => ?_, hscope.frames, hscope.declared,
    hscope.entries, hscope.origins, hscope.fresh⟩
  · exact getD_push.trans (if_neg (Nat.ne_of_lt hm))
  · have hindex : m.index = h.modules.size := by
      rw [Array.size_push] at hm'
      omega
    have hmodule : Heap.module { h with scopes := h.scopes.push scope, modules := h.modules.push info } m = info :=
      getD_push.trans (if_pos hindex)
    rw [hmodule, table]

end BindsIn

/-- The outermost scope is no module's, scopes are enclosed by older ones, all but global ones and those of objects, and every
module has a scope of its own below the outermost one, where all scopes of this kind are. -/
structure Housed (h : Heap) : Prop where
  made : globals.index < h.scopes.size
  outermost : (h.scope globals).kind = .global ∧ (h.scope globals).parent = none
  enclosers : ∀ s p, (h.scope s).parent = some p → p.index < s.index
  rooms : ∀ m : ModuleId, m.index < h.modules.size → (h.module m).table.index < h.scopes.size ∧
    (h.scope (h.module m).table).kind = .module ∧ (h.scope (h.module m).table).parent = some globals
  distinct : ∀ m m' : ModuleId, m.index < h.modules.size → m'.index < h.modules.size →
    (h.module m).table = (h.module m').table → m = m'
  topmost : ∀ s, (h.scope s).kind = .module → (h.scope s).parent = some globals
  enclosed : ∀ s, (h.scope s).parent = none ↔ (h.scope s).kind = .global ∨ (h.scope s).kind = .object

/-- A scope is a module's or enclosed by one. -/
inductive Within (h : Heap) : ScopeId → ModuleId → Prop
  | table {m : ModuleId} (made : m.index < h.modules.size) : Within h (h.module m).table m
  | inner {s p : ScopeId} {m : ModuleId} (parent : (h.scope s).parent = some p) (outer : Within h p m) : Within h s m

section Within

variable (hh : h.Housed)
include hh

theorem Within.lt (hw : h.Within s m) : s.index < h.scopes.size := by
  cases hw with
  | table hm => exact (hh.rooms m hm).1
  | inner hp _ => exact lt_of_parent hp

omit hh in
theorem Within.module_lt (hw : h.Within s m) : m.index < h.modules.size := by
  induction hw with
  | table hm => exact hm
  | inner _ _ ih => exact ih

theorem Housed.not_within_globals : ¬ h.Within globals m := by
  intro hw
  generalize hs : globals = s at hw
  cases hw with
  | table hm =>
    have hkind := (hh.rooms m hm).2.1
    rw [← hs, hh.outermost.1] at hkind
    cases hkind
  | inner hp _ =>
    rw [← hs, hh.outermost.2] at hp
    cases hp

theorem Within.unique (hw : h.Within s m) (hw' : h.Within s m') : m = m' := by
  induction hw with
  | @table m hm =>
    generalize hs : (h.module m).table = s at hw'
    cases hw' with
    | table hm' => exact hh.distinct m _ hm hm' hs
    | inner hp hw' =>
      -- Around the scope of a module there is the outermost one only.
      rw [← hs, (hh.rooms m hm).2.2, Option.some.injEq] at hp
      exact absurd (hp ▸ hw') hh.not_within_globals
  | @inner s p m hp hw ih =>
    cases hw' with
    | table hm' =>
      rw [(hh.rooms m' hm').2.2, Option.some.injEq] at hp
      exact absurd (hp ▸ hw) hh.not_within_globals
    | inner hp' hw' =>
      rw [hp, Option.some.injEq] at hp'
      exact ih (hp' ▸ hw')

omit hh in
theorem Within.later (hw : h.Within s m)
    (modules : ∀ m : ModuleId, m.index < h.modules.size → m.index < h'.modules.size ∧ h'.module m = h.module m)
    (parents : ∀ s p, (h.scope s).parent = some p → (h'.scope s).parent = some p) : h'.Within s m := by
  induction hw with
  | @table m hm =>
    obtain ⟨hm', heq⟩ := modules m hm
    rw [← heq]
    exact .table hm'
  | inner hp _ ih => exact .inner (parents _ _ hp) ih

theorem Within.back (hw : h'.Within s m) (hb : BindsIn W h h') (hs : s.index < h.scopes.size) : h.Within s m := by
  induction hw with
  | @table m hm' =>
    by_cases hm : m.index < h.modules.size
    · rw [(hb.modules m hm).2]
      exact .table hm
    · -- The scope of a new module is new.
      exact absurd hs (Nat.not_lt_of_le (hb.rooms m (Nat.le_of_not_lt hm) hm'))
  | @inner s p m hp _ ih =>
    rw [(hb.frames s hs).2.parent] at hp
    exact .inner hp (ih (Nat.lt_trans (hh.enclosers s p hp) hs))

end Within

section Housed

variable (hh : h.Housed)
include hh

theorem Housed.ofSame (size : h'.scopes.size = h.scopes.size) (modules : h'.modules = h.modules)
    (frames : ∀ s, SameFrame (h.scope s) (h'.scope s)) : h'.Housed := by
  have hmodule : ∀ m, h'.module m = h.module m := fun m => by rw [Heap.module, Heap.module, modules]
  refine ⟨by rw [size]; exact hh.made, ?_, fun s p hp => ?_, fun m hm => ?_, fun m m' hm hm' => ?_, fun s hs => ?_,
    fun s => ?_⟩
  · rw [(frames _).kind, (frames _).parent]
    exact hh.outermost
  · rw [(frames s).parent] at hp
    exact hh.enclosers s p hp
  · rw [modules] at hm
    rw [hmodule, size, (frames _).kind, (frames _).parent]
    exact hh.rooms m hm
  · rw [modules] at hm hm'
    rw [hmodule, hmodule]
    exact hh.distinct m m' hm hm'
  · rw [(frames s).kind] at hs
    rw [(frames s).parent]
    exact hh.topmost s hs
  · rw [(frames s).kind, (frames s).parent]
    exact hh.enclosed s

omit hh in
theorem scope_push_of_lt (hs : s.index < h.scopes.size) :
    Heap.scope { h with scopes := h.scopes.push scope } s = h.scope s :=
  getD_push.trans (if_neg (Nat.ne_of_lt hs))

theorem Housed.ofNewScope (parent : ∀ p, scope.parent = some p → p.index < h.scopes.size)
    (topmost : scope.kind = .module → scope.parent = some globals)
    (enclosed : scope.parent = none ↔ scope.kind = .global ∨ scope.kind = .object) :
    Housed { h with scopes := h.scopes.push scope } := by
  have hsize : (h.scopes.push scope).size = h.scopes.size + 1 := Array.size_push _
  refine ⟨by rw [hsize]; exact Nat.lt_succ_of_lt hh.made, ?_, fun s p hp => ?_, fun m hm => ?_, hh.distinct, fun s hs => ?_,
    fun s => ?_⟩
  · rw [scope_push_of_lt hh.made]
    exact hh.outermost
  · rw [Heap.scope, getD_push] at hp
    split at hp
    · rename_i hs
      exact hs ▸ parent p hp
    · exact hh.enclosers s p hp
  · obtain ⟨hlt, hroom⟩ := hh.rooms m hm
    refine ⟨by rw [hsize]; exact Nat.lt_succ_of_lt hlt, ?_⟩
    have hscope : Heap.scope { h with scopes := h.scopes.push scope } (h.module m).table = _ := scope_push_of_lt hlt
    exact hscope ▸ hroom
  · rw [Heap.scope, getD_push] at hs ⊢
    split at hs
    · rename_i heq
      rw [if_pos heq]
      exact topmost hs
    · rename_i hne
      rw [if_neg hne]
      exact hh.topmost s hs
  · rw [Heap.scope, getD_push]
    split
    · exact enclosed
    · exact hh.enclosed s

theorem Housed.ofNewModule (kind : scope.kind = .module)
    (parent : scope.parent = some globals) (table : info.table = ⟨h.scopes.size⟩) :
    Housed { h with scopes := h.scopes.push scope, modules := h.modules.push info } := by
  have hnew : Housed { h with scopes := h.scopes.push scope } := by
    refine hh.ofNewScope (fun p hp => ?_) (fun _ => parent) (by simp [kind, parent])
    rw [parent, Option.some.injEq] at hp
    exact hp ▸ hh.made
  have hmodule : ∀ m : ModuleId,
      Heap.module { h with scopes := h.scopes.push scope, modules := h.modules.push info } m =
        if m.index = h.modules.size then info else h.module m := fun m => getD_push
  have hold : ∀ m : ModuleId, m.index < (h.modules.push info).size → m.index ≠ h.modules.size →
      m.index < h.modules.size := by
    intro m hm hne
    rw [Array.size_push] at hm
    omega
  refine ⟨hnew.made, hnew.outermost, hnew.enclosers, fun m hm => ?_, fun m m' hm hm' heq => ?_, hnew.topmost,
    hnew.enclosed⟩
  · rw [hmodule]
    split
    · rw [table]
      refine ⟨Nat.lt_of_lt_of_eq (Nat.lt_succ_self _) (Array.size_push _).symm, ?_⟩
      have hscope : Heap.scope { h with scopes := h.scopes.push scope } ⟨h.scopes.size⟩ = scope :=
        getD_push.trans (if_pos rfl)
      exact ⟨(congrArg Scope.kind hscope).trans kind, (congrArg Scope.parent hscope).trans parent⟩
    · rename_i hne
      exact hnew.rooms m (hold m hm hne)
  · -- The new scope is no other module's.
    have hother : ∀ m : ModuleId, m.index < h.modules.size → (h.module m).table ≠ info.table := by
      intro m hm htable
      have hlt := (hh.rooms m hm).1
      rw [htable, table] at hlt
      exact Nat.lt_irrefl _ hlt
    rw [hmodule, hmodule] at heq
    split at heq <;> split at heq
    · rename_i hm hm'
      exact congrArg ModuleId.mk (hm.trans hm'.symm)
    · rename_i hne
      exact absurd heq.symm (hother m' (hold m' hm' hne))
    · rename_i hne _
      exact absurd heq (hother m (hold m hm hne))
    · rename_i hne hne'
      exact hh.distinct m m' (hold m hm hne) (hold m' hm' hne') heq

end Housed

end Heap

end Concordance
