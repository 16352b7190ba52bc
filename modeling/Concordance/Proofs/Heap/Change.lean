import Mathlib.Data.Finset.Card
import Mathlib.Data.Finset.Range
import Concordance.Proofs.Heap.Value
import Concordance.Session.State

/-!
# Changes of the type graph

Work on the heap is made of a few kinds of single changes: something new is added, a list or dictionary is widened, a
scope or class gets something more, a binding gets a type that keeps what it had.
-/

namespace Concordance

section Arrays

variable {α : Type} {xs : Array α}

theorem getD_push : (xs.push x).getD i d = if i = xs.size then x else xs.getD i d := by
  simp only [Array.getD_eq_getD_getElem?, Array.getElem?_push]
  split <;> rfl

theorem getD_setIfInBounds :
    (xs.setIfInBounds j x).getD i d = if i = j ∧ j < xs.size then x else xs.getD i d := by
  simp only [Array.getD_eq_getD_getElem?, Array.getElem?_setIfInBounds]
  grind

theorem getD_modify : (xs.modify j f).getD i d = if i = j ∧ j < xs.size then f (xs.getD i d) else xs.getD i d := by
  simp only [Array.getD_eq_getD_getElem?, Array.getElem?_modify]
  grind

theorem lt_size_of_getD_ne (hne : xs.getD i d ≠ d) : i < xs.size := by
  by_contra hlt
  refine hne ?_
  rw [Array.getD_eq_getD_getElem?, Array.getElem?_eq_none (Nat.le_of_not_lt hlt), Option.getD_none]

end Arrays

section Counting

variable {α : Type} [DecidableEq α] {seen : List α}

/-- How many of the first `n` identities are not among those seen. -/
def unmet (n : Nat) (f : Nat → α) (seen : List α) : Nat := ((Finset.range n).filter fun i => f i ∉ seen).card

theorem unmet_le : unmet n f seen ≤ n := (Finset.card_filter_le ..).trans_eq (Finset.card_range _)

theorem unmet_append_le (before : List α) : unmet n f (before ++ seen) ≤ unmet n f seen := by
  refine Finset.card_le_card fun i hi => ?_
  simp only [Finset.mem_filter, List.mem_append, not_or] at hi ⊢
  exact ⟨hi.1, hi.2.2⟩

theorem unmet_cons_lt (hi : i < n) (new : f i ∉ seen) : unmet n f (f i :: seen) < unmet n f seen := by
  refine Finset.card_lt_card (Finset.ssubset_iff_subset_ne.2 ⟨fun j hj => ?_, fun heq => ?_⟩)
  · simp only [Finset.mem_filter, List.mem_cons, not_or] at hj ⊢
    exact ⟨hj.1, hj.2.2⟩
  · have hmem : i ∈ (Finset.range n).filter fun i => f i ∉ seen := Finset.mem_filter.2 ⟨Finset.mem_range.2 hi, new⟩
    rw [← heq] at hmem
    exact (Finset.mem_filter.1 hmem).2 (.head _)

end Counting

namespace Heap

attribute [grind =] Has HasBinding

section Existing

variable {h : Heap}

theorem lt_of_code (hc : (h.function f).code = some c) : f.index < h.functions.size := by
  refine lt_size_of_getD_ne (d := default) fun heq => ?_
  rw [Heap.function, heq] at hc
  cases hc

theorem lt_of_file (hf : (h.module m).file = some path) : m.index < h.modules.size := by
  refine lt_size_of_getD_ne (d := default) fun heq => ?_
  rw [Heap.module, heq] at hf
  cases hf

theorem lt_of_parent (hp : (h.scope s).parent = some p) : s.index < h.scopes.size := by
  refine lt_size_of_getD_ne (d := default) fun heq => ?_
  rw [Heap.scope, heq] at hp
  cases hp

end Existing

def Widens : Ty → Ty → Prop
  | .list .., .list .. => True
  | .dict .., .dict .. => True
  | _, _ => False

/-- A later heap: what exists keeps existing, and only containers change. -/
structure Extends (h h' : Heap) : Prop where
  size_le : h.types.size ≤ h'.types.size
  alike : ∀ t, h.Has t → h'.ty t = h.ty t ∨ Widens (h.ty t) (h'.ty t)

namespace Extends

theorem refl (h : Heap) : Extends h h := ⟨Nat.le_refl _, fun _ _ => .inl rfl⟩

section

variable (he : Extends h h')
include he

theorem has (ht : h.Has t) : h'.Has t := Nat.lt_of_lt_of_le ht he.size_le

theorem trans (he' : Extends h' h'') : Extends h h'' where
  size_le := he.size_le.trans he'.size_le
  alike t ht := by
    have h1 := he.alike t ht
    have h2 := he'.alike t (he.has ht)
    revert h1 h2
    cases h.ty t <;> cases h'.ty t <;> cases h''.ty t <;> simp +contextual [Widens]

theorem unions (ht : h.Has t) (ms : List TypeId) : h'.ty t = .union ms ↔ h.ty t = .union ms := by
  have halike := he.alike t ht
  revert halike
  cases h.ty t <;> cases h'.ty t <;> simp +contextual [Widens]

theorem known (ht : h.Has t) (hk : h.ty t ≠ .unknown) : h'.ty t ≠ .unknown := by
  have halike := he.alike t ht
  revert halike hk
  cases h.ty t <;> cases h'.ty t <;> simp [Widens]

theorem unknown (ht : h.Has t) (hu : h.ty t = .unknown) : h'.ty t = .unknown := by
  have halike := he.alike t ht
  rw [hu] at halike
  exact halike.resolve_right id

theorem list (ht : h.ty t = .list e shape) : ∃ e' shape', h'.ty t = .list e' shape' := by
  have hhas : h.Has t := has_of_ty_ne (by simp [ht])
  have halike := he.alike t hhas
  rw [ht] at halike
  revert halike
  cases h'.ty t <;> simp [Widens]

theorem dict (ht : h.ty t = .dict k v) : ∃ k' v', h'.ty t = .dict k' v' := by
  have hhas : h.Has t := has_of_ty_ne (by simp [ht])
  have halike := he.alike t hhas
  rw [ht] at halike
  revert halike
  cases h'.ty t <;> simp [Widens]

theorem members (ht : h.Has t) : h'.members t = h.members t := by
  by_cases hu : ∃ ms, h.ty t = .union ms
  · obtain ⟨ms, hms⟩ := hu
    rw [members_of_union hms, members_of_union ((he.unions ht ms).2 hms)]
  · have hn : ∀ ms, h.ty t ≠ .union ms := fun ms hms => hu ⟨ms, hms⟩
    rw [members_of_not_union hn, members_of_not_union fun ms hms => hn ms ((he.unions ht ms).1 hms)]

theorem isValue (ht : h.IsValue t) : h'.IsValue t :=
  ⟨he.has ht.has, by rw [he.members ht.has]; exact ht.unmarked⟩

theorem fits {ty : Ty} (hty : h.Fits ty) : h'.Fits ty := by
  cases ty with
  | list e shape => exact ⟨he.isValue hty.1, fun x hx => he.isValue (hty.2 x hx)⟩
  | tuple es => exact fun e hm => he.isValue (hty e hm)
  | dict k v => exact ⟨he.isValue hty.1, he.isValue hty.2⟩
  | function f receiver => exact fun r hr => he.isValue (hty r hr)
  | union ms =>
    refine ⟨hty.1, hty.2.1, fun m hm => ?_⟩
    obtain ⟨hhas, hknown, hu⟩ := hty.2.2 m hm
    exact ⟨he.has hhas, he.known hhas hknown, fun ns hns => hu ns ((he.unions hhas ns).1 hns)⟩
  | _ => trivial

theorem function {f : Function} (hf : f.IsSound h) : f.IsSound h' where
  type := he.isValue hf.type
  returns := he.isValue hf.returns
  yields t ht := he.isValue (hf.yields t ht)
  defaults t ht := he.isValue (hf.defaults t ht)
  arrows a ha := ⟨he.isValue (hf.arrows a ha).1, he.isValue (hf.arrows a ha).2⟩
  native := hf.native

theorem cls {c : ClassInfo} (hc : c.IsSound h) : c.IsSound h' where
  type := he.isValue hc.type
  canon t ht := he.isValue (hc.canon t ht)
  factory := hc.factory

end

end Extends

/-- What a change of a scope leaves alone. -/
structure SameFrame (a b : Scope) : Prop where
  kind : b.kind = a.kind
  parent : b.parent = a.parent
  path : b.path = a.path
  owner : b.owner = a.owner

/-- What a change of a binding leaves alone. -/
structure SameOrigin (a b : Binding) : Prop where
  name : b.name = a.name
  qname : b.qname = a.qname
  kind : b.kind = a.kind
  origin : b.origin = a.origin
  file : b.file = a.file
  start : b.start = a.start
  stop : b.stop = a.stop
  bodyStart : b.bodyStart = a.bodyStart
  bodyStop : b.bodyStop = a.bodyStop

theorem SameOrigin.refl (a : Binding) : SameOrigin a a := ⟨rfl, rfl, rfl, rfl, rfl, rfl, rfl, rfl, rfl⟩

theorem SameOrigin.trans (hab : SameOrigin a b) (hbc : SameOrigin b c) : SameOrigin a c where
  name := hbc.name.trans hab.name
  qname := hbc.qname.trans hab.qname
  kind := hbc.kind.trans hab.kind
  origin := hbc.origin.trans hab.origin
  file := hbc.file.trans hab.file
  start := hbc.start.trans hab.start
  stop := hbc.stop.trans hab.stop
  bodyStart := hbc.bodyStart.trans hab.bodyStart
  bodyStop := hbc.bodyStop.trans hab.bodyStop

/-- Every alternative of a type that is not unknown is equal to some alternative of another type. -/
def Keeps (h : Heap) (u w : TypeId) : Prop :=
  ∀ m ∈ h.members u, h.ty m ≠ .unknown → ∃ m' ∈ h.members w, h.equal m' m = true

/-- What a change of a class leaves alone. -/
structure SameClass (a b : ClassInfo) : Prop where
  name : b.name = a.name
  type : b.type = a.type
  table : b.table = a.table

/-- What a new type may be: no second marker, and no module, for that comes together with its type. -/
def Admits (h : Heap) : Ty → Prop
  | .continues | .module _ => False
  | .union ms => ms.Pairwise fun a b => h.equal a b = false
  | _ => True

/-- What a change of a scope may do. -/
structure Alters (h : Heap) (s : ScopeId) (change : Scope → Scope) : Prop where
  frame : ∀ x, SameFrame x (change x)
  globals : ∀ x name, name ∈ x.globals → name ∈ (change x).globals
  nonlocals : ∀ x name, name ∈ x.nonlocals → name ∈ (change x).nonlocals
  kept : s ≠ Session.moduleTable → ∀ x name, x.local? name ≠ none → (change x).local? name ≠ none
  entries : ∀ x, ∀ bs ∈ (change x).table.values,
    bs ∈ x.table.values ∨ (∃ b, bs = [b] ∧ h.HasBinding b) ∨ ∃ y, bs ∈ (h.scope y).table.values

theorem Alters.isSound {h : Heap} (ha : h.Alters s change) (hs : h.IsSound)
    {x : Scope} (hx : x.IsSound h) : (change x).IsSound h := by
  intro bs hbs
  rcases ha.entries x bs hbs with hold | ⟨b, rfl, hb⟩ | ⟨y, hshared⟩
  · exact hx bs hold
  · simpa using hb
  · exact hs.scopes y bs hshared

/-- One change of the heap. -/
inductive Change (h : Heap) : Heap → Prop
  | newType (ty : Ty) (fits : h.Fits ty) (plain : h.Admits ty) :
      Change h { h with types := h.types.push ty }
  | widen (t : TypeId) (ty : Ty) (fits : h.Fits ty) (like : Widens (h.ty t) ty) :
      Change h { h with types := h.types.setIfInBounds t.index ty }
  | newScope (scope : Scope) (empty : scope.table = {}) : Change h { h with scopes := h.scopes.push scope }
  | changeScope (s : ScopeId) (change : Scope → Scope) (alters : h.Alters s change) :
      Change h { h with scopes := h.scopes.modify s.index change }
  | newBinding (b : Binding) (value : h.IsValue b.type) (unused : b.refs = []) :
      Change h { h with bindings := h.bindings.push b }
  | retype (b : BindingId) (type : TypeId) (value : h.IsValue type) (keeps : h.Keeps (h.binding b).type type) :
      Change h { h with bindings := h.bindings.modify b.index fun x => { x with type } }
  | markStatic (b : BindingId) :
      Change h { h with bindings := h.bindings.modify b.index fun x => { x with isStatic := true } }
  | changeReturns (f : FunctionId) (returns : TypeId) (value : h.IsValue returns) :
      Change h { h with functions := h.functions.modify f.index fun g => { g with returns } }
  | newClass (c : ClassInfo) (sound : c.IsSound h) : Change h { h with classes := h.classes.push c }
  | changeClass (c : ClassId) (change : ClassInfo → ClassInfo) (same : ∀ x, SameClass x (change x))
      (sound : ∀ x, x.IsSound h → (change x).IsSound h) :
      Change h { h with classes := h.classes.modify c.index change }
  | newModule (m : ModuleInfo) (type : m.type = ⟨h.types.size⟩) : Change h
      { h with types := h.types.push (.module ⟨h.modules.size⟩), modules := h.modules.push m }

section Types

variable {h : Heap} {ty : Ty}

theorem ty_of_push {h' : Heap} (types : h'.types = h.types.push ty) :
    h'.ty t = if t.index = h.types.size then ty else h.ty t := by
  rw [Heap.ty, types, getD_push]
  rfl

theorem ty_push : Heap.ty { h with types := h.types.push ty } t = if t.index = h.types.size then ty else h.ty t :=
  ty_of_push rfl

theorem ty_set : Heap.ty { h with types := h.types.setIfInBounds u.index ty } t =
    if t = u ∧ u.index < h.types.size then ty else h.ty t := by
  rw [Heap.ty, getD_setIfInBounds]
  have : t.index = u.index ↔ t = u := by cases t; cases u; simp
  simp only [this]
  rfl

theorem Extends.of_push (types : h'.types = h.types.push ty) : Extends h h' where
  size_le := by simp [types]
  alike t ht := .inl ((ty_of_push types).trans (if_neg (Nat.ne_of_lt ht)))

theorem IsSound.isValue_push (hs : h.IsSound) {h' : Heap} (types : h'.types = h.types.push ty)
    (single : ∀ ms, ty ≠ .union ms) : h'.IsValue ⟨h.types.size⟩ := by
  have hty : h'.ty ⟨h.types.size⟩ = ty := (ty_of_push types).trans (if_pos rfl)
  refine ⟨by simp [Has, types], ?_⟩
  rw [members_of_not_union (hty ▸ single), List.mem_singleton]
  -- The marker was there before.
  intro heq
  have hlt := hs.has_continues
  rw [heq] at hlt
  exact Nat.lt_irrefl _ hlt

theorem Extends.of_types_eq (heq : h'.types = h.types) : Extends h h' where
  size_le := by rw [heq]
  alike t _ := .inl (by simp only [Heap.ty, heq])

end Types

namespace Change

section

variable (hc : Change h h')
include hc

theorem toExtends : Extends h h' := by
  cases hc with
  | newType ty fits plain | newModule m type => exact .of_push rfl
  | widen u ty fits like =>
    refine ⟨by simp, fun t _ => ?_⟩
    rw [ty_set]
    split
    · rename_i heq
      exact .inr (heq.1 ▸ like)
    · exact .inl rfl
  | _ => exact .of_types_eq rfl

theorem function (f : FunctionId) : ∃ r, h'.function f = { h.function f with returns := r } := by
  cases hc with
  | changeReturns g returns value =>
    simp only [Heap.function, getD_modify]
    split
    · exact ⟨returns, rfl⟩
    · exact ⟨_, rfl⟩
  | _ => exact ⟨_, rfl⟩

theorem bindings {i : Nat} (hx : h.bindings[i]? = some x) :
    ∃ x', h'.bindings[i]? = some x' ∧ SameOrigin x x' ∧ x'.refs = x.refs := by
  cases hc with
  | newBinding b value unused =>
    have hlt := (Array.getElem?_eq_some_iff.1 hx).1
    exact ⟨x, by rw [Array.getElem?_push_lt hlt, ← Array.getElem?_eq_getElem, hx], .refl x, rfl⟩
  | retype b type value keeps =>
    simp only [Array.getElem?_modify, hx]
    split
    · exact ⟨_, rfl, ⟨rfl, rfl, rfl, rfl, rfl, rfl, rfl, rfl, rfl⟩, rfl⟩
    · exact ⟨x, rfl, .refl x, rfl⟩
  | markStatic b =>
    simp only [Array.getElem?_modify, hx]
    split
    · exact ⟨_, rfl, ⟨rfl, rfl, rfl, rfl, rfl, rfl, rfl, rfl, rfl⟩, rfl⟩
    · exact ⟨x, rfl, .refl x, rfl⟩
  | _ => exact ⟨x, hx, .refl x, rfl⟩

theorem bindings_size : h.bindings.size ≤ h'.bindings.size := by
  cases hc <;> simp

theorem refs (b : BindingId) : (h'.binding b).refs = (h.binding b).refs := by
  cases hc with
  | newBinding b' value unused =>
    simp only [Heap.binding, getD_push]
    split
    · rename_i heq
      rw [unused, heq, Array.getD_eq_getD_getElem?, Array.getElem?_eq_none (Nat.le_refl _)]
      rfl
    · rfl
  | retype b' type value keeps | markStatic b' =>
    simp only [Heap.binding, getD_modify]
    split <;> rfl
  | _ => rfl

theorem modules_size : h.modules.size ≤ h'.modules.size := by
  cases hc <;> simp

theorem references : h'.references = h.references := by
  cases hc <;> rfl

theorem singletons (hs : h.IsSound) (hi : i < Heap.initial.types.size) :
    h'.types[i]? = h.types[i]? := by
  have hle := hs.size_le
  cases hc with
  | newType ty fits plain | newModule m type =>
    exact Array.getElem?_push_lt (by omega) |>.trans (by simp [show i < h.types.size by omega])
  | widen t ty fits like =>
    have hne : t.index ≠ i := by
      intro heq
      have hty := hs.ty_singleton (t := t) (by omega)
      rw [hty] at like
      obtain ⟨j⟩ := t
      subst heq
      revert like
      have : ∀ j < 9, ¬ Widens (Heap.initial.ty ⟨j⟩) ty := by
        intro j hj
        interval_cases j <;> simp [Heap.ty, Heap.initial, scalarNames, Widens]
      exact this j hi
    simp [Array.getElem?_setIfInBounds_ne hne]
  | _ => rfl

theorem marker (hs : h.IsSound) (ht : h'.ty t = .continues) : t = .continues := by
  cases hc with
  | newType ty fits plain =>
    rw [ty_push] at ht
    split at ht
    · rw [ht] at plain
      exact plain.elim
    · exact hs.marker t ht
  | widen u ty fits like =>
    rw [ty_set] at ht
    split at ht
    · -- What a type is widened to is never the marker.
      rw [ht] at like
      revert like
      cases h.ty u <;> simp [Widens]
    · exact hs.marker t ht
  | newModule m type =>
    rw [ty_of_push rfl] at ht
    split at ht
    · cases ht
    · exact hs.marker t ht
  | _ => exact hs.marker t ht

theorem fits (hs : h.IsSound) (t : TypeId) : h'.Fits (h'.ty t) := by
  have he := hc.toExtends
  cases hc with
  | newType ty fits plain =>
    rw [ty_push]
    split
    · exact he.fits fits
    · exact he.fits (hs.types t)
  | widen u ty fits like =>
    rw [ty_set]
    split
    · exact he.fits fits
    · exact he.fits (hs.types t)
  | newModule m type =>
    rw [ty_of_push rfl]
    split
    · trivial
    · exact he.fits (hs.types t)
  | _ => exact he.fits (hs.types t)

theorem isValue_binding (hs : h.IsSound) (b : BindingId) : h'.IsValue (h'.binding b).type := by
  have he := hc.toExtends
  cases hc with
  | newBinding b' value unused =>
    simp only [Heap.binding, getD_push]
    split
    · exact he.isValue value
    · exact he.isValue (hs.bindings b)
  | retype b' type value keeps =>
    simp only [Heap.binding, getD_modify]
    split
    · exact he.isValue value
    · exact he.isValue (hs.bindings b)
  | markStatic b' =>
    simp only [Heap.binding, getD_modify]
    split <;> exact he.isValue (hs.bindings b)
  | _ => exact he.isValue (hs.bindings b)

theorem isSound_function (hs : h.IsSound) (f : FunctionId) : (h'.function f).IsSound h' := by
  have he := hc.toExtends
  cases hc with
  | changeReturns g returns value =>
    simp only [Heap.function, getD_modify]
    split
    · exact he.function { hs.functions f with returns := value }
    · exact he.function (hs.functions f)
  | _ => exact he.function (hs.functions f)

theorem isSound_cls (hs : h.IsSound) (c : ClassId) : (h'.cls c).IsSound h' := by
  have he := hc.toExtends
  cases hc with
  | newClass c' sound =>
    simp only [Heap.cls, getD_push]
    split
    · exact he.cls sound
    · exact he.cls (hs.classes c)
  | changeClass c' change same sound =>
    simp only [Heap.cls, getD_modify]
    split
    · exact he.cls (sound _ (hs.classes c))
    · exact he.cls (hs.classes c)
  | _ => exact he.cls (hs.classes c)

theorem isValue_module (hs : h.IsSound) (m : ModuleId) : h'.IsValue (h'.module m).type := by
  have he := hc.toExtends
  cases hc with
  | newModule m' type =>
    simp only [Heap.module, getD_push]
    split
    · rw [type]
      exact hs.isValue_push rfl (by simp)
    · exact he.isValue (hs.modules m)
  | _ => exact he.isValue (hs.modules m)

theorem isSound_scope (hs : h.IsSound) (s : ScopeId) : (h'.scope s).IsSound h' := by
  -- Bindings are only added, so a name leads to bindings that exist still.
  have hmono : ∀ x : Scope, x.IsSound h → x.IsSound h' := fun x hx bs hbs b hb =>
    Nat.lt_of_lt_of_le (hx bs hbs b hb) hc.bindings_size
  cases hc with
  | newScope scope empty =>
    simp only [Heap.scope, getD_push]
    split
    · intro bs hbs
      rw [empty] at hbs
      cases hbs
    · exact hmono _ (hs.scopes s)
  | changeScope s' change alters =>
    simp only [Heap.scope, getD_modify]
    split
    · exact hmono _ (alters.isSound hs (hs.scopes s))
    · exact hmono _ (hs.scopes s)
  | _ => exact hmono _ (hs.scopes s)

theorem isSound (hs : h.IsSound) : h'.IsSound where
  singletons i hi := (hc.singletons hs hi).trans (hs.singletons i hi)
  marker _ ht := hc.marker hs ht
  types := hc.fits hs
  bindings := hc.isValue_binding hs
  functions := hc.isSound_function hs
  classes := hc.isSound_cls hs
  modules := hc.isValue_module hs
  scopes := hc.isSound_scope hs

end

end Change

def Evolves : Heap → Heap → Prop := Relation.ReflTransGen Change

namespace Evolves

theorem refl (h : Heap) : Evolves h h := Relation.ReflTransGen.refl

theorem single (hc : Change h h') : Evolves h h' := Relation.ReflTransGen.single hc

section

variable (he : Evolves h h')
include he

theorem trans (he' : Evolves h' h'') : Evolves h h'' := Relation.ReflTransGen.trans he he'

theorem toExtends : Extends h h' := by
  induction he with
  | refl => exact .refl h
  | tail _ hc ih => exact ih.trans hc.toExtends

theorem isSound (hs : h.IsSound) : h'.IsSound := by
  induction he with
  | refl => exact hs
  | tail _ hc ih => exact hc.isSound ih

theorem isValue (ht : h.IsValue t) : h'.IsValue t := he.toExtends.isValue ht

theorem function (f : FunctionId) : ∃ r, h'.function f = { h.function f with returns := r } := by
  induction he with
  | refl => exact ⟨_, rfl⟩
  | tail _ hc ih =>
    obtain ⟨r, hr⟩ := ih
    obtain ⟨q, hq⟩ := hc.function f
    exact ⟨q, by rw [hq, hr]⟩

theorem bindings {i : Nat} (hx : h.bindings[i]? = some x) :
    ∃ x', h'.bindings[i]? = some x' ∧ SameOrigin x x' ∧ x'.refs = x.refs := by
  induction he with
  | refl => exact ⟨x, hx, .refl x, rfl⟩
  | tail _ hc ih =>
    obtain ⟨y, hy, hsame, hrefs⟩ := ih
    obtain ⟨z, hz, hsame', hrefs'⟩ := hc.bindings hy
    exact ⟨z, hz, hsame.trans hsame', hrefs'.trans hrefs⟩

theorem bindings_size : h.bindings.size ≤ h'.bindings.size := by
  induction he with
  | refl => exact Nat.le_refl _
  | tail _ hc ih => exact Nat.le_trans ih hc.bindings_size

theorem hasBinding (hb : h.HasBinding b) : h'.HasBinding b :=
  Nat.lt_of_lt_of_le hb he.bindings_size

theorem refs (b : BindingId) : (h'.binding b).refs = (h.binding b).refs := by
  induction he with
  | refl => rfl
  | tail _ hc ih => rw [hc.refs, ih]

theorem modules_size : h.modules.size ≤ h'.modules.size := by
  induction he with
  | refl => exact Nat.le_refl _
  | tail _ hc ih => exact Nat.le_trans ih hc.modules_size

theorem references : h'.references = h.references := by
  induction he with
  | refl => rfl
  | tail _ hc ih => rw [hc.references, ih]

end

end Evolves

end Heap

end Concordance
