import Concordance.Proofs.Heap.Apart

/-!
# Every type has the scope of its kind

A type that has attributes refers to a function, class, object or module that exists and whose scope is of its kind.
Only the scopes of classes and objects inherit from others, and these are scopes of classes.
-/

namespace Concordance

open Session (moduleTable)

namespace Heap

variable {h : Heap} {ty : Ty}

/-- What a type refers to exists, and the scope of an object is of this kind. -/
def Grounded (h : Heap) : Ty → Prop
  | .function f _ => f.index < h.functions.size
  | .classObject c => c.index < h.classes.size
  | .object _ x => (h.scope x).kind = .object
  | .module m => m.index < h.modules.size
  | _ => True

/-- Scopes may inherit: the first is a class's or an object's, the second a class's. -/
def MayInherit (h : Heap) (x y : ScopeId) : Prop :=
  ((h.scope x).kind = .classBody ∨ (h.scope x).kind = .object) ∧ (h.scope y).kind = .classBody

/-- Functions, classes and objects have scopes of their kinds, and what types refer to exists. -/
structure Furnished (h : Heap) : Prop where
  unknown : h.Has .unknown ∧ h.ty .unknown = .unknown
  types : ∀ t, h.Grounded (h.ty t)
  functions : ∀ f : FunctionId, f.index < h.functions.size → (h.scope (h.function f).table).kind = .function
  classes : ∀ c : ClassId, c.index < h.classes.size →
    (h.scope (h.cls c).table).kind = .classBody ∧ h.ty (h.cls c).type = .classObject c
  methods : ∀ f c, (h.function f).cls = some c → c.index < h.classes.size
  supers : ∀ x, ∀ y ∈ (h.scope x).supers, h.MayInherit x y

/-- The table of modules stands apart from what programs reach, and the rest is furnished. -/
structure Apart (h : Heap) : Prop extends Secluded h where
  furnished : h.Furnished

section Kinds

theorem lt_of_kind (hk : (h.scope s).kind ≠ .global) : s.index < h.scopes.size := by
  refine lt_size_of_getD_ne (d := default) fun heq => ?_
  rw [Heap.scope, heq] at hk
  exact hk rfl

def SameKinds (h h' : Heap) : Prop := ∀ x, (h.scope x).kind ≠ .global → (h'.scope x).kind = (h.scope x).kind

theorem SameKinds.of_frames (hf : ∀ x : ScopeId, x.index < h.scopes.size → SameFrame (h.scope x) (h'.scope x)) :
    h.SameKinds h' := fun x hk => (hf x (lt_of_kind hk)).kind

theorem SameKinds.of_scopes_eq (heq : h'.scopes = h.scopes) : h.SameKinds h' := fun x _ => by
  rw [Heap.scope, Heap.scope, heq]

theorem SameKinds.keeps (hk : h.SameKinds h') (hx : (h.scope x).kind = kind) (hne : kind ≠ .global) :
    (h'.scope x).kind = kind := (hk x (hx ▸ hne)).trans hx

theorem MayInherit.later (hx : h.MayInherit x y) (hk : h.SameKinds h') : h'.MayInherit x y :=
  ⟨hx.1.imp (hk.keeps · (by simp)) (hk.keeps · (by simp)), hk.keeps hx.2 (by simp)⟩

theorem Grounded.later (hg : h.Grounded ty) (hk : h.SameKinds h') (functions : h.functions.size ≤ h'.functions.size)
    (classes : h.classes.size ≤ h'.classes.size) (modules : h.modules.size ≤ h'.modules.size) : h'.Grounded ty := by
  cases ty with
  | function f r => exact Nat.lt_of_lt_of_le hg functions
  | classObject c => exact Nat.lt_of_lt_of_le hg classes
  | object c x => exact hk.keeps hg (by simp)
  | module m => exact Nat.lt_of_lt_of_le hg modules
  | _ => trivial

theorem Firm.classes_le (hf : Firm h h') : h.classes.size ≤ h'.classes.size := by
  by_contra hlt
  exact Nat.lt_irrefl _ (hf.classes ⟨h'.classes.size⟩ (Nat.lt_of_not_le hlt)).1

theorem BindsIn.modules_le (hb : BindsIn W h h') : h.modules.size ≤ h'.modules.size := by
  by_contra hlt
  exact Nat.lt_irrefl _ (hb.modules ⟨h'.modules.size⟩ (Nat.lt_of_not_le hlt)).1

theorem Steady.sameKinds (hs : h.Steady W h') : h.SameKinds h' := .of_frames fun x hx => (hs.frames x hx).2

theorem Steady.grounded (hs : h.Steady W h') (hg : h.Grounded ty) : h'.Grounded ty :=
  hg.later hs.sameKinds hs.functions_le hs.firm.classes_le hs.modules_le

theorem Extends.classObject (he : Extends h h') (ht : h.ty t = .classObject c) : h'.ty t = .classObject c := by
  have halike := he.alike t (has_of_ty_ne (by simp [ht]))
  rw [ht] at halike
  revert halike
  cases h'.ty t <;> simp [Widens]

end Kinds

namespace Furnished

variable (hf : h.Furnished)
include hf

theorem ofTypes {types : Array Ty} (he : Extends h { h with types })
    (hg : ∀ t, h.Grounded (Heap.ty { h with types } t)) : Furnished { h with types } where
  unknown := ⟨he.has hf.unknown.1, he.unknown hf.unknown.1 hf.unknown.2⟩
  types t := (hg t).later (.of_scopes_eq rfl) (Nat.le_refl _) (Nat.le_refl _) (Nat.le_refl _)
  functions := hf.functions
  classes c hc := ⟨(hf.classes c hc).1, he.classObject (hf.classes c hc).2⟩
  methods := hf.methods
  supers := hf.supers

theorem ofNewType (hty : h.Grounded ty) : Furnished { h with types := h.types.push ty } := by
  refine hf.ofTypes (extends_push ty) fun t => ?_
  rw [ty_push]
  split
  · exact hty
  · exact hf.types t

theorem ofWiden (like : Widens (h.ty t) ty) : Furnished { h with types := h.types.setIfInBounds t.index ty } := by
  refine hf.ofTypes (extends_widen like) fun u => ?_
  rw [ty_set]
  split
  · revert like
    cases h.ty t <;> cases ty <;> simp [Widens, Grounded]
  · exact hf.types u

theorem ofScopes (scopes : Array Scope) (bindings : Array Binding) (references : Array Reference)
    (hk : h.SameKinds { h with scopes, bindings, references })
    (hsupers : ∀ x, ∀ y ∈ (Heap.scope { h with scopes, bindings, references } x).supers,
      y ∈ (h.scope x).supers ∨ Heap.MayInherit { h with scopes, bindings, references } x y) :
    Furnished { h with scopes, bindings, references } where
  unknown := hf.unknown
  types t := (hf.types t).later hk (Nat.le_refl _) (Nat.le_refl _) (Nat.le_refl _)
  functions f hlt := hk.keeps (hf.functions f hlt) (by simp)
  classes c hc := ⟨hk.keeps (hf.classes c hc).1 (by simp), (hf.classes c hc).2⟩
  methods := hf.methods
  supers x y hy := by
    rcases hsupers x y hy with hold | hnew
    · exact (hf.supers x y hold).later hk
    · exact hnew

theorem ofBindings (bindings : Array Binding) : Furnished { h with bindings } :=
  hf.ofScopes h.scopes bindings h.references (.of_scopes_eq rfl) fun _ _ hy => .inl hy

theorem ofNewScope {scope : Scope} (hsupers : ∀ y ∈ scope.supers,
      (scope.kind = .classBody ∨ scope.kind = .object) ∧ (h.scope y).kind = .classBody) :
    Furnished { h with scopes := h.scopes.push scope } := by
  have hk : h.SameKinds { h with scopes := h.scopes.push scope } := .of_frames fun x hx => by
    rw [scope_push_of_lt hx]
    exact .refl _
  refine hf.ofScopes _ h.bindings h.references hk fun x y hy => ?_
  rw [MayInherit, scope_push x]
  rw [scope_push] at hy
  split
  · rename_i hx
    rw [if_pos hx] at hy
    exact .inr ⟨(hsupers y hy).1, hk.keeps (hsupers y hy).2 (by simp)⟩
  · rename_i hx
    rw [if_neg hx] at hy
    exact .inl hy

theorem ofScope (same : ∀ x, SameFrame x (change x))
    (hsupers : ∀ y ∈ (change (h.scope s)).supers, y ∈ (h.scope s).supers ∨ h.MayInherit s y) :
    Furnished { h with scopes := h.scopes.modify s.index change } := by
  have hk : h.SameKinds { h with scopes := h.scopes.modify s.index change } := fun x _ => by
    rw [scope_modify]
    split
    · exact (same _).kind
    · rfl
  refine hf.ofScopes _ h.bindings h.references hk fun x y hy => ?_
  rw [scope_modify] at hy
  split at hy
  · rename_i hx
    rw [hx.1] at hy ⊢
    exact (hsupers y hy).imp_right (MayInherit.later · hk)
  · exact .inl hy

theorem withTable (table : Table String (List BindingId)) (bindings : Array Binding) :
    (h.withTable table bindings).Furnished := by
  have hsame : ∀ x, (Heap.scope (h.withTable table bindings) x).kind = (h.scope x).kind ∧
      (Heap.scope (h.withTable table bindings) x).supers = (h.scope x).supers := by
    intro x
    show (Heap.scope { h with scopes := h.scopes.modify moduleTable.index fun scope => { scope with table } } x).kind = _ ∧
      (Heap.scope { h with scopes := h.scopes.modify moduleTable.index fun scope => { scope with table } } x).supers = _
    rw [scope_modify]
    split <;> exact ⟨rfl, rfl⟩
  exact hf.ofScopes _ bindings h.references (fun x _ => (hsame x).1) fun x y hy => .inl ((hsame x).2 ▸ hy)

theorem ofFunction {f : FunctionId} (hkeeps : ∀ g, (change g).table = g.table ∧ (change g).cls = g.cls) :
    Furnished { h with functions := h.functions.modify f.index change } := by
  have hfunction : ∀ x, (Heap.function { h with functions := h.functions.modify f.index change } x).table =
      (h.function x).table ∧
      (Heap.function { h with functions := h.functions.modify f.index change } x).cls = (h.function x).cls := by
    intro x
    rw [Heap.function, getD_modify]
    split
    · exact hkeeps _
    · exact ⟨rfl, rfl⟩
  have hsize : (h.functions.modify f.index change).size = h.functions.size := Array.size_modify ..
  refine ⟨hf.unknown, fun t => ?_, fun x hx => ?_, hf.classes, fun x c hc => ?_, hf.supers⟩
  · exact (hf.types t).later (.of_scopes_eq rfl) (Nat.le_of_eq hsize.symm) (Nat.le_refl _) (Nat.le_refl _)
  · rw [(hfunction x).1]
    exact hf.functions x (hsize ▸ hx)
  · rw [(hfunction x).2] at hc
    exact hf.methods x c hc

theorem ofClass {c : ClassId} (hkeeps : ∀ g, (change g).table = g.table ∧ (change g).type = g.type) :
    Furnished { h with classes := h.classes.modify c.index change } := by
  have hcls : ∀ x, (Heap.cls { h with classes := h.classes.modify c.index change } x).table = (h.cls x).table ∧
      (Heap.cls { h with classes := h.classes.modify c.index change } x).type = (h.cls x).type := by
    intro x
    rw [Heap.cls, getD_modify]
    split
    · exact hkeeps _
    · exact ⟨rfl, rfl⟩
  have hsize : (h.classes.modify c.index change).size = h.classes.size := Array.size_modify ..
  refine ⟨hf.unknown, fun t => ?_, hf.functions, fun x hx => ?_, fun f x hx => ?_, hf.supers⟩
  · exact (hf.types t).later (.of_scopes_eq rfl) (Nat.le_refl _) (Nat.le_of_eq hsize.symm) (Nat.le_refl _)
  · rw [(hcls x).1, (hcls x).2]
    exact hf.classes x (hsize ▸ hx)
  · exact Nat.lt_of_lt_of_eq (hf.methods f x hx) hsize.symm

theorem ofNewFunction (htable : (h.scope g.table).kind = .function)
    (hcls : ∀ c, g.cls = some c → c.index < h.classes.size) :
    Furnished { h with functions := h.functions.push g } := by
  have hfunction : ∀ f : FunctionId, Heap.function { h with functions := h.functions.push g } f =
      if f.index = h.functions.size then g else h.function f := fun f => getD_push
  have hsize : (h.functions.push g).size = h.functions.size + 1 := Array.size_push _
  refine ⟨hf.unknown, fun t => ?_, fun f hlt => ?_, hf.classes, fun f c hc => ?_, hf.supers⟩
  · exact (hf.types t).later (.of_scopes_eq rfl) (Nat.le_of_lt (hsize ▸ Nat.lt_succ_self _)) (Nat.le_refl _)
      (Nat.le_refl _)
  · rw [hfunction]
    split
    · exact htable
    · rename_i hne
      exact hf.functions f (Nat.lt_of_le_of_ne (Nat.le_of_lt_succ (Nat.lt_of_lt_of_eq hlt hsize)) hne)
  · rw [hfunction] at hc
    split at hc
    · exact hcls c hc
    · exact hf.methods f c hc

theorem ofNewClass (htable : (h.scope c.table).kind = .classBody) (htype : c.type = ⟨h.types.size⟩) : Furnished
      { h with types := h.types.push (.classObject ⟨h.classes.size⟩), classes := h.classes.push c } := by
  have hcls : ∀ x : ClassId, Heap.cls { h with types := h.types.push (.classObject ⟨h.classes.size⟩), classes := h.classes.push c } x =
      if x.index = h.classes.size then c else h.cls x := fun x => getD_push
  have hsize : (h.classes.push c).size = h.classes.size + 1 := Array.size_push _
  have hle : h.classes.size ≤ (h.classes.push c).size := Nat.le_of_lt (hsize ▸ Nat.lt_succ_self _)
  have he : Extends h { h with types := h.types.push (.classObject ⟨h.classes.size⟩), classes := h.classes.push c } :=
    .of_push rfl
  refine ⟨⟨he.has hf.unknown.1, he.unknown hf.unknown.1 hf.unknown.2⟩, fun t => ?_, hf.functions, fun x hx => ?_,
    fun f x hx => ?_, hf.supers⟩
  · rw [ty_of_push rfl]
    split
    · exact Nat.lt_of_lt_of_eq (Nat.lt_succ_self _) hsize.symm
    · exact (hf.types t).later (.of_scopes_eq rfl) (Nat.le_refl _) hle (Nat.le_refl _)
  · rw [hcls]
    split
    · rename_i heq
      rw [htype]
      refine ⟨htable, (ty_of_push rfl).trans ((if_pos rfl).trans ?_)⟩
      rw [← heq]
    · rename_i hne
      obtain ⟨hkind, hty⟩ := hf.classes x (Nat.lt_of_le_of_ne (Nat.le_of_lt_succ (Nat.lt_of_lt_of_eq hx hsize)) hne)
      exact ⟨hkind, he.classObject hty⟩
  · exact Nat.lt_of_lt_of_le (hf.methods f x hx) hle

theorem ofNewModule (m : ModuleInfo) : Furnished { h with modules := h.modules.push m } :=
  { hf with
    types := fun t => (hf.types t).later (.of_scopes_eq rfl) (Nat.le_refl _) (Nat.le_refl _) (by simp)
    supers := hf.supers }

theorem lt_of_class (ht : h.ty t = .classObject c) : c.index < h.classes.size := by
  have hg := hf.types t
  rwa [ht] at hg

theorem type_cls (c : ClassId) :
    (∃ d, h.ty (h.cls c).type = .classObject d) ∨ h.Has (h.cls c).type ∧ h.ty (h.cls c).type = .unknown := by
  by_cases hc : c.index < h.classes.size
  · exact .inl ⟨c, (hf.classes c hc).2⟩
  · have hnone : h.cls c = default := by
      rw [Heap.cls, Array.getD_eq_getD_getElem?, Array.getElem?_eq_none (Nat.le_of_not_lt hc)]
      rfl
    rw [hnone]
    exact .inr hf.unknown

end Furnished

theorem Apart.ofReferences (ha : h.Apart) (references : Array Reference) : Apart { h with references } :=
  { ha with
    housed := { ha.housed with }
    furnished := ha.furnished.ofScopes h.scopes h.bindings references (.of_scopes_eq rfl)
      fun _ _ hy => .inl hy }

end Heap

end Concordance
