import Concordance.Proofs.Heap.Furnished
import Concordance.Session.Library

/-!
# Work that keeps to its scopes

`Tame W h x` says of the work `x` on the heap that it keeps what ordinary work keeps and binds names in the scopes of `W`
only, on any heap that comes after `h` in this way. Almost all work binds no names at all.
-/

namespace Concordance

open Session (moduleTable)
open Heap (Apart BindsIn)

/-- Work that keeps what ordinary work keeps and binds names in certain scopes only, on any heap that comes after the
given one by such work. -/
structure Tame {α : Type} (W : ScopeId → Prop) (h : Heap) (x : HeapM α) : Prop where
  run : ∀ g, h.Steady W g → g.Apart → g.Steady W (x.run g).2 ∧ (x.run g).2.Apart

namespace Tame

theorem pure : Tame W h (Pure.pure a) := ⟨fun g _ ha => ⟨.refl g, ha⟩⟩

theorem bind (hx : Tame W h x) (hf : ∀ a, Tame W h (f a)) : Tame W h (x >>= f) := by
  refine ⟨fun g hg ha => ?_⟩
  obtain ⟨hs, ha'⟩ := hx.run g hg ha
  obtain ⟨hs', ha''⟩ := (hf (x.run g).1).run _ (hg.trans hs) ha'
  exact ⟨hs.trans hs', ha''⟩

theorem get_bind (hf : ∀ g, h.Steady W g → g.Apart → Tame W g (f g)) : Tame W h (get >>= f) :=
  ⟨fun g hg ha => (hf g hg ha).run g (.refl g) ha⟩

theorem change {c : Heap → Heap} (hc : ∀ g, h.Steady W g → g.Apart → g.Steady W (c g) ∧ (c g).Apart) :
    Tame W h (modify c) := ⟨hc⟩

theorem foldlM (xs : List β) (hf : ∀ acc, ∀ x ∈ xs, Tame W h (f acc x)) : Tame W h (xs.foldlM f a) := by
  induction xs generalizing a with
  | nil => exact pure
  | cons x xs ih =>
    rw [List.foldlM_cons]
    exact bind (hf a x (.head _)) fun _ => ih fun acc y hy => hf acc y (.tail _ hy)

theorem forM (xs : List β) (hf : ∀ x ∈ xs, Tame W h (f x)) : Tame W h (xs.forM f) := by
  induction xs with
  | nil => exact pure
  | cons x xs ih =>
    rw [List.forM_eq_forM, List.forM_cons]
    exact bind (hf x (.head _)) fun _ => ih fun y hy => hf y (.tail _ hy)

end Tame

variable {h : Heap}

section Types

theorem newType_tame (hty : h.Grounded ty) : Tame W h (newType ty) :=
  ⟨fun _ hg ha => ⟨.ofTypes (Heap.extends_push ty), ha.ofTypes (Heap.extends_push ty),
    ha.furnished.ofNewType (hg.grounded hty)⟩⟩

theorem Heap.Apart.ofWiden {g : Heap} {ty : Ty} (ha : g.Apart) (hwiden : Heap.Widens (g.ty t) ty) :
    Apart { g with types := g.types.setIfInBounds t.index ty } :=
  ⟨ha.ofTypes (Heap.extends_widen hwiden), ha.furnished.ofWiden hwiden⟩

theorem setList_tame (ht : h.ty t = .list e shape) : Tame W h (setType t (.list e' shape')) := by
  refine .change fun g hg ha => ?_
  obtain ⟨_, _, hty⟩ := hg.types.list ht
  have hwiden : Heap.Widens (g.ty t) (.list e' shape') := by rw [hty]; trivial
  exact ⟨.ofTypes (Heap.extends_widen hwiden), ha.ofWiden hwiden⟩

theorem setDict_tame (ht : h.ty t = .dict k v) : Tame W h (setType t (.dict k' v')) := by
  refine .change fun g hg ha => ?_
  obtain ⟨_, _, hty⟩ := hg.types.dict ht
  have hwiden : Heap.Widens (g.ty t) (.dict k' v') := by rw [hty]; trivial
  exact ⟨.ofTypes (Heap.extends_widen hwiden), ha.ofWiden hwiden⟩

theorem unionOf_tame (ts : List TypeId) : Tame W h (unionOf ts) := by
  refine .get_bind fun g _ _ => ?_
  split
  · exact .pure
  · exact .pure
  · exact newType_tame trivial

theorem union_tame (u v : TypeId) : Tame W h (union u v) := by
  refine .get_bind fun g _ _ => ?_
  split
  · exact .pure
  · split
    · exact .pure
    · split
      · exact .pure
      · exact unionOf_tame _

theorem unionAll_tame (ts : List TypeId) : Tame W h (unionAll ts) := .foldlM ts fun _ _ _ => union_tame ..

theorem stripContinues_tame (t replacement : TypeId) : Tame W h (stripContinues t replacement) := by
  refine .get_bind fun g _ _ => ?_
  split
  · exact .pure
  · split
    · split
      · exact .foldlM _ fun _ _ _ => .get_bind fun _ _ _ => union_tame ..
      · exact .pure
    · exact .pure

mutual

theorem build_tame : ∀ {h : Heap} (r : Recipe), Tame W h (build r)
  | _, .existing _ => .pure
  | _, .list e => (build_tame e).bind fun _ => newType_tame trivial
  | _, .tuple es => (buildAll_tame es).bind fun _ => newType_tame trivial
  | _, .dict k v => (build_tame k).bind fun _ => (build_tame v).bind fun _ => newType_tame trivial
  | _, .union ms => (buildAll_tame ms).bind fun _ => unionOf_tame _
  | _, .rawUnion ms => (buildAll_tame ms).bind fun _ => .get_bind fun _ _ _ => newType_tame trivial

theorem buildAll_tame : ∀ {h : Heap} (rs : List Recipe), Tame W h (buildAll rs)
  | _, [] => .pure
  | _, r :: rs => (build_tame r).bind fun _ => (buildAll_tame rs).bind fun _ => .pure

end

theorem nativeResult_tame (f : FunctionId) : Tame W h (nativeResult f) := by
  refine .get_bind fun g _ _ => ?_
  split
  · exact build_tame _
  · exact .pure

theorem addElement_tame (t element : TypeId) : Tame W h (addElement t element) := by
  refine .get_bind fun g _ _ => ?_
  split
  · rename_i hty
    exact (union_tame ..).bind fun _ => setList_tame hty
  · exact .pure

theorem widenList_tame (t element : TypeId) : Tame W h (widenList t element) := by
  refine .get_bind fun g _ _ => ?_
  split
  · rename_i hty
    exact (union_tame ..).bind fun _ => setList_tame hty
  · exact .pure

theorem addEntry_tame (t key value : TypeId) : Tame W h (addEntry t key value) := by
  refine .get_bind fun g _ _ => ?_
  split
  · rename_i hty
    refine (union_tame ..).bind fun _ => (setDict_tame hty).bind fun _ => ?_
    exact (union_tame ..).bind fun _ => setDict_tame hty
  · exact .pure

theorem listOf_tame (t : TypeId) : Tame W h (listOf t) := by
  refine .get_bind fun g _ _ => ?_
  split
  · exact (unionAll_tame _).bind fun _ => newType_tame trivial
  · exact newType_tame trivial
  · exact .pure

end Types

section Names

theorem typeOfBindings_tame (bs : List BindingId) : Tame W h (typeOfBindings bs) :=
  .foldlM bs fun _ _ _ => .get_bind fun _ _ _ => union_tame ..

theorem modifyScope_tame (hs : s ≠ moduleTable)
    (same : ∀ x, Heap.SameFrame x (change x)) (declared : ∀ x name, name ∈ x.globals → name ∈ (change x).globals)
    (table : ∀ x, (change x).table = x.table)
    (supers : ∀ x, ∀ y ∈ (change x).supers, y ∈ x.supers ∨ h.MayInherit s y) : Tame W h (modifyScope s change) := by
  refine .change fun g hg ha => ⟨.ofScope hs same declared fun _ => table,
    ha.ofScope hs same declared fun bs hbs => .inl ?_, ha.furnished.ofScope same fun y hy => ?_⟩
  · rwa [table] at hbs
  · exact (supers _ y hy).imp_right fun hx => hx.later hg.sameKinds

theorem addSuper_tame (hs : s ≠ moduleTable) (hx : h.MayInherit s super) : Tame W h (addSuper s super) := by
  refine modifyScope_tame hs (fun x => by split <;> exact ⟨rfl, rfl, rfl, rfl⟩)
    (fun x name hn => by split <;> exact hn) (fun x => by split <;> rfl) fun x y hy => ?_
  split at hy
  · exact .inl hy
  · refine (List.mem_append.1 hy).imp_right fun hnew => ?_
    rw [List.mem_singleton.1 hnew]
    exact hx

theorem declareGlobal_tame (hs : s ≠ moduleTable) (name : String) : Tame W h (declareGlobal s name) := by
  refine modifyScope_tame hs (fun x => by split <;> exact ⟨rfl, rfl, rfl, rfl⟩) (fun x n hn => ?_)
    (fun x => by split <;> rfl) fun x y hy => ?_
  · split
    · exact hn
    · exact List.mem_append_left _ hn
  · split at hy <;> exact .inl hy

theorem declareNonlocal_tame (hs : s ≠ moduleTable) (name : String) : Tame W h (declareNonlocal s name) :=
  modifyScope_tame hs (fun x => by split <;> exact ⟨rfl, rfl, rfl, rfl⟩)
    (fun x n hn => by split <;> exact hn) (fun x => by split <;> rfl) fun x y hy => by split at hy <;> exact .inl hy

theorem updateName_tame (hw : W s) (hs : s ≠ moduleTable) (name : String)
    (hsingle : ∃ b, bs = [b]) (hbs : ∀ b ∈ bs, h.Elsewhere b) : Tame W h (updateName s name bs) := by
  have same : ∀ x : Scope, Heap.SameFrame x { x with table := x.table.insert name bs } := fun _ => ⟨rfl, rfl, rfl, rfl⟩
  have declared : ∀ (x : Scope) n, n ∈ x.globals → n ∈ Scope.globals { x with table := x.table.insert name bs } :=
    fun _ _ hn => hn
  refine .change fun g hg ha =>
    ⟨.ofScope hs same declared fun hnot => absurd hw hnot, ha.ofScope hs same declared fun cs hcs => ?_,
      ha.furnished.ofScope same fun _ hy => .inl hy⟩
  rcases Table.mem_values_insert hcs with rfl | hcs
  · exact .inr ⟨hsingle, fun b hb => hg.elsewhere (hbs b hb)⟩
  · exact .inl hcs

theorem modifyBinding_tame (same : ∀ x, Heap.SameOrigin x (change x))
    (type : ∀ x, (change x).type = x.type) : Tame W h (modifyBinding b change) := by
  refine .change fun g _ ha => ⟨.ofBinding (.inr type) same ?_, ha.ofBinding (.inr type), ha.furnished.ofBindings _⟩
  refine Heap.Prolongs.retains ⟨.of_types_eq rfl, fun _ _ hc => hc, fun _ _ hf => hf⟩ fun x hx => ⟨?_, ?_⟩
  · exact Nat.lt_of_lt_of_eq hx (Array.size_modify ..).symm
  · exact Heap.type_modify (.inr type)

theorem addReference_tame (b : BindingId) (r : ReferenceId) : Tame W h (addReference b r) := by
  refine .get_bind fun g _ _ => ?_
  split
  · exact .pure
  · exact modifyBinding_tame (fun _ => ⟨rfl, rfl, rfl, rfl, rfl, rfl, rfl, rfl, rfl⟩) fun _ => rfl

theorem newReference_tame (r : Reference) : Tame W h (newReference r) := by
  refine ⟨fun g _ ha => ⟨?_, ha.ofReferences _⟩⟩
  exact .ofSame rfl rfl (.of_types_eq rfl) (.ofSame rfl rfl rfl) rfl (fun _ _ _ _ => rfl)
    fun hc => hc.retains fun _ hb => ⟨hb, rfl⟩

end Names

section Insertion

theorem Scope.bound_cases (x : Scope) (name : String) : x.bound? name = none ∨ ∃ b bs, x.bound? name = some (b :: bs) := by
  unfold Scope.bound?
  split
  · exact .inr ⟨_, _, rfl⟩
  · exact .inl rfl

/-- A binding as it is made for a name in a scope, before it is described. -/
def Heap.plainBinding (h : Heap) (s : ScopeId) (name : String) (type : TypeId) (kind : BindingKind) : Binding :=
  let qname := h.qualifiedName s name type
  { name, origin := none, qname := if qname = "" then name else qname, type, kind }

def Heap.withName (h : Heap) (s : ScopeId) (name : String) (x : Binding) : Heap :=
  { h with
    bindings := h.bindings.push x
    scopes := h.scopes.modify s.index fun scope => { scope with table := scope.table.insert name [⟨h.bindings.size⟩] } }

def Heap.retyped (h : Heap) (b : BindingId) (type : TypeId) : Heap :=
  { h with bindings := h.bindings.modify b.index fun x => { x with type } }

theorem run_insertName_new (hb : (h.scope s).bound? name = none) :
    (insertName s name type kind describe).run h =
      ((⟨h.bindings.size⟩, false), h.withName s name (describe (h.plainBinding s name type kind))) := by
  rw [insertName, StateT.run_bind, StateT.run_get, pure_bind, hb]
  rfl

theorem run_insertName_bound (hb : (h.scope s).bound? name = some (b :: bs)) :
    (insertName s name type kind describe).run h = ((b, true),
      ((union (h.binding b).type type).run h).2.retyped b ((union (h.binding b).type type).run h).1) := by
  rw [insertName, StateT.run_bind, StateT.run_get, pure_bind, hb]
  rfl

theorem exists_types_union (h : Heap) (u v : TypeId) :
    ∃ types, ((union u v).run h).2 = { h with types } ∧ h.Extends { h with types } := by
  have hsame : ∃ types, h = { h with types } ∧ h.Extends { h with types } := ⟨h.types, rfl, .refl h⟩
  rw [run_union, run_unionOf]
  split
  · exact hsame
  · split
    · exact hsame
    · split
      · exact hsame
      · split
        · exact hsame
        · exact hsame
        · exact ⟨_, rfl, Heap.extends_push _⟩

theorem insertName_made (hold : ¬ h.HasBinding b)
    (hnew : ((insertName s name type kind describe).run h).2.HasBinding b) :
    ((insertName s name type kind describe).run h).2.binding b = describe (h.plainBinding s name type kind) := by
  rcases (h.scope s).bound_cases name with hnone | ⟨c, cs, hbound⟩
  · rw [run_insertName_new hnone] at hnew ⊢
    have hlt : b.index < h.bindings.size + 1 := Nat.lt_of_lt_of_eq hnew (Array.size_push _)
    exact getD_push.trans (if_pos (Nat.le_antisymm (Nat.le_of_lt_succ hlt) (Nat.le_of_not_lt hold)))
  · -- Where the name is bound already, there are as many bindings as before.
    rw [run_insertName_bound hbound] at hnew
    obtain ⟨types, heap, _⟩ := exists_types_union h (h.binding c).type type
    rw [heap] at hnew
    exact absurd (Nat.lt_of_lt_of_eq hnew (Array.size_modify ..)) hold

theorem Heap.type_retyped (hb : h.HasBinding b) : ((h.retyped b t).binding b).type = t := by
  rw [retyped, Heap.binding, getD_modify, if_pos ⟨rfl, hb⟩]

theorem Heap.prolongs_retyped : h.Prolongs (h.retyped b t) := ⟨.of_types_eq rfl, fun _ _ hc => hc, fun _ _ hf => hf⟩

theorem Heap.retains_merged (h : Heap) (b : BindingId) (v : TypeId) :
    h.Retains (((union (h.binding b).type v).run h).2.retyped b ((union (h.binding b).type v).run h).1) := by
  have hleft := fun m hm hplain => includes_union_left (h := h) (m := m) (u := (h.binding b).type) (v := v) hm hplain
  obtain ⟨types, heap, hextends⟩ := exists_types_union h (h.binding b).type v
  rcases hrun : (union (h.binding b).type v).run h with ⟨w, h'⟩
  rw [hrun] at hleft heap
  subst heap
  have hc : h.Prolongs { h with types } := ⟨hextends, fun _ _ hc => hc, fun _ _ hf => hf⟩
  intro x hx
  refine ⟨Nat.lt_of_lt_of_eq hx (Array.size_modify ..).symm, fun m hm hplain => ?_⟩
  have hplain' : (Heap.ty { h with types } m).isPlain = true := by rwa [hc.ty_eq hplain]
  -- Merging keeps the alternatives of the first type, and no other binding changes.
  by_cases heq : x = b
  · subst heq
    have htype : ((retyped { h with types } x w).binding x).type = w := type_retyped hx
    rw [htype]
    exact prolongs_retyped.includes hplain' (hleft m hm hplain)
  · have htype : ((retyped { h with types } b w).binding x).type = (h.binding x).type := type_modify (.inl heq)
    rw [htype]
    exact prolongs_retyped.includes hplain' (hc.includes hplain (includes_self hm))

theorem insertName_tame (hw : W s) (hs : s ≠ moduleTable) (name : String) (type : TypeId) (kind : BindingKind)
    (describe : Binding → Binding) : Tame W h (insertName s name type kind describe) := by
  refine ⟨fun g _ ha => ?_⟩
  rcases (g.scope s).bound_cases name with hb | ⟨b, bs, hb⟩
  · -- A new binding is made, which nothing refers to, and then the name leads to it.
    rw [run_insertName_new hb]
    obtain ⟨x, hx⟩ : ∃ x, x = describe (g.plainBinding s name type kind) := ⟨_, rfl⟩
    rw [← hx]
    have hnew : g.Steady W { g with bindings := g.bindings.push x } := .ofNewBinding ha.toSecluded hw x
    have hupdate : Tame W { g with bindings := g.bindings.push x } (updateName s name [⟨g.bindings.size⟩]) := by
      refine updateName_tame hw hs name ⟨_, rfl⟩ fun b hb => ?_
      rw [List.mem_singleton.1 hb]
      exact ⟨Nat.lt_of_lt_of_eq (Nat.lt_succ_self _) (Array.size_push _).symm, fun cs hcs => ha.fresh_binding hcs⟩
    obtain ⟨hs', ha'⟩ := hupdate.run _ (.refl _) ⟨ha.ofNewBinding x, ha.furnished.ofBindings _⟩
    exact ⟨hnew.trans hs', ha'⟩
  · rw [run_insertName_bound hb]
    have hretains := g.retains_merged b type
    have hunion := ((union_tame (W := W) (g.binding b).type type).run g (.refl g) ha).2
    obtain ⟨types, heap, hextends⟩ := exists_types_union g (g.binding b).type type
    rcases hrun : (union (g.binding b).type type).run g with ⟨w, g'⟩
    rw [hrun] at hretains heap hunion
    subst heap
    -- What is bound in this scope is not in the table of modules.
    have hout := (ha.unshared s hs _ (Scope.mem_values_of_bound hb) b (.head _)).2
    have htypes : BindsIn W g { g with types } := .ofSame rfl rfl rfl
    have hbinds : BindsIn W g (Heap.retyped { g with types } b w) :=
      htypes.trans (.ofBinding fun _ => ⟨rfl, rfl, rfl, rfl, rfl, rfl, rfl, rfl, rfl⟩)
    refine ⟨.ofSame rfl rfl (hextends.trans (.of_types_eq rfl)) hbinds rfl (fun cs hcs x hx => ?_) fun _ => hretains,
      hunion.ofBinding (.inl hout), hunion.furnished.ofBindings _⟩
    exact Heap.type_modify_of_mem (.inl hout) hcs hx

end Insertion

section Objects

theorem modifyFunction_tame
    (hkeeps : ∀ g, (change g).code = g.code ∧ (change g).table = g.table) (hcls : ∀ g, (change g).cls = g.cls) :
    Tame W h (modifyFunction f change) :=
  .change fun _ _ ha => ⟨.ofFunction hkeeps, ha.ofFunction hkeeps,
    ha.furnished.ofFunction fun g => ⟨(hkeeps g).2, hcls g⟩⟩

theorem modifyClass_tame
    (hkeeps : ∀ g, (change g).table = g.table ∧ (change g).type = g.type) : Tame W h (modifyClass c change) :=
  .change fun _ _ ha => ⟨.ofClass fun g => (hkeeps g).1, ha.ofClass fun g => (hkeeps g).1, ha.furnished.ofClass hkeeps⟩

namespace Heap.Apart

variable (ha : h.Apart)
include ha

theorem addType (ty : Ty) (hty : h.Grounded ty) :
    h.Steady W { h with types := h.types.push ty } ∧ Apart { h with types := h.types.push ty } :=
  (newType_tame hty).run h (.refl h) ha

theorem addScope (scope : Scope) (parent : ∀ p, scope.parent = some p → h.MayEnclose p)
    (topmost : scope.kind = .module → scope.parent = some Session.globals)
    (enclosed : scope.parent = none ↔ scope.kind = .global ∨ scope.kind = .object) (empty : scope.table = {})
    (supers : ∀ y ∈ scope.supers, (scope.kind = .classBody ∨ scope.kind = .object) ∧ (h.scope y).kind = .classBody) :
    h.Steady W { h with scopes := h.scopes.push scope } ∧ Apart { h with scopes := h.scopes.push scope } :=
  ⟨.ofNewScope ha.toSecluded empty, ha.ofNewScope parent topmost enclosed empty, ha.furnished.ofNewScope supers⟩

theorem addInner (scope : Scope) (hparent : h.MayEnclose parent) (hscope : scope.parent = some parent)
    (kind : scope.kind = .function ∨ scope.kind = .classBody) (empty : scope.table = {}) (supers : scope.supers = []) :
    h.Steady W { h with scopes := h.scopes.push scope } ∧ Apart { h with scopes := h.scopes.push scope } := by
  refine ha.addScope scope (fun p hp => ?_) (fun hmodule => ?_) (by rcases kind with hk | hk <;> simp [hscope, hk]) empty
    fun y hy => ?_
  · rw [hscope] at hp
    exact Option.some.inj hp ▸ hparent
  · rw [hmodule] at kind
    rcases kind with hk | hk <;> cases hk
  · rw [supers] at hy
    cases hy

theorem addFunction (g : Function) (hcode : g.code = none) (hne : g.table ≠ moduleTable)
    (htable : (h.scope g.table).kind = .function) (hcls : ∀ c, g.cls = some c → c.index < h.classes.size) :
    h.Steady W { h with functions := h.functions.push g } ∧ Apart { h with functions := h.functions.push g } :=
  ⟨.ofNewFunction hcode, ha.ofNewFunction hne, ha.furnished.ofNewFunction htable hcls⟩

theorem addClass (c : ClassInfo) (hne : c.table ≠ moduleTable) (htable : (h.scope c.table).kind = .classBody)
    (htype : c.type = ⟨h.types.size⟩) :
    h.Steady W { h with types := h.types.push (.classObject ⟨h.classes.size⟩), classes := h.classes.push c } ∧
      Apart { h with types := h.types.push (.classObject ⟨h.classes.size⟩), classes := h.classes.push c } := by
  have hclass : h.Steady W { h with classes := h.classes.push c } := .ofNewClass c
  exact ⟨hclass.trans (.ofTypes (Heap.extends_push _)), (ha.ofNewClass hne).ofTypes (Heap.extends_push _),
    ha.furnished.ofNewClass htable htype⟩

theorem addModule (scope : Scope) (info : ModuleInfo) (kind : scope.kind = .module)
    (parent : scope.parent = some Session.globals) (empty : scope.table = {}) (supers : scope.supers = [])
    (table : info.table = ⟨h.scopes.size⟩) :
    h.Steady W { h with scopes := h.scopes.push scope, modules := h.modules.push info } ∧
      Apart { h with scopes := h.scopes.push scope, modules := h.modules.push info } := by
  have hfurnished : Furnished { h with scopes := h.scopes.push scope } := ha.furnished.ofNewScope fun y hy => by
    rw [supers] at hy
    cases hy
  exact ⟨.ofNewModule ha.toSecluded empty table, ha.ofNewModule kind parent empty table, hfurnished.ofNewModule info⟩

end Heap.Apart

theorem Heap.scope_new (h : Heap) (scope : Scope) :
    Heap.scope { h with scopes := h.scopes.push scope } ⟨h.scopes.size⟩ = scope := (Heap.scope_push _).trans (if_pos rfl)

theorem newFunction_tame (name : String) (hparent : h.MayEnclose parent) :
    Tame W h (newFunction name none (some parent) none) := by
  refine ⟨fun g hg ha => ?_⟩
  obtain ⟨hs, ha1⟩ := ha.addInner (W := W)
    { kind := .function, path := g.pathIn (some parent) name, parent := some parent, owner := some ⟨g.types.size⟩ }
    (hg.mayEnclose hparent) rfl (.inl rfl) rfl rfl
  obtain ⟨hs', ha2⟩ := ha1.addFunction (W := W)
    { name, code := none, type := ⟨g.types.size⟩, table := ⟨g.scopes.size⟩, env := none, returns := .unknown }
    rfl ha.fresh (congrArg Scope.kind (g.scope_new _)) fun c hc => by cases hc
  obtain ⟨hs'', ha3⟩ := ha2.addType (W := W) (.function ⟨g.functions.size⟩ none)
    (Nat.lt_of_lt_of_eq (Nat.lt_succ_self _) (Array.size_push _).symm)
  exact ⟨(hs.trans hs').trans hs'', ha3⟩

theorem newNative_tame (name : String) (result : Recipe) (hparent : h.MayEnclose parent) :
    Tame W h (newNative name result (some parent)) := by
  refine (newFunction_tame name hparent).bind fun _ => (build_tame result).bind fun _ => ?_
  exact .bind (modifyFunction_tame (fun _ => ⟨rfl, rfl⟩) fun _ => rfl) fun _ => .pure

theorem newClass_tame (name : String) (hparent : h.MayEnclose parent) :
    Tame W h (newClass name (some parent)) := by
  refine ⟨fun g hg ha => ?_⟩
  obtain ⟨hs, ha1⟩ := ha.addInner (W := W)
    { kind := .classBody, path := g.pathIn (some parent) name, parent := some parent, owner := some ⟨g.types.size⟩ }
    (hg.mayEnclose hparent) rfl (.inr rfl) rfl rfl
  obtain ⟨hs', ha2⟩ := ha1.addClass (W := W) { name, type := ⟨g.types.size⟩, table := ⟨g.scopes.size⟩ }
    ha.fresh (congrArg Scope.kind (g.scope_new _)) rfl
  exact ⟨hs.trans hs', ha2⟩

theorem newModule_tame (name : String) (file : Option String) (qname : String) :
    Tame W h (newModule name file (some Session.globals) qname) := by
  refine ⟨fun g _ ha => ?_⟩
  obtain ⟨hs, ha1⟩ := ha.addModule (W := W)
    ⟨.module, if qname = "" then name else qname, some Session.globals, {}, [], [], [], some ⟨g.types.size⟩⟩
    ⟨name, ⟨g.types.size⟩, ⟨g.scopes.size⟩, file, if qname = "" then name else qname⟩ rfl rfl rfl rfl rfl
  obtain ⟨hs', ha2⟩ := ha1.addType (W := W) (.module ⟨g.modules.size⟩)
    (Nat.lt_of_lt_of_eq (Nat.lt_succ_self _) (Array.size_push _).symm)
  exact ⟨hs.trans hs', ha2⟩

theorem addBase_tame (hc : c.index < h.classes.size)
    (hbase : (∃ d, h.ty base = .classObject d) ∨ h.Has base ∧ h.ty base = .unknown) : Tame W h (addBase c base) := by
  refine .bind (modifyClass_tame fun _ => ⟨rfl, rfl⟩) fun _ => .get_bind fun g hg ha => ?_
  have hf := ha.furnished
  rcases hbase with ⟨d, hd⟩ | ⟨hhas, hunknown⟩
  · have hd' := hg.types.classObject hd
    have hg' := hf.types base
    rw [hd'] at hg'
    rw [Heap.tableOf?, hd']
    exact addSuper_tame (ha.classes c) ⟨.inl (hf.classes c (hg.classes c hc).1).1, (hf.classes d hg').1⟩
  · rw [Heap.tableOf?, hg.types.unknown hhas hunknown]
    exact .pure

theorem newObject_tame (hc : c.index < h.classes.size) : Tame W h (newObject c) := by
  refine ⟨fun g hg ha => ?_⟩
  have hclass : (g.scope (g.cls c).table).kind = .classBody := (ha.furnished.classes c (hg.classes c hc).1).1
  obtain ⟨hs, ha1⟩ := ha.addScope (W := W)
    { kind := .object, path := (g.scope (g.cls c).table).path, supers := [(g.cls c).table], owner := some ⟨g.types.size⟩ }
    (fun p hp => by cases hp) (by simp) (by simp) rfl fun y hy => ⟨.inr rfl, List.mem_singleton.1 hy ▸ hclass⟩
  obtain ⟨hs', ha2⟩ := ha1.addType (W := W) (.object c ⟨g.scopes.size⟩) (congrArg Scope.kind (g.scope_new _))
  rw [newObject_run]
  exact ⟨hs.trans hs', ha2⟩

theorem canonOf_tame (hc : c.index < h.classes.size) : Tame W h (canonOf c) := by
  refine .get_bind fun g hg _ => ?_
  split
  · exact .pure
  · refine (newObject_tame (hg.classes c hc).1).bind fun _ => ?_
    exact .bind (modifyClass_tame fun _ => ⟨rfl, rfl⟩) fun _ => .pure

theorem addArrow_tame (f : FunctionId) (key result : TypeId) : Tame W h (addArrow f key result) := by
  refine .get_bind fun g _ _ => .bind (modifyFunction_tame (fun _ => ⟨rfl, rfl⟩) fun _ => rfl) fun _ => ?_
  exact (union_tame ..).bind fun _ => modifyFunction_tame (fun _ => ⟨rfl, rfl⟩) fun _ => rfl

theorem markCalled_tame (f : FunctionId) : Tame W h (markCalled f) :=
  modifyFunction_tame (fun _ => ⟨rfl, rfl⟩) fun _ => rfl

end Objects

section Library

def Heap.Unfiled (h : Heap) : Prop := ∀ b, h.HasBinding b → (h.binding b).file = none

/-- Work that makes the library, on any heap that comes after the given one by such work: names are bound in the outermost
scope only, and no binding has a file. -/
structure Stocks {α : Type} (h : Heap) (x : HeapM α) : Prop where
  run : ∀ g : Heap, h.Steady (· = Session.globals) g → g.Apart → g.Unfiled →
    g.Steady (· = Session.globals) (x.run g).2 ∧ (x.run g).2.Apart ∧ (x.run g).2.Unfiled

namespace Stocks

variable {α : Type} {x : HeapM α}

theorem of_tame (hx : ∀ (W : ScopeId → Prop) g, h.Steady (· = Session.globals) g → g.Apart → Tame W g x) : Stocks h x := by
  refine ⟨fun g hg ha hu => ?_⟩
  obtain ⟨hs, ha'⟩ := (hx (· = Session.globals) g hg ha).run g (.refl g) ha
  have hnowhere := ((hx Heap.Nowhere g hg ha).run g (.refl g) ha).1.toBindsIn
  refine ⟨hs, ha', fun b hb => ?_⟩
  have hold := hnowhere.hasBinding_back hb
  exact (hnowhere.origins b hold).2.file.trans (hu b hold)

theorem pure : Stocks h (Pure.pure a) := of_tame fun _ _ _ _ => .pure

theorem bind_run (hx : Stocks h x)
    (hf : ∀ g, h.Steady (· = Session.globals) g → Stocks (x.run g).2 (f (x.run g).1)) : Stocks h (x >>= f) := by
  refine ⟨fun g hg ha hu => ?_⟩
  obtain ⟨hs, ha', hu'⟩ := hx.run g hg ha hu
  obtain ⟨hs', ha'', hu''⟩ := (hf g hg).run _ (.refl _) ha' hu'
  exact ⟨hs.trans hs', ha'', hu''⟩

theorem bind (hx : Stocks h x) (hf : ∀ a, Stocks h (f a)) : Stocks h (x >>= f) := by
  refine ⟨fun g hg ha hu => ?_⟩
  obtain ⟨hs, ha', hu'⟩ := hx.run g hg ha hu
  obtain ⟨hs', ha'', hu''⟩ := (hf (x.run g).1).run _ (hg.trans hs) ha' hu'
  exact ⟨hs.trans hs', ha'', hu''⟩

theorem discard (hx : Stocks h x) : Stocks h (discard x) := by
  show Stocks h (_ <$> x)
  rw [map_eq_pure_bind]
  exact hx.bind fun _ => pure

theorem get_bind (hf : ∀ g, h.Steady (· = Session.globals) g → g.Apart → Stocks g (f g)) :
    Stocks h (get >>= f) := ⟨fun g hg ha => (hf g hg ha).run g (.refl g) ha⟩

theorem foldlM (xs : List β) (hf : ∀ acc y, Stocks h (f acc y)) : Stocks h (xs.foldlM f a) := by
  induction xs generalizing a with
  | nil => exact pure
  | cons y xs ih =>
    rw [List.foldlM_cons]
    exact (hf a y).bind fun _ => ih

theorem forM (xs : List β) (hf : ∀ y, Stocks h (f y)) : Stocks h (xs.forM f) := by
  induction xs with
  | nil => exact pure
  | cons y xs ih =>
    rw [List.forM_eq_forM, List.forM_cons]
    exact (hf y).bind fun _ => ih

end Stocks

theorem bindLibraryName_stocks (name : String) (type : TypeId) (kind : BindingKind) :
    Stocks h (bindLibraryName name type kind) := by
  refine .discard ⟨fun g _ ha hu => ?_⟩
  obtain ⟨hs, ha'⟩ := (insertName_tame (W := (· = Session.globals)) (s := Session.globals) rfl (by decide) ..).run g
    (.refl g) ha
  refine ⟨hs, ha', fun b hb => ?_⟩
  by_cases hold : g.HasBinding b
  · exact (hs.toBindsIn.origins b hold).2.file.trans (hu b hold)
  · rw [insertName_made hold hb]
    rfl

theorem newClass_lt (h : Heap) (name : String) (parent : Option ScopeId) :
    ((newClass name parent).run h).1.index < ((newClass name parent).run h).2.classes.size :=
  Nat.lt_of_lt_of_eq (Nat.lt_succ_self _) (Array.size_push _).symm

theorem newLibraryClass_stocks (known : Table String ClassId) (entry : String × List String) :
    Stocks h (newLibraryClass known entry) := by
  have hclass : Stocks h (newClass entry.1 (some Session.globals)) :=
    .of_tame fun _ _ _ ha => newClass_tame _ ha.mayEnclose_globals
  refine hclass.bind_run fun g _ => ?_
  have hlt := newClass_lt g entry.1 (some Session.globals)
  refine .bind (.of_tame fun _ _ _ _ => modifyClass_tame fun _ => ⟨rfl, rfl⟩) fun _ => ?_
  refine .bind (.forM _ fun base => ?_) fun _ => .get_bind fun _ _ _ => (bindLibraryName_stocks ..).bind fun _ => .pure
  split
  · exact .pure
  · rename_i b _
    refine .get_bind fun g1 hg1 ha1 => .of_tame fun W g2 hg2 _ => ?_
    refine addBase_tame (hg2.classes _ (hg1.classes _ hlt).1).1 ?_
    exact (ha1.furnished.type_cls b).imp (fun hd => hd.imp fun _ => hg2.types.classObject)
      fun hu => ⟨hg2.types.has hu.1, hg2.types.unknown hu.1 hu.2⟩

def Heap.outset : Heap := { Heap.initial with scopes := #[{ kind := .global }, { kind := .global }] }

theorem Heap.outset_scope (s : ScopeId) :
    (Heap.outset.scope s).parent = none ∧ (Heap.outset.scope s).table.values = [] := by
  obtain ⟨_ | _ | i⟩ := s <;> exact ⟨rfl, rfl⟩

theorem Heap.outset_secluded : Heap.outset.Secluded := by
  have hscope := Heap.outset_scope
  refine ⟨by decide, rfl, rfl, fun s => ?_, fun _ => ?_, fun _ => ?_, fun _ => ?_, fun bs hbs => ?_, fun s _ bs hbs => ?_,
    fun s _ bs hbs => ?_,
    by decide, ⟨rfl, rfl⟩, fun s p hp => ?_, fun _ hm => absurd hm (Nat.not_lt_zero _),
    fun _ _ hm => absurd hm (Nat.not_lt_zero _), fun s hs => ?_, fun s => ?_⟩
  · rw [(hscope s).1]
    simp
  · exact (by decide : (⟨0⟩ : ScopeId) ≠ moduleTable)
  · exact (by decide : (⟨0⟩ : ScopeId) ≠ moduleTable)
  · exact (by decide : (⟨0⟩ : ScopeId) ≠ moduleTable)
  · rw [(hscope _).2] at hbs
    cases hbs
  · rw [(hscope _).2] at hbs
    cases hbs
  · rw [(hscope _).2] at hbs
    cases hbs
  · rw [(hscope s).1] at hp
    cases hp
  · obtain ⟨_ | _ | i⟩ := s <;> cases hs
  · obtain ⟨_ | _ | i⟩ := s <;> exact ⟨fun _ => .inl rfl, fun _ => rfl⟩

theorem Heap.outset_furnished : Heap.outset.Furnished where
  unknown := ⟨(by decide : 0 < Heap.outset.types.size), rfl⟩
  types t := by obtain ⟨_ | _ | _ | _ | _ | _ | _ | _ | _ | i⟩ := t <;> trivial
  functions _ hf := absurd hf (Nat.not_lt_zero _)
  classes _ hc := absurd hc (Nat.not_lt_zero _)
  methods _ _ hc := by cases hc
  supers x _ hy := by obtain ⟨_ | _ | i⟩ := x <;> cases hy

theorem run_outset {α : Type} (x : HeapM α) : (do
    discard <| newScope { kind := .global }
    discard <| newScope { kind := .global }
    x : HeapM α).run Heap.initial = x.run Heap.outset := rfl

theorem bindLibrary_steady :
    Heap.outset.Steady (· = Session.globals) (bindLibrary.run Heap.initial).2 ∧
      (bindLibrary.run Heap.initial).2.Apart ∧ (bindLibrary.run Heap.initial).2.Unfiled := by
  have hfunction : ∀ name, Stocks Heap.outset (do
      let f ← newNative name (Library.resultOf name) (some Session.globals)
      bindLibraryName name ((← get).function f).type .function) := by
    intro name
    have hnative : Stocks Heap.outset (newNative name (Library.resultOf name) (some Session.globals)) :=
      .of_tame fun _ _ _ ha => newNative_tame _ _ ha.mayEnclose_globals
    exact hnative.bind fun _ => .get_bind fun _ _ _ => bindLibraryName_stocks ..
  rw [bindLibrary, run_outset]
  refine Stocks.run (.bind (.foldlM _ fun _ _ => newLibraryClass_stocks ..) fun _ => ?_) Heap.outset (.refl _)
    ⟨Heap.outset_secluded, Heap.outset_furnished⟩ fun b hb => absurd hb (Nat.not_lt_zero _)
  refine .bind (.forM _ fun _ => bindLibraryName_stocks ..) fun _ => .bind (.forM _ hfunction) fun _ => ?_
  exact .bind (.forM _ fun _ => bindLibraryName_stocks ..) fun _ => .pure

end Library

end Concordance
