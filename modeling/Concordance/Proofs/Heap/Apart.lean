import Concordance.Proofs.Heap.Plain
import Concordance.Proofs.Heap.Within

/-!
# The table of modules stands apart

The scope that holds the modules by qualified name is no table of a function, class or module, encloses nothing, and its
bindings are in no other scope.
-/

namespace Concordance

open Session (moduleTable)

variable {scope : Scope}

theorem Scope.mem_values_of_bound {s : Scope} (hb : s.bound? name = some bs) : bs ∈ s.table.values := by
  unfold Scope.bound? at hb
  split at hb
  · rename_i heq
    cases hb
    exact Table.mem_values_of_get? heq
  · cases hb

namespace Heap

def Elsewhere (h : Heap) (b : BindingId) : Prop :=
  h.HasBinding b ∧ ∀ cs ∈ (h.scope moduleTable).table.values, b ∉ cs

/-- The table of modules stands apart from what programs reach, and each of its names leads to one module. -/
structure Secluded (h : Heap) : Prop where
  made : 1 < h.scopes.size
  kind : (h.scope moduleTable).kind = .global
  outermost : (h.scope moduleTable).parent = none
  innermost : ∀ s, (h.scope s).parent ≠ some moduleTable
  functions : ∀ f, (h.function f).table ≠ moduleTable
  classes : ∀ c, (h.cls c).table ≠ moduleTable
  modules : ∀ m, (h.module m).table ≠ moduleTable
  entries : ∀ bs ∈ (h.scope moduleTable).table.values,
    ∃ b m, bs = [b] ∧ h.HasBinding b ∧ h.ty (h.binding b).type = .module m
  unshared : ∀ s, s ≠ moduleTable → ∀ bs ∈ (h.scope s).table.values, ∀ b ∈ bs, h.Elsewhere b
  single : ∀ s, s ≠ moduleTable → ∀ bs ∈ (h.scope s).table.values, ∃ b, bs = [b]
  housed : h.Housed

theorem Secluded.exists_bound {h : Heap} (ha : h.Secluded) (hs : s ≠ moduleTable)
    (he : (h.scope s).local? name ≠ none) : ∃ bs, (h.scope s).bound? name = some bs := by
  obtain ⟨bs, hlocal⟩ := Option.ne_none_iff_exists'.1 he
  obtain ⟨b, rfl⟩ := ha.single s hs bs (Table.mem_values_of_get? hlocal)
  exact ⟨[b], by rw [Scope.bound?, hlocal]⟩

/-- What ordinary work on the heap keeps: the code of functions, the scopes of functions, classes and modules, what
encloses a scope, the table of modules, and what names are bound to; names are bound in certain scopes only. -/
structure Steady (W : ScopeId → Prop) (h h' : Heap) : Prop extends BindsIn W h h' where
  types : Extends h h'
  codes : ∀ f, (h'.function f).code = (h.function f).code
  tables : ∀ f c, (h.function f).code = some c → (h'.function f).table = (h.function f).table
  classes : ∀ c : ClassId, c.index < h.classes.size → c.index < h'.classes.size ∧ (h'.cls c).table = (h.cls c).table
  table : h'.scope moduleTable = h.scope moduleTable
  bound : ∀ bs ∈ (h.scope moduleTable).table.values, ∀ b ∈ bs, (h'.binding b).type = (h.binding b).type
  retains : h.Retains h'
  functions_le : h.functions.size ≤ h'.functions.size

variable {h : Heap}

theorem Steady.refl (h : Heap) : Steady W h h where
  toBindsIn := .refl h
  types := .refl h
  codes _ := rfl
  tables _ _ _ := rfl
  classes _ hc := ⟨hc, rfl⟩
  table := rfl
  bound _ _ _ _ := rfl
  retains := .refl h
  functions_le := Nat.le_refl _

/-- What no work on the heap changes: the code and the scope of a function that has code, the scope of a class, a
module, and what encloses a scope. -/
structure Firm (h h' : Heap) : Prop where
  types : Extends h h'
  codes : ∀ f c, (h.function f).code = some c →
    (h'.function f).code = some c ∧ (h'.function f).table = (h.function f).table
  classes : ∀ c : ClassId, c.index < h.classes.size → c.index < h'.classes.size ∧ (h'.cls c).table = (h.cls c).table
  modules : ∀ m : ModuleId, m.index < h.modules.size → m.index < h'.modules.size ∧ h'.module m = h.module m
  parents : ∀ s p, (h.scope s).parent = some p → (h'.scope s).parent = some p
  functions_le : h.functions.size ≤ h'.functions.size

theorem Steady.firm (hs : Steady W h h') : Firm h h' :=
  ⟨hs.types, fun f c hc => ⟨(hs.codes f).trans hc, hs.tables f c hc⟩, hs.classes, hs.modules, hs.parents, hs.functions_le⟩

theorem Firm.prolongs (hf : Firm h h') : Prolongs h h' := by
  refine ⟨hf.types, fun f c hc => (hf.codes f c hc).1, fun m path hpath => ?_⟩
  rw [(hf.modules m (lt_of_file hpath)).2]
  exact hpath

theorem Firm.refl (h : Heap) : Firm h h :=
  ⟨.refl h, fun _ _ hc => ⟨hc, rfl⟩, fun _ hc => ⟨hc, rfl⟩, fun _ hm => ⟨hm, rfl⟩, fun _ _ hp => hp, Nat.le_refl _⟩

theorem Firm.trans (hf : Firm h h') (hf' : Firm h' h'') : Firm h h'' where
  types := hf.types.trans hf'.types
  codes f c hc := by
    obtain ⟨hcode, htable⟩ := hf.codes f c hc
    obtain ⟨hcode', htable'⟩ := hf'.codes f c hcode
    exact ⟨hcode', htable'.trans htable⟩
  classes c hc := by
    obtain ⟨hlt, htable⟩ := hf.classes c hc
    obtain ⟨hlt', htable'⟩ := hf'.classes c hlt
    exact ⟨hlt', htable'.trans htable⟩
  modules m hm := by
    obtain ⟨hlt, heq⟩ := hf.modules m hm
    obtain ⟨hlt', heq'⟩ := hf'.modules m hlt
    exact ⟨hlt', heq'.trans heq⟩
  parents s p hp := hf'.parents s p (hf.parents s p hp)
  functions_le := hf.functions_le.trans hf'.functions_le

theorem Steady.trans (hs : Steady W h h') (hs' : Steady W h' h'') : Steady W h h'' where
  toBindsIn := hs.toBindsIn.trans hs'.toBindsIn
  types := (hs.firm.trans hs'.firm).types
  codes f := (hs'.codes f).trans (hs.codes f)
  tables f c hc := ((hs.firm.trans hs'.firm).codes f c hc).2
  classes := (hs.firm.trans hs'.firm).classes
  table := hs'.table.trans hs.table
  bound bs hbs b hb := by
    have hbs' : bs ∈ (h'.scope moduleTable).table.values := by rwa [hs.table]
    exact (hs'.bound bs hbs' b hb).trans (hs.bound bs hbs b hb)
  retains := hs.retains.trans hs'.retains hs.firm.prolongs hs'.firm.prolongs
  functions_le := hs.functions_le.trans hs'.functions_le

theorem Steady.elsewhere (hs : Steady W h h') (hb : h.Elsewhere b) : h'.Elsewhere b := by
  refine ⟨(hs.origins b hb.1).1, ?_⟩
  rw [hs.table]
  exact hb.2

theorem Extends.module (he : Extends h h') (ht : h.ty t = .module m) : h'.ty t = .module m := by
  have halike := he.alike t (has_of_ty_ne (by simp [ht]))
  rw [ht] at halike
  revert halike
  cases h'.ty t <;> simp [Widens]

theorem Steady.ofSame (functions : h'.functions = h.functions) (classes : h'.classes = h.classes) (types : Extends h h')
    (binds : BindsIn W h h') (table : h'.scope moduleTable = h.scope moduleTable)
    (bound : ∀ bs ∈ (h.scope moduleTable).table.values, ∀ b ∈ bs, (h'.binding b).type = (h.binding b).type)
    (retains : Prolongs h h' → h.Retains h') : Steady W h h' where
  toBindsIn := binds
  types := types
  codes f := by rw [Heap.function, Heap.function, functions]
  tables f _ _ := by rw [Heap.function, Heap.function, functions]
  classes c hc := by
    rw [Heap.cls, Heap.cls, classes]
    exact ⟨hc, rfl⟩
  table := table
  bound := bound
  retains := by
    refine retains ⟨types, fun f c hc => ?_, fun m path hpath => ?_⟩
    · rw [Heap.function, functions]
      exact hc
    · rw [(binds.modules m (lt_of_file hpath)).2]
      exact hpath
  functions_le := by rw [functions]

theorem Secluded.not_within (ha : h.Secluded) : ¬ h.Within moduleTable m := by
  intro hw
  generalize hs : moduleTable = s at hw
  cases hw with
  | table => exact ha.modules m hs.symm
  | inner hp _ =>
    rw [← hs, ha.outermost] at hp
    cases hp

section Types

variable {types : Array Ty}

theorem Steady.ofTypes (he : Extends h { h with types }) : Steady W h { h with types } :=
  .ofSame rfl rfl he (.ofSame rfl rfl rfl) rfl (fun _ _ _ _ => rfl) fun hc => hc.retains fun _ hb => ⟨hb, rfl⟩

theorem Secluded.ofTypes (ha : h.Secluded) (he : Extends h { h with types }) : Secluded { h with types } where
  made := ha.made
  kind := ha.kind
  outermost := ha.outermost
  innermost := ha.innermost
  functions := ha.functions
  classes := ha.classes
  modules := ha.modules
  entries bs hbs := by
    obtain ⟨b, m, hb, hhas, hm⟩ := ha.entries bs hbs
    exact ⟨b, m, hb, hhas, he.module hm⟩
  unshared := ha.unshared
  single := ha.single
  housed := { ha.housed with }

theorem extends_push (ty : Ty) : Extends h { h with types := h.types.push ty } := by
  refine ⟨by simp, fun t ht => .inl ?_⟩
  rw [ty_push, if_neg (Nat.ne_of_lt ht)]

theorem extends_widen {ty : Ty} (like : Widens (h.ty t) ty) :
    Extends h { h with types := h.types.setIfInBounds t.index ty } := by
  refine ⟨by simp, fun u _ => ?_⟩
  rw [ty_set]
  split
  · rename_i heq
    exact .inr (heq.1 ▸ like)
  · exact .inl rfl

end Types

section Scopes

theorem scope_push (s : ScopeId) :
    Heap.scope { h with scopes := h.scopes.push scope } s = if s.index = h.scopes.size then scope else h.scope s := getD_push

theorem scope_modify (s x : ScopeId) : Heap.scope { h with scopes := h.scopes.modify s.index change } x =
      if x = s ∧ s.index < h.scopes.size then change (h.scope x) else h.scope x := by
  rw [Heap.scope, getD_modify]
  have : x.index = s.index ↔ x = s := by cases x; cases s; simp
  simp only [this]
  rfl

theorem Secluded.fresh (ha : h.Secluded) : (⟨h.scopes.size⟩ : ScopeId) ≠ moduleTable := by
  intro heq
  have hindex : h.scopes.size = 1 := congrArg ScopeId.index heq
  have := ha.made
  omega

theorem Secluded.scope_push_table (ha : h.Secluded) :
    Heap.scope { h with scopes := h.scopes.push scope } moduleTable = h.scope moduleTable := by
  rw [scope_push, if_neg]
  intro heq
  exact ha.fresh (congrArg ScopeId.mk heq.symm)

theorem Steady.ofNewScope (ha : h.Secluded) (empty : scope.table = {}) :
    Steady W h { h with scopes := h.scopes.push scope } :=
  .ofSame rfl rfl (.of_types_eq rfl) (.ofNewScope empty) ha.scope_push_table (fun _ _ _ _ => rfl)
    fun hc => hc.retains fun _ hb => ⟨hb, rfl⟩

def MayEnclose (h : Heap) (s : ScopeId) : Prop := s ≠ moduleTable ∧ s.index < h.scopes.size

theorem Steady.mayEnclose (hs : Steady W h h') (he : h.MayEnclose s) : h'.MayEnclose s :=
  ⟨he.1, (hs.frames s he.2).1⟩

theorem Secluded.mayEnclose_globals (ha : h.Secluded) : h.MayEnclose Session.globals := ⟨by decide, ha.housed.made⟩

theorem Secluded.ofNewScope (ha : h.Secluded) (parent : ∀ p, scope.parent = some p → h.MayEnclose p)
    (topmost : scope.kind = .module → scope.parent = some Session.globals)
    (enclosed : scope.parent = none ↔ scope.kind = .global ∨ scope.kind = .object) (empty : scope.table = {}) :
    Secluded { h with scopes := h.scopes.push scope } where
  made := Nat.lt_of_lt_of_le ha.made (by simp)
  kind := by rw [ha.scope_push_table]; exact ha.kind
  outermost := by rw [ha.scope_push_table]; exact ha.outermost
  innermost s := by
    rw [scope_push]
    split
    · exact fun heq => (parent _ heq).1 rfl
    · exact ha.innermost s
  functions := ha.functions
  classes := ha.classes
  modules := ha.modules
  entries := by rw [ha.scope_push_table]; exact ha.entries
  unshared s hs bs hbs b hb := by
    have hsteady : Steady (fun _ => True) h { h with scopes := h.scopes.push scope } := .ofNewScope ha empty
    rw [scope_push] at hbs
    split at hbs
    · rw [empty] at hbs
      cases hbs
    · exact hsteady.elsewhere (ha.unshared s hs bs hbs b hb)
  single s hs bs hbs := by
    rw [scope_push] at hbs
    split at hbs
    · rw [empty] at hbs
      cases hbs
    · exact ha.single s hs bs hbs
  housed := ha.housed.ofNewScope (fun p hp => (parent p hp).2) topmost enclosed

theorem Steady.ofScope (hs : s ≠ moduleTable)
    (same : ∀ x, SameFrame x (change x)) (declared : ∀ x name, name ∈ x.globals → name ∈ (change x).globals)
    (table : ¬ W s → ∀ x, (change x).table = x.table) :
    Steady W h { h with scopes := h.scopes.modify s.index change } := by
  refine .ofSame rfl rfl (.of_types_eq rfl) (.ofScope same declared table) ?_ (fun _ _ _ _ => rfl)
    fun hc => hc.retains fun _ hb => ⟨hb, rfl⟩
  rw [scope_modify, if_neg fun heq => hs heq.1.symm]

theorem Secluded.ofScope (ha : h.Secluded) (hs : s ≠ moduleTable)
    (same : ∀ x, SameFrame x (change x)) (declared : ∀ x name, name ∈ x.globals → name ∈ (change x).globals)
    (unshared : ∀ bs ∈ (change (h.scope s)).table.values, bs ∈ (h.scope s).table.values ∨
      (∃ b, bs = [b]) ∧ ∀ b ∈ bs, h.Elsewhere b) : Secluded { h with scopes := h.scopes.modify s.index change } := by
  have htable : Heap.scope { h with scopes := h.scopes.modify s.index change } moduleTable = h.scope moduleTable := by
    rw [scope_modify, if_neg fun heq => hs heq.1.symm]
  have hsteady : Steady (fun _ => True) h { h with scopes := h.scopes.modify s.index change } :=
    .ofScope hs same declared fun hw => absurd trivial hw
  refine ⟨?_, ?_, ?_, fun x => ?_, ha.functions, ha.classes, ha.modules, ?_, fun x hx bs hbs b hb => ?_,
    fun x hx bs hbs => ?_, ha.housed.ofSame (Array.size_modify ..) rfl fun x => ?_⟩
  · rw [Array.size_modify]
    exact ha.made
  · rw [htable]
    exact ha.kind
  · rw [htable]
    exact ha.outermost
  · rw [scope_modify]
    split
    · rw [(same _).parent]
      exact ha.innermost x
    · exact ha.innermost x
  · rw [htable]
    exact ha.entries
  · refine hsteady.elsewhere ?_
    rw [scope_modify] at hbs
    split at hbs
    · rename_i heq
      rw [heq.1] at hbs
      rcases unshared bs hbs with hbs | ⟨_, hnew⟩
      · exact ha.unshared s hs bs hbs b hb
      · exact hnew b hb
    · exact ha.unshared x hx bs hbs b hb
  · rw [scope_modify] at hbs
    split at hbs
    · rename_i heq
      rw [heq.1] at hbs
      exact (unshared bs hbs).elim (ha.single s hs bs) And.left
    · exact ha.single x hx bs hbs
  · rw [scope_modify]
    split
    · exact same _
    · exact .refl _

end Scopes

section Bindings

theorem Secluded.fresh_binding (ha : h.Secluded) (hcs : cs ∈ (h.scope moduleTable).table.values) :
    (⟨h.bindings.size⟩ : BindingId) ∉ cs := by
  obtain ⟨b, m, rfl, hhas, _⟩ := ha.entries cs hcs
  intro hmem
  rw [List.mem_singleton] at hmem
  exact Nat.lt_irrefl _ (hmem ▸ hhas)

theorem Secluded.binding_push (ha : h.Secluded) (x : Binding)
    (hcs : cs ∈ (h.scope moduleTable).table.values) (hb : b ∈ cs) :
    Heap.binding { h with bindings := h.bindings.push x } b = h.binding b := by
  rw [Heap.binding, getD_push, if_neg]
  · rfl
  · intro heq
    exact ha.fresh_binding hcs (by rwa [← heq])

theorem Steady.ofNewBinding (ha : h.Secluded) (hw : W s) (x : Binding) :
    Steady W h { h with bindings := h.bindings.push x } := by
  have hbinds : BindsIn W h { h with bindings := h.bindings.push x } := .ofNewBinding hw x
  refine .ofSame rfl rfl (.of_types_eq rfl) hbinds rfl (fun bs hbs b hb => ?_) fun hc => hc.retains fun b hb => ?_
  · rw [ha.binding_push x hbs hb]
  · refine ⟨(hbinds.origins b hb).1, ?_⟩
    rw [Heap.binding, getD_push, if_neg (Nat.ne_of_lt hb)]
    rfl

theorem Secluded.ofNewBinding (ha : h.Secluded) (x : Binding) : Secluded { h with bindings := h.bindings.push x } where
  made := ha.made
  kind := ha.kind
  outermost := ha.outermost
  innermost := ha.innermost
  functions := ha.functions
  classes := ha.classes
  modules := ha.modules
  entries bs hbs := by
    obtain ⟨b, m, heq, hhas, hm⟩ := ha.entries bs hbs
    refine ⟨b, m, heq, ?_, ?_⟩
    · exact Nat.lt_of_lt_of_le hhas (by simp)
    · rw [ha.binding_push x hbs (heq ▸ List.mem_singleton.2 rfl)]
      exact hm
  unshared s hs bs hbs b hb := by
    have hsteady : Steady (fun _ => True) h { h with bindings := h.bindings.push x } := .ofNewBinding ha (s := s) trivial x
    exact hsteady.elsewhere (ha.unshared s hs bs hbs b hb)
  single := ha.single
  housed := { ha.housed with }

theorem type_modify (hkeeps : x ≠ b ∨ ∀ y, (change y).type = y.type) :
    (Heap.binding { h with bindings := h.bindings.modify b.index change } x).type = (h.binding x).type := by
  rw [Heap.binding, getD_modify]
  split
  · rename_i heq
    rcases hkeeps with hne | hkeeps
    · exact absurd (congrArg BindingId.mk heq.1) hne
    · rw [hkeeps]
      rfl
  · rfl

variable
  {change : Binding → Binding} (hkeeps : (∀ cs ∈ (h.scope moduleTable).table.values, b ∉ cs) ∨ ∀ x, (change x).type = x.type)
include hkeeps

theorem type_modify_of_mem (hcs : cs ∈ (h.scope moduleTable).table.values) (hx : x ∈ cs) :
    (Heap.binding { h with bindings := h.bindings.modify b.index change } x).type = (h.binding x).type :=
  type_modify (hkeeps.imp_left fun hout heq => hout cs hcs (heq ▸ hx))

theorem Steady.ofBinding (same : ∀ x, SameOrigin x (change x))
    (retains : h.Retains { h with bindings := h.bindings.modify b.index change }) :
    Steady W h { h with bindings := h.bindings.modify b.index change } :=
  .ofSame rfl rfl (.of_types_eq rfl) (.ofBinding same) rfl (fun _ hbs _ hx => type_modify_of_mem hkeeps hbs hx)
    fun _ => retains

theorem Secluded.ofBinding (ha : h.Secluded) : Secluded { h with bindings := h.bindings.modify b.index change } where
  made := ha.made
  kind := ha.kind
  outermost := ha.outermost
  innermost := ha.innermost
  functions := ha.functions
  classes := ha.classes
  modules := ha.modules
  entries bs hbs := by
    obtain ⟨x, m, heq, hhas, hm⟩ := ha.entries bs hbs
    have hx : x ∈ bs := heq ▸ List.mem_singleton.2 rfl
    refine ⟨x, m, heq, ?_, ?_⟩
    · exact Nat.lt_of_lt_of_eq hhas (Array.size_modify ..).symm
    · rw [type_modify_of_mem hkeeps hbs hx]
      exact hm
  unshared s hs bs hbs x hx := by
    obtain ⟨hhas, hout⟩ := ha.unshared s hs bs hbs x hx
    exact ⟨Nat.lt_of_lt_of_eq hhas (Array.size_modify ..).symm, hout⟩
  single := ha.single
  housed := { ha.housed with }

end Bindings

section Entries

def withTable (h : Heap) (table : Table String (List BindingId)) (bindings : Array Binding) : Heap :=
  { h with bindings, scopes := h.scopes.modify moduleTable.index fun scope => { scope with table } }

/-- The heap in which a name of the table of modules leads to a new binding. -/
def withEntry (h : Heap) (name : String) (x : Binding) : Heap :=
  h.withTable ((h.scope moduleTable).table.insert name [⟨h.bindings.size⟩]) (h.bindings.push x)

def withoutEntry (h : Heap) (name : String) : Heap :=
  h.withTable ((h.scope moduleTable).table.erase name) h.bindings

variable {table : Table String (List BindingId)} {bindings : Array Binding}

theorem scope_withTable (made : 1 < h.scopes.size) (s : ScopeId) : (h.withTable table bindings).scope s =
    if s = moduleTable then { h.scope moduleTable with table } else h.scope s := by
  show Heap.scope { h with scopes := h.scopes.modify moduleTable.index fun scope => { scope with table } } s = _
  rw [scope_modify]
  by_cases hs : s = moduleTable
  · rw [if_pos ⟨hs, made⟩, if_pos hs, hs]
  · rw [if_neg fun hcond => hs hcond.1, if_neg hs]

section

variable (ha : h.Secluded)
include ha

theorem Secluded.frame_withTable (s : ScopeId) : SameFrame (h.scope s) ((h.withTable table bindings).scope s) := by
  rw [scope_withTable ha.made]
  split
  · rename_i hs
    rw [hs]
    exact ⟨rfl, rfl, rfl, rfl⟩
  · exact .refl _

theorem Secluded.firm_withTable : Firm h (h.withTable table bindings) where
  types := .of_types_eq rfl
  codes _ _ hc := ⟨hc, rfl⟩
  classes _ hc := ⟨hc, rfl⟩
  modules _ hm := ⟨hm, rfl⟩
  parents s _ hp := (ha.frame_withTable s).parent.trans hp
  functions_le := Nat.le_refl _

theorem Secluded.bindsIn_withTable (origins : ∀ b, h.HasBinding b →
      b.index < bindings.size ∧ SameOrigin (h.binding b) (Heap.binding { h with bindings } b)) :
    BindsIn (· = moduleTable) h (h.withTable table bindings) := by
  refine .ofModules rfl (fun s hs => ⟨?_, ha.frame_withTable s⟩) (fun s name hn => ?_) (fun s hs => ?_) origins
    fun hnone => absurd rfl (hnone moduleTable)
  · exact Nat.lt_of_lt_of_eq hs (Array.size_modify ..).symm
  · rw [scope_withTable ha.made]
    split
    · rename_i hs
      exact hs ▸ hn
    · exact hn
  · rw [scope_withTable ha.made, if_neg hs]

theorem Secluded.withTable (size : h.bindings.size ≤ bindings.size)
    (entries : ∀ bs ∈ table.values,
      ∃ b m, bs = [b] ∧ b.index < bindings.size ∧ h.ty (Heap.binding { h with bindings } b).type = .module m)
    (fresh : ∀ bs ∈ table.values, bs ∉ (h.scope moduleTable).table.values → ∀ b ∈ bs, ¬ h.HasBinding b) :
    (h.withTable table bindings).Secluded := by
  have hscope : ∀ s, (h.withTable table bindings).scope s = _ := scope_withTable ha.made
  refine ⟨?_, ?_, ?_, fun s => ?_, ha.functions, ha.classes, ha.modules, ?_, fun s hs bs hbs b hb => ?_,
    fun s hs bs hbs => ?_, ha.housed.ofSame (Array.size_modify ..) rfl ha.frame_withTable⟩
  · exact Nat.lt_of_lt_of_eq ha.made (Array.size_modify ..).symm
  · rw [hscope, if_pos rfl]
    exact ha.kind
  · rw [hscope, if_pos rfl]
    exact ha.outermost
  · rw [hscope]
    split
    · exact ha.innermost moduleTable
    · exact ha.innermost s
  · rw [hscope, if_pos rfl]
    exact entries
  · rw [hscope, if_neg hs] at hbs
    obtain ⟨hhas, hout⟩ := ha.unshared s hs bs hbs b hb
    refine ⟨Nat.lt_of_lt_of_le hhas size, fun cs hcs hmem => ?_⟩
    rw [hscope, if_pos rfl] at hcs
    by_cases hold : cs ∈ (h.scope moduleTable).table.values
    · exact hout cs hold hmem
    · exact fresh cs hcs hold b hmem hhas
  · rw [hscope, if_neg hs] at hbs
    exact ha.single s hs bs hbs

theorem Secluded.withEntry (name : String) (hx : h.ty x.type = .module m) :
    (h.withEntry name x).Secluded := by
  have hsize : (h.bindings.push x).size = h.bindings.size + 1 := Array.size_push _
  refine ha.withTable (by omega) (fun bs hbs => ?_) fun bs hbs hnew b hb => ?_
  · rcases Table.mem_values_insert hbs with rfl | hbs
    · refine ⟨_, m, rfl, by dsimp only; omega, ?_⟩
      rw [Heap.binding, getD_push, if_pos rfl]
      exact hx
    · obtain ⟨b, m', rfl, hhas, hm⟩ := ha.entries bs hbs
      refine ⟨b, m', rfl, Nat.lt_of_lt_of_le hhas (by omega), ?_⟩
      rw [ha.binding_push x hbs (List.mem_singleton.2 rfl)]
      exact hm
  · rcases Table.mem_values_insert hbs with rfl | hbs
    · rw [List.mem_singleton.1 hb]
      exact Nat.lt_irrefl _
    · exact absurd hbs hnew

theorem Secluded.withoutEntry (name : String) : (h.withoutEntry name).Secluded := by
  refine ha.withTable (Nat.le_refl _) (fun bs hbs => ?_) fun bs hbs hnew => ?_
  · exact ha.entries bs (Table.mem_values_of_erase hbs)
  · exact absurd (Table.mem_values_of_erase hbs) hnew

end

end Entries

section Objects

theorem function_modify_code {f : FunctionId} (hkeeps : ∀ g, (change g).code = g.code ∧ (change g).table = g.table) :
    (Heap.function { h with functions := h.functions.modify f.index change } x).code = (h.function x).code ∧
      (Heap.function { h with functions := h.functions.modify f.index change } x).table = (h.function x).table := by
  rw [Heap.function, getD_modify]
  split
  · exact hkeeps _
  · exact ⟨rfl, rfl⟩

theorem Steady.ofFunction {f : FunctionId} (hkeeps : ∀ g, (change g).code = g.code ∧ (change g).table = g.table) :
    Steady W h { h with functions := h.functions.modify f.index change } where
  toBindsIn := .ofSame rfl rfl rfl
  types := .of_types_eq rfl
  codes _ := (function_modify_code hkeeps).1
  tables _ _ _ := (function_modify_code hkeeps).2
  classes _ hc := ⟨hc, rfl⟩
  table := rfl
  bound _ _ _ _ := rfl
  retains := Prolongs.retains ⟨.of_types_eq rfl, fun _ _ hc => (function_modify_code hkeeps).1.trans hc, fun _ _ hf => hf⟩
    fun _ hb => ⟨hb, rfl⟩
  functions_le := Nat.le_of_eq (Array.size_modify ..).symm

theorem Secluded.ofFunction (ha : h.Secluded) {f : FunctionId}
    (hkeeps : ∀ g, (change g).code = g.code ∧ (change g).table = g.table) :
    Secluded { h with functions := h.functions.modify f.index change } :=
  { ha with
    functions := fun x => by rw [(function_modify_code hkeeps).2]; exact ha.functions x
    housed := { ha.housed with } }

theorem cls_modify_table {c : ClassId} (hkeeps : ∀ g, (change g).table = g.table) :
    (Heap.cls { h with classes := h.classes.modify c.index change } x).table = (h.cls x).table := by
  rw [Heap.cls, getD_modify]
  split
  · exact hkeeps _
  · rfl

theorem Steady.ofClass {c : ClassId} (hkeeps : ∀ g, (change g).table = g.table) :
    Steady W h { h with classes := h.classes.modify c.index change } where
  toBindsIn := .ofSame rfl rfl rfl
  types := .of_types_eq rfl
  codes _ := rfl
  tables _ _ _ := rfl
  classes _ hc := ⟨Nat.lt_of_lt_of_eq hc (Array.size_modify ..).symm, cls_modify_table hkeeps⟩
  table := rfl
  bound _ _ _ _ := rfl
  retains := Prolongs.retains ⟨.of_types_eq rfl, fun _ _ hc => hc, fun _ _ hf => hf⟩ fun _ hb => ⟨hb, rfl⟩
  functions_le := Nat.le_refl _

theorem Secluded.ofClass (ha : h.Secluded) {c : ClassId}
    (hkeeps : ∀ g, (change g).table = g.table) : Secluded { h with classes := h.classes.modify c.index change } :=
  { ha with
    classes := fun x => by rw [cls_modify_table hkeeps]; exact ha.classes x
    housed := { ha.housed with } }

theorem Steady.ofNewFunction (hg : g.code = none) : Steady W h { h with functions := h.functions.push g } := by
  have hcode : ∀ f, (Heap.function { h with functions := h.functions.push g } f).code = (h.function f).code := by
    intro f
    rw [Heap.function, getD_push]
    split
    · rename_i heq
      rw [hg, Heap.function, heq, Array.getD_eq_getD_getElem?, Array.getElem?_eq_none (Nat.le_refl _)]
      rfl
    · rfl
  refine ⟨.ofSame rfl rfl rfl, .of_types_eq rfl, hcode, fun f c hc => ?_, fun _ hc => ⟨hc, rfl⟩, rfl, fun _ _ _ _ => rfl,
    Prolongs.retains ⟨.of_types_eq rfl, fun f _ hc => (hcode f).trans hc, fun _ _ hf => hf⟩ fun _ hb => ⟨hb, rfl⟩,
    by simp⟩
  rw [Heap.function, getD_push, if_neg (Nat.ne_of_lt (lt_of_code hc))]
  rfl

theorem Secluded.ofNewFunction (ha : h.Secluded) (hg : g.table ≠ moduleTable) :
    Secluded { h with functions := h.functions.push g } := by
  refine { ha with functions := fun f => ?_, housed := { ha.housed with } }
  rw [Heap.function, getD_push]
  split
  · exact hg
  · exact ha.functions f

theorem Steady.ofNewClass (c : ClassInfo) : Steady W h { h with classes := h.classes.push c } where
  toBindsIn := .ofSame rfl rfl rfl
  types := .of_types_eq rfl
  codes _ := rfl
  tables _ _ _ := rfl
  classes x hx := by
    refine ⟨Nat.lt_of_lt_of_le hx (by simp), ?_⟩
    rw [Heap.cls, getD_push, if_neg (Nat.ne_of_lt hx)]
    rfl
  table := rfl
  bound _ _ _ _ := rfl
  retains := Prolongs.retains ⟨.of_types_eq rfl, fun _ _ hc => hc, fun _ _ hf => hf⟩ fun _ hb => ⟨hb, rfl⟩
  functions_le := Nat.le_refl _

theorem Secluded.ofNewClass (ha : h.Secluded) (hc : c.table ≠ moduleTable) :
    Secluded { h with classes := h.classes.push c } := by
  refine { ha with classes := fun x => ?_, housed := { ha.housed with } }
  rw [Heap.cls, getD_push]
  split
  · exact hc
  · exact ha.classes x

theorem Steady.ofNewModule (ha : h.Secluded) (empty : scope.table = {}) (table : info.table = ⟨h.scopes.size⟩) :
    Steady W h { h with scopes := h.scopes.push scope, modules := h.modules.push info } :=
  .ofSame rfl rfl (.of_types_eq rfl) (.ofNewModule empty table) ha.scope_push_table (fun _ _ _ _ => rfl)
    fun hc => hc.retains fun _ hb => ⟨hb, rfl⟩

theorem Secluded.ofNewModule (ha : h.Secluded) (kind : scope.kind = .module)
    (parent : scope.parent = some Session.globals) (empty : scope.table = {}) (table : info.table = ⟨h.scopes.size⟩) :
    Secluded { h with scopes := h.scopes.push scope, modules := h.modules.push info } := by
  have hscope : Secluded { h with scopes := h.scopes.push scope } := by
    refine ha.ofNewScope (fun p hp => ?_) (fun _ => parent) (by simp [kind, parent]) empty
    rw [parent, Option.some.injEq] at hp
    exact hp ▸ ha.mayEnclose_globals
  refine { hscope with modules := fun m => ?_, housed := ha.housed.ofNewModule kind parent table }
  rw [Heap.module, getD_push]
  split
  · rw [table]
    exact ha.fresh
  · exact ha.modules m

end Objects

end Heap

end Concordance
