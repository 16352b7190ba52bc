import Concordance.Proofs.Heap.Apart

/-!
# Where free names are found

`Heap.walkFrom` looks for a free name from a scope outwards and counts its steps. `Heap.Walks` is the same walk without
a count, as a relation between the scope where it begins and what it finds.
-/

namespace Concordance

open Session (globals moduleTable)

namespace Heap

variable {h : Heap}

/-- A scope is another one or is around it. -/
inductive Encloses (h : Heap) (z : ScopeId) : ScopeId → Prop
  | self : h.Encloses z z
  | inner {x p : ScopeId} (parent : (h.scope x).parent = some p) (outer : h.Encloses z p) : h.Encloses z x

theorem Encloses.trans (hz : h.Encloses z y) (hy : h.Encloses y x) : h.Encloses z x := by
  induction hy with
  | self => exact hz
  | inner hp _ ih => exact .inner hp ih

theorem Encloses.outer (he : h.Encloses z x) (hne : z ≠ x) : ∃ p, (h.scope x).parent = some p ∧ h.Encloses z p := by
  cases he with
  | self => exact absurd rfl hne
  | inner parent outer => exact ⟨_, parent, outer⟩

/-- The scope of the module around a scope: the nearest one of this kind, or the outermost scope if there is none. -/
inductive ModuleOf (h : Heap) : ScopeId → ScopeId → Prop
  | module {s : ScopeId} (kind : (h.scope s).kind = .module) : h.ModuleOf s s
  | outermost {s : ScopeId} (kind : (h.scope s).kind ≠ .module) (parent : (h.scope s).parent = none) : h.ModuleOf s s
  | inner {s p m : ScopeId} (kind : (h.scope s).kind ≠ .module) (parent : (h.scope s).parent = some p)
      (outer : h.ModuleOf p m) : h.ModuleOf s m

/-- The nearest scope that is no class body, from a given one outwards. -/
inductive PastClasses (h : Heap) : Option ScopeId → Option ScopeId → Prop
  | nowhere : h.PastClasses none none
  | stop {s : ScopeId} (kind : (h.scope s).kind ≠ .classBody) : h.PastClasses (some s) (some s)
  | skip {s : ScopeId} {r : Option ScopeId} (kind : (h.scope s).kind = .classBody)
      (outer : h.PastClasses (h.scope s).parent r) : h.PastClasses (some s) r

/-- The next scope outwards for the look-up of free names: class bodies around a function are left out. -/
inductive NextScope (h : Heap) (s : ScopeId) : Option ScopeId → Prop
  | function {r : Option ScopeId} (kind : (h.scope s).kind = .function) (outer : h.PastClasses (h.scope s).parent r) :
      h.NextScope s r
  | other {r : Option ScopeId} (kind : (h.scope s).kind ≠ .function) (parent : (h.scope s).parent = r) : h.NextScope s r

/-- The walk for a free name, and what it finds. -/
inductive Walks {α : Type} (h : Heap) (name : String) (found : ScopeId → Option α) : ScopeId → Option α → Prop
  | found {s : ScopeId} {a : α} (here : found s = some a) : h.Walks name found s (some a)
  | redirected {s m : ScopeId} {r : Option α} (free : found s = none) (declared : name ∈ (h.scope s).globals)
      (module : h.ModuleOf s m) (away : m ≠ s) (rest : h.Walks name found m r) : h.Walks name found s r
  | further {s p : ScopeId} {r : Option α} (free : found s = none) (stays : name ∈ (h.scope s).globals → h.ModuleOf s s)
      (next : h.NextScope s (some p)) (rest : h.Walks name found p r) : h.Walks name found s r
  | nowhere {s : ScopeId} (free : found s = none) (stays : name ∈ (h.scope s).globals → h.ModuleOf s s)
      (next : h.NextScope s none) : h.Walks name found s none

section Unique

theorem ModuleOf.unique (hm : h.ModuleOf s m) (hm' : h.ModuleOf s m') : m = m' := by
  induction hm with
  | module kind =>
    cases hm' with
    | module _ => rfl
    | outermost _ _ => rfl
    | inner kind' _ _ => exact absurd kind kind'
  | outermost kind parent =>
    cases hm' with
    | module _ => rfl
    | outermost _ _ => rfl
    | inner _ parent' _ => cases parent.symm.trans parent'
  | inner kind parent _ ih =>
    cases hm' with
    | module kind' => exact absurd kind' kind
    | outermost _ parent' => cases parent.symm.trans parent'
    | inner _ parent' outer' =>
      cases parent.symm.trans parent'
      exact ih outer'

theorem ModuleOf.encloses (hm : h.ModuleOf s m) : h.Encloses m s := by
  induction hm with
  | module _ => exact .self
  | outermost _ _ => exact .self
  | inner _ parent _ ih => exact .inner parent ih

theorem ModuleOf.self (hm : h.ModuleOf s m) : h.ModuleOf m m := by
  induction hm with
  | module kind => exact .module kind
  | outermost kind parent => exact .outermost kind parent
  | inner _ _ _ ih => exact ih

theorem PastClasses.unique (hr : h.PastClasses o r) (hr' : h.PastClasses o r') : r = r' := by
  induction hr with
  | nowhere =>
    cases hr'
    rfl
  | stop kind =>
    cases hr' with
    | stop _ => rfl
    | skip kind' _ => exact absurd kind' kind
  | skip kind _ ih =>
    cases hr' with
    | stop kind' => exact absurd kind kind'
    | skip _ outer' => exact ih outer'

theorem PastClasses.encloses (hr : h.PastClasses o r) (hp : r = some p) :
    (h.scope p).kind ≠ .classBody ∧ ∃ x, o = some x ∧ h.Encloses p x := by
  induction hr with
  | nowhere => cases hp
  | stop kind =>
    cases hp
    exact ⟨kind, _, rfl, .self⟩
  | skip _ _ ih =>
    obtain ⟨hkind, x, hx, he⟩ := ih hp
    exact ⟨hkind, _, rfl, .inner hx he⟩

theorem NextScope.unique (hr : h.NextScope s r) (hr' : h.NextScope s r') : r = r' := by
  cases hr with
  | function kind outer =>
    cases hr' with
    | function _ outer' => exact outer.unique outer'
    | other kind' _ => exact absurd kind kind'
  | other kind parent =>
    cases hr' with
    | function kind' _ => exact absurd kind' kind
    | other _ parent' => exact parent.symm.trans parent'

theorem NextScope.encloses (hn : h.NextScope s (some p)) : ∃ q, (h.scope s).parent = some q ∧ h.Encloses p q := by
  cases hn with
  | function _ outer =>
    obtain ⟨_, q, hq, he⟩ := outer.encloses rfl
    exact ⟨q, hq, he⟩
  | other _ parent => exact ⟨p, parent, .self⟩

variable {α : Type} {found : ScopeId → Option α}

theorem Walks.unique (hw : h.Walks name found s a) (hw' : h.Walks name found s a') : a = a' := by
  induction hw with
  | found here =>
    cases hw' with
    | found here' => rw [← here, here']
    | redirected free' => cases here.symm.trans free'
    | further free' => cases here.symm.trans free'
    | nowhere free' => cases here.symm.trans free'
  | redirected free declared module away _ ih =>
    cases hw' with
    | found here' => cases free.symm.trans here'
    | redirected _ _ module' _ rest' =>
      cases module.unique module'
      exact ih rest'
    | further _ stays' => exact absurd (module.unique (stays' declared)) away
    | nowhere _ stays' => exact absurd (module.unique (stays' declared)) away
  | further free stays next _ ih =>
    cases hw' with
    | found here' => cases free.symm.trans here'
    | redirected _ declared' module' away' => exact absurd (module'.unique (stays declared')) away'
    | further _ _ next' rest' =>
      cases next.unique next'
      exact ih rest'
    | nowhere _ _ next' => cases next.unique next'
  | nowhere free stays next =>
    cases hw' with
    | found here' => cases free.symm.trans here'
    | redirected _ declared' module' away' => exact absurd (module'.unique (stays declared')) away'
    | further _ _ next' => cases next.unique next'
    | nowhere => rfl

end Unique

section Ends

/-- From a scope outwards, every scope is enclosed by an older one. -/
def Descends (h : Heap) (s : ScopeId) : Prop := ∀ z p, h.Encloses z s → (h.scope z).parent = some p → p.index < z.index

theorem Housed.descends (hh : h.Housed) (s : ScopeId) : h.Descends s := fun z p _ hp => hh.enclosers z p hp

theorem Descends.outer (hd : h.Descends s) (he : h.Encloses z s) : h.Descends z :=
  fun y p hy hp => hd y p (hy.trans he) hp

theorem Descends.lt (hd : h.Descends s) (hp : (h.scope s).parent = some p) : p.index < s.index := hd s p .self hp

theorem Encloses.le (he : h.Encloses z x) (hd : h.Descends x) : z.index ≤ x.index := by
  induction he with
  | self => exact Nat.le_refl _
  | inner hp _ ih => exact (ih (hd.outer (.inner hp .self))).trans (Nat.le_of_lt (hd.lt hp))

theorem Encloses.antisymm (he : h.Encloses z x) (he' : h.Encloses x z) (hd : h.Descends x) : z = x :=
  congrArg ScopeId.mk (Nat.le_antisymm (he.le hd) (he'.le (hd.outer he)))

theorem moduleOf_moduleScopeFrom (hd : h.Descends s) (hs : s.index < fuel) :
    h.ModuleOf s (h.moduleScopeFrom fuel s) := by
  induction fuel generalizing s with
  | zero => exact absurd hs (Nat.not_lt_zero _)
  | succ fuel ih =>
    rw [moduleScopeFrom]
    split
    · rename_i hkind
      exact .module hkind
    · rename_i hkind
      split
      · rename_i hparent
        exact .outermost hkind hparent
      · rename_i p hparent
        have hlt := hd.lt hparent
        exact .inner hkind hparent (ih (hd.outer (.inner hparent .self)) (by omega))

theorem pastClasses_skipClasses (ho : ∀ s, o = some s → s.index < fuel ∧ h.Descends s) :
    h.PastClasses o (h.skipClasses fuel o) := by
  induction fuel generalizing o with
  | zero =>
    cases o with
    | none => exact .nowhere
    | some s => exact absurd (ho s rfl).1 (Nat.not_lt_zero _)
  | succ fuel ih =>
    cases o with
    | none => exact .nowhere
    | some s =>
      obtain ⟨hs, hd⟩ := ho s rfl
      rw [skipClasses]
      split
      · rename_i hkind
        refine .skip hkind (ih fun p hp => ⟨?_, hd.outer (.inner hp .self)⟩)
        have hlt := hd.lt hp
        omega
      · rename_i hkind
        exact .stop hkind

theorem Descends.pastClasses (hd : h.Descends s) :
    h.PastClasses (h.scope s).parent (h.skipClasses h.scopes.size (h.scope s).parent) := by
  refine pastClasses_skipClasses fun p hp => ⟨?_, hd.outer (.inner hp .self)⟩
  exact Nat.lt_trans (hd.lt hp) (lt_of_parent hp)

theorem nextScope_outward (hd : h.Descends s) : h.NextScope s (h.outward s) := by
  unfold outward
  dsimp only
  split
  · rename_i hkind
    exact .function hkind hd.pastClasses
  · rename_i hkind
    exact .other hkind rfl

theorem moduleOf_moduleScope (hd : h.Descends s) : h.ModuleOf s (h.moduleScope s) := by
  cases hparent : (h.scope s).parent with
  | some p => exact moduleOf_moduleScopeFrom hd (lt_of_parent hparent)
  | none =>
    -- An outermost scope is its own module, even if it does not exist and there are no steps to be made.
    have hself : h.moduleScope s = s := by
      unfold moduleScope
      cases h.scopes.size with
      | zero => rfl
      | succ fuel => rw [moduleScopeFrom, hparent, ite_self]
    rw [hself]
    by_cases hkind : (h.scope s).kind = .module
    · exact .module hkind
    · exact .outermost hkind hparent

variable {α : Type}

theorem walks_step (hd : h.Descends s) (hnext : ∀ p q, (h.scope s).parent = some p → h.Encloses q p →
      h.Walks name found q (h.walkFrom name found fuel q)) :
    h.Walks name found s (h.walkFrom name found (fuel + 1) s) := by
  rw [walkFrom]
  cases hfound : found s with
  | some a => exact .found hfound
  | none =>
    have hmodule := moduleOf_moduleScope hd
    dsimp only
    split
    · rename_i hdeclared
      obtain ⟨p, hparent, houter⟩ := hmodule.encloses.outer hdeclared.2
      exact .redirected hfound hdeclared.1 hmodule hdeclared.2 (hnext p _ hparent houter)
    · rename_i hstays
      have hself : name ∈ (h.scope s).globals → h.ModuleOf s s := by
        intro hdeclared
        have heq : h.moduleScope s = s := Decidable.of_not_not fun hne => hstays ⟨hdeclared, hne⟩
        rwa [heq] at hmodule
      have hout := nextScope_outward hd
      split
      · rename_i heq
        exact .nowhere hfound hself (heq ▸ hout)
      · rename_i p heq
        rw [heq] at hout
        obtain ⟨q, hparent, houter⟩ := hout.encloses
        exact .further hfound hself hout (hnext q p hparent houter)

theorem walks_walkFrom (hd : h.Descends s) (hs : s.index < fuel) :
    h.Walks name found s (h.walkFrom name found fuel s) := by
  induction fuel generalizing s with
  | zero => exact absurd hs (Nat.not_lt_zero _)
  | succ fuel ih =>
    refine walks_step hd fun p q hparent houter => ih (hd.outer (.inner hparent houter)) ?_
    have hlt := hd.lt hparent
    have hle := houter.le (hd.outer (.inner hparent .self))
    omega

theorem walks_of_size (hd : h.Descends s) : h.Walks name found s (h.walkFrom name found (h.scopes.size + 1) s) := by
  refine walks_step hd fun p q hparent houter => walks_walkFrom (hd.outer (.inner hparent houter)) ?_
  calc q.index ≤ p.index := houter.le (hd.outer (.inner hparent .self))
    _ < s.index := hd.lt hparent
    _ < h.scopes.size := lt_of_parent hparent

end Ends

section Answers

/-- The bindings of a name in a scope itself, as the look-up of names asks for them. -/
def bindingsAt (h : Heap) (name : String) (s : ScopeId) : Option (List BindingId) := (h.scope s).bound? name

/-- The scope itself if it has an entry for a name, as the look-up of scopes asks for it. -/
def entryAt (h : Heap) (name : String) (s : ScopeId) : Option ScopeId :=
  if (h.scope s).table.contains name then some s else none

theorem entryAt_eq_none : h.entryAt name s = none ↔ (h.scope s).local? name = none := by
  rw [entryAt, Scope.local?, ← Table.contains_eq_false_iff]
  split <;> simp_all

theorem eq_of_entryAt (ht : h.entryAt name s = some t) : t = s ∧ (h.scope s).local? name ≠ none := by
  refine ⟨?_, fun hnone => ?_⟩
  · rw [entryAt] at ht
    split at ht
    · exact (Option.some.inj ht).symm
    · cases ht
  · rw [entryAt_eq_none.2 hnone] at ht
    cases ht

def SingleNames (h : Heap) : Prop :=
  ∀ (s : ScopeId) (name : String) (bs : List BindingId), (h.scope s).local? name = some bs → ∃ b, bs = [b] ∧ h.HasBinding b

theorem SingleNames.bindingsAt_eq (hs : h.SingleNames) : h.bindingsAt name s = (h.scope s).local? name := by
  rw [bindingsAt, Scope.bound?]
  cases hlocal : (h.scope s).local? name with
  | none => rfl
  | some bs =>
    obtain ⟨b, rfl, _⟩ := hs s name bs hlocal
    rfl

/-- The walk that asks for bindings goes where the one that asks for entries goes, and finds what the entry says. -/
theorem Walks.bindings (hs : h.SingleNames) (hw : h.Walks name (h.entryAt name) s r) :
    h.Walks name (h.bindingsAt name) s (r.bind fun t => (h.scope t).local? name) := by
  have hfree : ∀ {s}, h.entryAt name s = none → h.bindingsAt name s = none :=
    fun hnone => hs.bindingsAt_eq.trans (entryAt_eq_none.1 hnone)
  induction hw with
  | @found s t here =>
    obtain ⟨rfl, hlocal⟩ := eq_of_entryAt here
    obtain ⟨bs, hbs⟩ := Option.ne_none_iff_exists'.1 hlocal
    rw [Option.bind_some, hbs]
    exact .found (hs.bindingsAt_eq.trans hbs)
  | redirected free declared module away _ ih => exact .redirected (hfree free) declared module away ih
  | further free stays next _ ih => exact .further (hfree free) stays next ih
  | nowhere free stays next => exact .nowhere (hfree free) stays next

theorem Walks.entry (hw : h.Walks name (h.entryAt name) s r) (ht : r = some t) : (h.scope t).local? name ≠ none := by
  induction hw with
  | found here =>
    obtain ⟨rfl, hlocal⟩ := eq_of_entryAt here
    cases ht
    exact hlocal
  | redirected _ _ _ _ _ ih => exact ih ht
  | further _ _ _ _ ih => exact ih ht
  | nowhere _ _ _ => cases ht

theorem Walks.encloses (hw : h.Walks name (h.entryAt name) s r) (ht : r = some t) : h.Encloses t s := by
  induction hw with
  | found here =>
    obtain ⟨rfl, _⟩ := eq_of_entryAt here
    cases ht
    exact .self
  | redirected _ _ module _ _ ih => exact (ih ht).trans module.encloses
  | further _ _ next _ ih =>
    obtain ⟨q, hparent, houter⟩ := next.encloses
    exact ((ih ht).trans houter).trans (.inner hparent .self)
  | nowhere _ _ _ => cases ht

/-- The walk comes to a scope and has met neither an entry for the name nor a declaration that it belongs to the module. -/
inductive WalksTo (h : Heap) (name : String) : ScopeId → ScopeId → Prop
  | here {s : ScopeId} : h.WalksTo name s s
  | further {s p z : ScopeId} (free : (h.scope s).local? name = none) (undeclared : name ∉ (h.scope s).globals)
      (next : h.NextScope s (some p)) (rest : h.WalksTo name p z) : h.WalksTo name s z

variable (hh : h.Housed)
include hh

theorem ModuleOf.kind_ne (hm : h.ModuleOf s m) : (h.scope m).kind ≠ .classBody := by
  intro hkind
  induction hm with
  | module kind => cases hkind.symm.trans kind
  | outermost _ parent =>
    rcases (hh.enclosed _).1 parent with hk | hk <;> cases hkind.symm.trans hk
  | inner _ _ _ ih => exact ih hkind

theorem Walks.classes (hw : h.Walks name (h.entryAt name) s r) (ht : r = some t)
    (hkind : (h.scope t).kind = .classBody) : ∀ z, h.Encloses z s → h.Encloses t z → (h.scope z).kind = .classBody := by
  induction hw with
  | @found s a here =>
    obtain ⟨rfl, _⟩ := eq_of_entryAt here
    cases ht
    exact fun z hz hz' => hz'.antisymm hz (hh.descends z) ▸ hkind
  | redirected _ _ module _ rest ih =>
    -- The walk goes on in the module, which would have to be a class body itself.
    exact absurd (ih ht _ .self (rest.encloses ht)) (module.kind_ne hh)
  | @further s p _ _ _ next rest ih =>
    intro z hz hz'
    have hp := ih ht p .self (rest.encloses ht)
    cases next with
    | function _ outer => exact absurd hp (outer.encloses rfl).1
    | other hfunction hq =>
      cases hz with
      | inner hparent' hz =>
        cases hq.symm.trans hparent'
        exact ih ht z hz hz'
      | self =>
        -- What is neither a function nor a class body is in no class body.
        cases hs : (h.scope s).kind with
        | classBody => rfl
        | function => exact absurd hs hfunction
        | module =>
          cases (hh.topmost s hs).symm.trans hq
          cases hp.symm.trans hh.outermost.1
        | global => cases ((hh.enclosed s).2 (.inl hs)).symm.trans hq
        | object => cases ((hh.enclosed s).2 (.inr hs)).symm.trans hq
  | nowhere _ _ _ => cases ht

theorem Encloses.eq_globals (he : h.Encloses z globals) : z = globals := by
  by_contra hne
  obtain ⟨p, hp, _⟩ := he.outer hne
  cases hp.symm.trans hh.outermost.2

theorem Walks.of_module (hm : h.ModuleOf m m) (hw : h.Walks name (h.entryAt name) m (some t)) : t = m ∨ t = globals := by
  cases hw with
  | found here => exact .inl (eq_of_entryAt here).1
  | redirected _ _ module away => exact absurd (module.unique hm) away
  | further _ _ next rest =>
    obtain ⟨q, hparent, houter⟩ := next.encloses
    cases hm with
    | outermost _ parent => cases parent.symm.trans hparent
    | inner _ parent outer =>
      exact absurd (outer.encloses.le (hh.descends _)) (Nat.not_le_of_lt (hh.enclosers _ _ parent))
    | module kind =>
      cases (hh.topmost m kind).symm.trans hparent
      cases houter.eq_globals hh
      exact .inr ((rest.encloses rfl).eq_globals hh)

/-- What the first scope that knows a name declares to belong to the module is found in the scope of the module or in the
outermost one. -/
theorem WalksTo.declared (hw : h.WalksTo name s z) (free : (h.scope z).local? name = none)
    (declared : name ∈ (h.scope z).globals) (hr : h.Walks name (h.entryAt name) s (some t)) :
    h.ModuleOf z t ∨ t = globals := by
  induction hw with
  | here =>
    cases hr with
    | found here => exact absurd free (eq_of_entryAt here).2
    | redirected _ _ module _ rest =>
      rcases rest.of_module hh module.self with rfl | ht
      · exact .inl module
      · exact .inr ht
    | further free' stays next rest =>
      have hself := stays declared
      rcases (Walks.further free' stays next rest).of_module hh hself with rfl | ht
      · exact .inl hself
      · exact .inr ht
  | further free' undeclared next _ ih =>
    cases hr with
    | found here => exact absurd free' (eq_of_entryAt here).2
    | redirected _ declared' => exact absurd declared' undeclared
    | further _ _ next' rest =>
      cases next.unique next'
      exact ih free declared rest

end Answers

/-- How free names are found. -/
structure LooksUp (h : Heap) : Prop where
  single : h.SingleNames
  ends : ∀ s name, h.Walks name (h.bindingsAt name) s (h.lookup s name) ∧
    h.Walks name (h.entryAt name) s (h.lookupScope s name)
  agrees : ∀ s name, h.lookup s name = none ↔ h.lookupScope s name = none
  entry : ∀ s name t, h.lookupScope s name = some t → h.Encloses t s ∧
    ∃ b, h.lookup s name = some [b] ∧ (h.scope t).local? name = some [b]
  classes : ∀ s name t, h.lookupScope s name = some t → (h.scope t).kind = .classBody →
    ∀ z, h.Encloses z s → h.Encloses t z → (h.scope z).kind = .classBody
  declared : ∀ s name z t, h.WalksTo name s z → (h.scope z).local? name = none → name ∈ (h.scope z).globals →
    h.lookupScope s name = some t → h.ModuleOf z t ∨ t = globals

theorem Secluded.singleNames (ha : h.Secluded) : h.SingleNames := by
  intro s name bs hbs
  have hvalues := Table.mem_values_of_get? hbs
  by_cases hs : s = moduleTable
  · obtain ⟨b, _, hb, hhas, _⟩ := ha.entries bs (hs ▸ hvalues)
    exact ⟨b, hb, hhas⟩
  · obtain ⟨b, hb⟩ := ha.single s hs bs hvalues
    exact ⟨b, hb, (ha.unshared s hs bs hvalues b (hb ▸ List.mem_singleton_self b)).1⟩

theorem Secluded.looksUp (ha : h.Secluded) : h.LooksUp := by
  have hsingle := ha.singleNames
  have hscope : ∀ s name, h.Walks name (h.entryAt name) s (h.lookupScope s name) := fun s _ => walks_of_size (ha.housed.descends s)
  have hbindings : ∀ s name, h.Walks name (h.bindingsAt name) s (h.lookup s name) := fun s _ => walks_of_size (ha.housed.descends s)
  have hlookup : ∀ s name, h.lookup s name = (h.lookupScope s name).bind fun t => (h.scope t).local? name :=
    fun s name => (hbindings s name).unique ((hscope s name).bindings hsingle)
  have hentry : ∀ s name t, h.lookupScope s name = some t →
      ∃ b, h.lookup s name = some [b] ∧ (h.scope t).local? name = some [b] := by
    intro s name t ht
    obtain ⟨bs, hbs⟩ := Option.ne_none_iff_exists'.1 ((hscope s name).entry ht)
    obtain ⟨b, rfl, _⟩ := hsingle t name bs hbs
    exact ⟨b, by rw [hlookup, ht, Option.bind_some, hbs], hbs⟩
  refine ⟨hsingle, fun s name => ⟨hbindings s name, hscope s name⟩, fun s name => ?_, fun s name t ht => ?_,
    fun s name t ht => ?_, fun s name z t hto free declared ht => ?_⟩
  · cases ht : h.lookupScope s name with
    | none => simp [hlookup, ht]
    | some t =>
      obtain ⟨b, hb, _⟩ := hentry s name t ht
      simp [hb]
  · exact ⟨(hscope s name).encloses ht, hentry s name t ht⟩
  · exact (hscope s name).classes ha.housed ht
  · exact hto.declared ha.housed free declared (ht ▸ hscope s name)

end Heap

end Concordance
