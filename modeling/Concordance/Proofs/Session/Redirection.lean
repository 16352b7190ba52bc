import Concordance.Proofs.Heap.Lookup
import Concordance.Proofs.Session.Lasting
import Concordance.Proofs.Tracking.Entry

/-!
# Names that belong to the module

A function may declare that a name belongs to the module.
-/

namespace Concordance

open Syntax (Ident Span)

variable {s : Session}

namespace Heap

variable {h : Heap}

section Lookup

/-- What the look-up of a name gives that is bound in a scope around: what it is bound to there, unless another scope on
the way binds it, and then what it is bound to in that one. -/
def ComesTo (h : Heap) (y t : ScopeId) (name : String) (bs : List BindingId) (found : Option (List BindingId)) : Prop :=
  found = some bs ∨ ∃ z cs, z ≠ t ∧ h.Encloses z y ∧ (h.scope z).bound? name = some cs ∧ found = some cs

theorem ComesTo.inner (hf : h.ComesTo y t name bs found) (he : h.Encloses y x) : h.ComesTo x t name bs found := by
  refine hf.imp_right fun hz => ?_
  obtain ⟨z, cs, hne, hzy, hbound, hfound⟩ := hz
  exact ⟨z, cs, hne, hzy.trans he, hbound, hfound⟩

variable (hh : h.Housed)
include hh

theorem Within.skipClasses (fuel : Nat) (hx : h.Within x m) : ∃ y, h.skipClasses fuel (some x) = some y ∧ h.Within y m ∧
    h.Encloses y x ∧ y.index ≤ x.index := by
  induction fuel generalizing x with
  | zero => exact ⟨x, rfl, hx, .self, Nat.le_refl _⟩
  | succ fuel ih =>
    unfold Heap.skipClasses
    split
    · rename_i hkind
      cases hx with
      | table hm =>
        rw [(hh.rooms m hm).2.1] at hkind
        cases hkind
      | inner hp outer =>
        obtain ⟨y, hy, hw, he, hle⟩ := ih outer
        exact ⟨y, hp ▸ hy, hw, .inner hp he, hle.trans (Nat.le_of_lt (hh.enclosers _ _ hp))⟩
    · exact ⟨x, rfl, hx, .self, Nat.le_refl _⟩

theorem Within.outward (hp : (h.scope x).parent = some p) (outer : h.Within p m) :
    ∃ y, h.outward x = some y ∧ h.Within y m ∧ h.Encloses y x ∧ y.index < x.index := by
  have hlt := hh.enclosers x p hp
  unfold Heap.outward
  dsimp only
  split
  · obtain ⟨y, hy, hw, he, hle⟩ := outer.skipClasses hh h.scopes.size
    exact ⟨y, hp ▸ hy, hw, .inner hp he, Nat.lt_of_le_of_lt hle hlt⟩
  · exact ⟨p, hp, outer, .inner hp .self, hlt⟩

theorem Within.walkFrom_comesTo (hw : h.Within y m) (hy : y.index < fuel)
    (hb : (h.scope (h.module m).table).bound? name = some bs) :
    h.ComesTo y (h.module m).table name bs (h.walkFrom name (fun s => (h.scope s).bound? name) fuel y) := by
  induction fuel generalizing y with
  | zero => exact absurd hy (Nat.not_lt_zero _)
  | succ fuel ih =>
    rw [Heap.walkFrom]
    cases hfound : (h.scope y).bound? name with
    | some cs =>
      by_cases heq : y = (h.module m).table
      · rw [heq, hb] at hfound
        exact .inl hfound.symm
      · exact .inr ⟨y, cs, heq, .self, hfound, rfl⟩
    | none =>
      cases hw with
      | table _ => cases hb.symm.trans hfound
      | @inner _ p _ hp outer =>
        -- The scope is below that of the module, so there are steps left for the next one.
        have hlt := hh.enclosers y p hp
        dsimp only
        split
        · rw [(Within.inner hp outer).moduleScope_eq hh]
          obtain ⟨fuel, rfl⟩ : ∃ n, fuel = n + 1 := ⟨fuel - 1, by omega⟩
          rw [Heap.walkFrom, hb]
          exact .inl rfl
        · obtain ⟨z, hz, hwz, he, hzlt⟩ := Within.outward hh hp outer
          rw [hz]
          exact (ih hwz (by omega)).inner he

theorem Within.lookup_comesTo (hw : h.Within y m) (hb : (h.scope (h.module m).table).bound? name = some bs) :
    h.ComesTo y (h.module m).table name bs (h.lookup y name) :=
  hw.walkFrom_comesTo hh (Nat.lt_succ_of_lt (hw.lt hh)) hb

end Lookup

end Heap

namespace Session

/-- Names that are declared to belong to the module are bound in its scope, and only there. -/
structure SendsNames (s : Session) : Prop where
  bound : ∀ (place : Place) (m : ModuleId) (i : Ident), s.heap.Within place.scope m → s.Declares place.scope i.text →
    ∀ (env : Environment) (value : TypeId) (kind : BindingKind) (extent : Option Span),
      ∃ s', (bindName place i value kind extent).runOn env s = (.ok (), s') ∧
        (s'.heap.scope (s.heap.module m).table).local? i.text ≠ none ∧
        ∀ y, y ≠ (s.heap.module m).table → s'.heap.scope y = s.heap.scope y
  imported : ∀ (place : Place) (m : ModuleId) (i : Ident), s.heap.Within place.scope m →
    ∀ (env : Environment) (type : TypeId), ∃ s', (bindImport place i type).runOn env s = (.ok (), s') ∧
      (s'.heap.scope place.scope).local? i.text ≠ none ∧ ∀ y, y ≠ place.scope → s'.heap.scope y = s.heap.scope y

theorem Ordered.sendsNames (ho : s.Ordered) : s.SendsNames where
  bound place m i hw hd env value kind extent := by
    have hr : s.Redirects place.scope i.text (s.heap.module m).table := ⟨hd, m, hw, rfl⟩
    obtain ⟨b, s', hrun, hentry⟩ := runOn_bindIn_enters env s (hr.lt ho) i.text (some (place.site i extent)) value kind
    refine ⟨s', ?_, hentry⟩
    rw [bindName, runOn_theHeap_bind, hr.targetScope ho, runOn_discard, hrun]
    rfl
  imported place m i hw env type := by
    obtain ⟨b, s', hrun, hentry⟩ := runOn_bindIn_enters env s (hw.lt ho.apart.housed) i.text (some (place.site i)) type
      .variableName
    refine ⟨s', ?_, hentry⟩
    rw [bindImport, runOn_discard, hrun]
    rfl

/-- What functions declare to belong to the module stays declared, and gets no entry in their scopes, unless it is a
parameter or imported there. -/
def KeepsDeclared (s s' : Session) : Prop := ∀ x name, s.Declares x name → s'.Declares x name ∧
  ((s.heap.scope x).local? name = none → (s'.heap.scope x).local? name = none ∨ s'.Takes x name)

theorem Lasts.keepsDeclared (hl : s.Lasts s') : s.KeepsDeclared s' :=
  fun x name hd => ⟨hl.declared x name hd, hl.spared x name hd⟩

/-- A name is bound in the scope of the module that a scope is in, and all scopes of the module find it. -/
def Publishes (s : Session) (x : ScopeId) (name : String) : Prop :=
  ∃ m bs, s.heap.Within x m ∧ (s.heap.scope (s.heap.module m).table).bound? name = some bs ∧
    ∀ y, s.heap.Within y m → s.heap.ComesTo y (s.heap.module m).table name bs (s.heap.lookup y name)

theorem Ordered.publishes (ho : s.Ordered) (hw : s.heap.Within x m)
    (hentry : (s.heap.scope (s.heap.module m).table).local? name ≠ none) : s.Publishes x name := by
  obtain ⟨bs, hbound⟩ := ho.apart.exists_bound (ho.apart.modules m) hentry
  exact ⟨m, bs, hw, hbound, fun y hy => hy.lookup_comesTo ho.apart.housed hbound⟩

end Session

/-- A task spares the scopes of functions the names that they declare to belong to the module; and those that it binds
itself, if it ends well, are bound in the scope of the module. -/
def Verdict.redirects : Verdict := fun _ task s r s' => s.SendsNames ∧ s'.SendsNames ∧ s.KeepsDeclared s' ∧
  ∀ a, r = .ok a → ∀ i ∈ task.boundNames, s.Declares task.place.scope i.text → s'.Publishes task.place.scope i.text

theorem redirects_holds (env : Environment) (final : Session) : Verdict.redirects.HoldsOf env final := by
  intro α task s r s' ht ho ho' hon hb hs hrun
  refine ⟨ho.sendsNames, ho'.sendsNames, hon.lasts.keepsDeclared, fun a hr i hi hd => ?_⟩
  obtain ⟨fuel, hrun⟩ := hrun
  obtain ⟨m, _, _, _, hw⟩ := ho.stands_within ht.stands
  have henlists : Enlists env (.withFuel fuel) := .withFuel fuel
  have henters := henlists.run task ht hs hi ⟨hd, m, hw, rfl⟩
  have hentry := (henters.run s (.refl s) ho).2 a s' (hr ▸ hrun)
  refine ho'.publishes (hon.before.scopes _ m hw) ?_
  rw [(hon.lasts.firm.modules m hw.module_lt).2]
  exact hentry.resolve_right (ho.apart.modules m)

/-- Names that a function declares to belong to the module go there, unless they are imported. In a reachable session a
name so declared is bound in the scope of the module, with no change to any other scope, while an import binds it where it
stands. Whatever steps follow, the name stays declared, and the scope of the function gets no entry for it that is not a
parameter's or an import's. All through a step this holds between the beginning and the end of each task, and the names
that a task binds (targets, definitions, contexts, handlers, captures) are bound in the scope of the module after it,
where every scope of the module finds them: vetting the tasks makes no difference. -/
theorem declared_names_go_to_module_unless_imported (hs : Reachable s) : s.SendsNames ∧
    (∀ steps, s.KeepsDeclared (s.advance steps)) ∧
      ∀ (env : Environment) (step : SessionStep) (alarm : Fault),
        (step.runBy (.vetting .redirects alarm)).runOn env s = step.run.runOn env s :=
  ⟨hs.ordered.sendsNames, fun steps => (hs.onward steps).lasts.keepsDeclared, hs.runOn_vetting_of redirects_holds⟩

/-- Two functions declare that a name belongs to the module. One imports it, and the other binds it to an integer. -/
def declaredNames : Environment where
  workspace := .ofFiles [("h.py", textFile), ("m.py", ⟨.empty, .tree ⟨some ⟨0, 75⟩,
      [.functionDef (some ⟨0, 34⟩) 0 ⟨1, "f", some ⟨4, 5⟩⟩ ⟨[], [], none, [], none⟩
          [.line [.global [⟨2, "h", some ⟨20, 21⟩⟩]], .line [.importModules [⟨[⟨3, "h", some ⟨33, 34⟩⟩], none⟩]]] [],
        .functionDef (some ⟨35, 66⟩) 4 ⟨5, "g", some ⟨39, 40⟩⟩ ⟨[], [], none, [], none⟩
          [.line [.global [⟨6, "x", some ⟨55, 56⟩⟩]],
            .line [.assign [.name ⟨7, "x", some ⟨61, 62⟩⟩] (.integer (some ⟨65, 66⟩) "1")]] [],
        .line [.expr (.call (some ⟨67, 70⟩) (.name ⟨8, "f", some ⟨67, 68⟩⟩) [])],
        .line [.expr (.call (some ⟨71, 74⟩) (.name ⟨9, "g", some ⟨71, 72⟩⟩) [])]], by decide, by decide⟩⟩)] [] none
  settings := default

def Session.anyFunction (s : Session) (test : Session → Function → Bool) : Bool := s.heap.functions.toList.any (test s)

theorem Session.exists_of_anyFunction (h : s.anyFunction test = true) : ∃ f ∈ s.heap.functions, test s f = true := by
  obtain ⟨f, hf, htest⟩ := List.any_eq_true.1 h
  exact ⟨f, Array.mem_toList_iff.1 hf, htest⟩

instance (s : Session) (x : ScopeId) (name : String) : Decidable (s.Declares x name) :=
  inferInstanceAs (Decidable (_ ∧ _))

def Session.strays (s : Session) (f : Function) : Bool :=
  match f.code with
  | some ⟨_, _, ⟨[], [], none, [], none⟩, .block (.line [.global [i]] :: _)⟩ =>
    decide (s.Declares f.table i.text) && ((s.heap.scope f.table).local? i.text).isSome &&
      ((s.heap.scope (s.heap.moduleScope f.table)).local? i.text).isNone
  | _ => false

def Session.complies (s : Session) (f : Function) : Bool :=
  decide (s.Declares f.table "x") && ((s.heap.scope f.table).local? "x").isNone

theorem declaredNames_session :
    (Session.after [(declaredNames, .load "m.py")]).anyFunction Session.strays = true ∧
      (Session.after [(declaredNames, .load "m.py")]).anyFunction Session.complies = true := by decide +kernel

/-- A name that a function declares to belong to the module may be entered in the scope of the function instead, and not
in that of the module: an import after the declaration does that. -/
theorem import_enters_declared_name : ∃ s, Reachable s ∧ ∃ f c i rest, f ∈ s.heap.functions ∧ f.code = some c ∧
    c.params.idents = [] ∧ c.body = .block (.line [.global [i]] :: rest) ∧ s.Declares f.table i.text ∧
    (s.heap.scope f.table).local? i.text ≠ none ∧
    (s.heap.scope (s.heap.moduleScope f.table)).local? i.text = none := by
  obtain ⟨s, hs, htest⟩ := Reachable.exists_of_test (Session.anyFunction · Session.strays) declaredNames_session.1
  obtain ⟨f, hf, hstrays⟩ := Session.exists_of_anyFunction htest
  rw [Session.strays] at hstrays
  split at hstrays
  · rename_i unit node i rest hcode
    simp only [Bool.and_eq_true, decide_eq_true_eq, Option.isSome_iff_ne_none, Option.isNone_iff_eq_none] at hstrays
    exact ⟨s, hs, f, _, i, rest, hf, hcode, rfl, rfl, hstrays.1.1, hstrays.1.2, hstrays.2⟩
  · cases hstrays

/-- Whatever steps follow, the name that is bound to an integer gets no entry in the scope of its function, unless it is
imported there. -/
theorem declared_names_go_to_module_unless_imported_declaredNames : ∃ s, Reachable s ∧ ∃ x, s.Declares x "x" ∧
    (s.heap.scope x).local? "x" = none ∧ ∀ steps, (s.advance steps).Declares x "x" ∧
      (((s.advance steps).heap.scope x).local? "x" = none ∨ (s.advance steps).Takes x "x") := by
  obtain ⟨s, hs, htest⟩ := Reachable.exists_of_test (Session.anyFunction · Session.complies) declaredNames_session.2
  obtain ⟨f, _, hcomplies⟩ := Session.exists_of_anyFunction htest
  simp only [Session.complies, Bool.and_eq_true, decide_eq_true_eq, Option.isNone_iff_eq_none] at hcomplies
  refine ⟨s, hs, f.table, hcomplies.1, hcomplies.2, fun steps => ?_⟩
  obtain ⟨hdeclares, hspared⟩ := (declared_names_go_to_module_unless_imported hs).2.1 steps f.table "x" hcomplies.1
  exact ⟨hdeclares, hspared hcomplies.2⟩

end Concordance
