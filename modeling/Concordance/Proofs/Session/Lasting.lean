import Concordance.Proofs.Session.Unions
import Concordance.Proofs.Tracking.Step

/-!
# Names keep the types that they were bound to

Names are approximated by all the types that were ever bound to them. A name that is bound again takes in the new type,
and what it includes stays included, but for two cases.
-/

namespace Concordance

open Session (moduleTable)

variable {env : Environment} {s s' : Session}

namespace Session

/-- A name is bound in a scope to something that includes the given type. -/
def Offers (s : Session) (x : ScopeId) (name : String) (m : TypeId) : Prop :=
  ∃ bs, (s.heap.scope x).bound? name = some bs ∧ ∃ b ∈ bs, s.heap.Includes (s.heap.binding b).type m

instance (h : Heap) (t m : TypeId) : Decidable (h.Includes t m) :=
  inferInstanceAs (Decidable (∃ m' ∈ h.members t, h.equal m' m = true))

instance (s : Session) (x : ScopeId) (name : String) (m : TypeId) : Decidable (s.Offers x name m) :=
  inferInstanceAs (Decidable (∃ bs ∈ (s.heap.scope x).bound? name, ∃ b ∈ bs, s.heap.Includes (s.heap.binding b).type m))

/-- What binding a name does in a session, and what importing everything does. -/
structure Merges (s : Session) : Prop where
  /-- A name that is bound takes in the plain alternatives of the type, unless it had a union which is taken to be equal
  to the type. -/
  bind : ∀ (env : Environment) (x : ScopeId) (name : String) (site : Option Site) (type : TypeId) (kind : BindingKind),
    x.index < s.heap.scopes.size → ∃ b s', (bindIn x name site type kind).runOn env s = (.ok b, s') ∧
      (∃ bs, (s'.heap.scope x).bound? name = some (b :: bs)) ∧
      ∀ m ∈ s.heap.members type, (s.heap.ty m).isPlain = true → s'.Offers x name m ∨
        ∃ bs, (s.heap.scope x).bound? name = some (b :: bs) ∧ s.heap.TakenEqual (s.heap.binding b).type type
  /-- The names of a module that are not private replace those of the scope that they are imported into. -/
  spread : ∀ (place : Place) (m : ModuleId), place.scope.index < s.heap.scopes.size →
    s.heap.TakesOver ((importEverything place m).run s.heap).2 place.scope m

/-- What a name offers it goes on to offer, unless it may have been replaced when everything was imported; bindings keep
their plain alternatives even then. -/
structure KeepsNames (s s' : Session) : Prop where
  offers : ∀ x name m, (s.heap.ty m).isPlain = true → s.Offers x name m →
    s'.Offers x name m ∨ x = moduleTable ∨ s'.Spreads x name
  retains : s.heap.Retains s'.heap

end Session

def Verdict.keepsNames : Verdict := fun _ _ s _ s' => s.Merges ∧ s'.Merges ∧ s.KeepsNames s'

theorem Heap.Apart.has_of_bound {h : Heap} (ha : h.Apart)
    (hb : (h.scope x).bound? name = some bs) (hmem : b ∈ bs) : h.HasBinding b := by
  have hvalues := Scope.mem_values_of_bound hb
  by_cases hx : x = moduleTable
  · obtain ⟨c, m, rfl, hhas, _⟩ := ha.entries bs (hx ▸ hvalues)
    exact List.mem_singleton.1 hmem ▸ hhas
  · exact (ha.unshared x hx bs hvalues b hmem).1

namespace Session

theorem Ordered.merges (ho : s.Ordered) : s.Merges where
  bind env x name site type kind hx := by
    obtain ⟨describe, s', hdescribe, hrun, hsame, _⟩ := runOn_bindIn env s x name site type kind
    have hprolongs : s.heap.Prolongs ((insertName x name type kind describe).run s.heap).2 := prolongs_insertName
    rcases hinsert : (insertName x name type kind describe).run s.heap with ⟨⟨b, existed⟩, h'⟩
    rw [hinsert] at hrun hsame hprolongs
    obtain ⟨⟨bs, hbound⟩, hincludes⟩ := includes_insertName hx
      (fun c cs hcs => ho.apart.has_of_bound hcs (.head _)) hdescribe hinsert
    have hbound' : (s'.heap.scope x).bound? name = some (b :: bs) := by
      rw [hsame.scope]
      exact hbound
    refine ⟨b, s', hrun, ⟨bs, hbound'⟩, fun m hm hplain => ?_⟩
    -- Recording a use afterwards takes nothing away.
    refine (hincludes m hm hplain).imp_left fun hi => ⟨_, hbound', b, .head _, ?_⟩
    rw [hsame.bound]
    refine hsame.prolongs.includes ?_ hi
    rwa [hprolongs.ty_eq hplain]
  spread place m hx := importEverything_takesOver hx

theorem Ordered.keepsNames (ho : s.Ordered) (hl : s.Lasts s') : s.KeepsNames s' := by
  refine ⟨fun x name m hplain hoffers => ?_, hl.retains⟩
  obtain ⟨bs, hbound, b, hb, hi⟩ := hoffers
  refine (hl.entries x name bs hbound).imp_left fun hbound' => ⟨bs, hbound', b, hb, ?_⟩
  exact hl.retains.includes hl.firm.prolongs (ho.apart.has_of_bound hbound hb) hplain hi

end Session

theorem Reachable.onward (hs : Reachable s) (steps : List (Environment × SessionStep)) : s.Onward (s.advance steps) := by
  induction steps generalizing s with
  | nil => exact .refl s
  | cons x steps ih => exact (hs.ordered.step x.1 x.2).1.trans (ih (.step hs x.1 x.2))

/-- Names keep the types that they were bound to, unless they are imported over. In a reachable session a name that is
bound takes in the plain alternatives of the type, unless it had a union which is taken to be equal; and what it includes
it includes after any further steps, unless everything is imported into the scope and the name is not private. All
through a step this holds between the beginning and the end of each task: vetting the tasks makes no difference. -/
theorem names_keep_types_unless_imported_over (hs : Reachable s) : s.Merges ∧
    (∀ steps, s.KeepsNames (s.advance steps)) ∧
      ∀ (env : Environment) (step : SessionStep) (alarm : Fault),
        (step.runBy (.vetting .keepsNames alarm)).runOn env s = step.run.runOn env s := by
  refine ⟨hs.ordered.merges, fun steps => hs.ordered.keepsNames (hs.onward steps).lasts, hs.runOn_vetting ?_⟩
  exact fun _ _ _ _ _ _ _ ho ho' hon _ => ⟨ho.merges, ho'.merges, ho.keepsNames hon.lasts⟩

def textFile : File where
  content := .empty
  outcome := .tree ⟨some ⟨0, 8⟩, [.line [.assign [.name ⟨0, "x", some ⟨0, 1⟩⟩] (.string (some ⟨4, 7⟩) false)]],
    by decide, by decide⟩

/-- Another file binds the name to an integer, and then imports everything from the first. -/
def importedOver : Environment where
  workspace := .ofFiles [("m.py", textFile), ("n.py", ⟨.empty, .tree ⟨some ⟨0, 28⟩,
      [.line [.assign [.name ⟨0, "x", some ⟨0, 1⟩⟩] (.integer (some ⟨4, 5⟩) "1")],
        .line [.importAll 0 [⟨1, "m", some ⟨11, 12⟩⟩]],
        .line [.assign [.name ⟨2, "y", some ⟨22, 23⟩⟩] (.name ⟨3, "x", some ⟨26, 27⟩⟩)]], by decide, by decide⟩⟩)] [] none
  settings := default

def Session.forgetsInteger (s : Session) : Bool :=
  match s.loading.units.get? ⟨0⟩ with
  | some ⟨_, _, _, ⟨_, .line [.assign [.name i] (.integer ..)] :: _, _, _⟩⟩ =>
    !decide (s.Offers (s.heap.module ⟨0⟩).table i.text .int)
  | _ => false

def Session.remembersText (s : Session) : Bool :=
  (s.heap.ty .str).isPlain && decide (s.Offers (s.heap.module ⟨1⟩).table "x" .str)

theorem importedOver_session : (Session.after [(importedOver, .load "n.py")]).forgetsInteger = true ∧
    (Session.after [(importedOver, .load "n.py")]).remembersText = true := by decide +kernel

/-- A name need not keep what it was bound to: importing everything replaces its bindings. -/
theorem import_forgets_integer : ∃ s, Reachable s ∧ s.forgetsInteger = true :=
  Reachable.exists_of_test Session.forgetsInteger importedOver_session.1

theorem names_keep_types_unless_imported_over_importedOver : ∃ s, Reachable s ∧ ∃ x, s.Offers x "x" .str ∧
    ∀ steps, (s.advance steps).Offers x "x" .str ∨ (s.advance steps).Spreads x "x" := by
  obtain ⟨s, hs, htest⟩ := Reachable.exists_of_test Session.remembersText importedOver_session.2
  rw [Session.remembersText, Bool.and_eq_true, decide_eq_true_iff] at htest
  refine ⟨s, hs, _, htest.2, fun steps => ?_⟩
  have hkept := ((names_keep_types_unless_imported_over hs).2.1 steps).offers _ "x" .str htest.1 htest.2
  exact hkept.imp_right fun hor => hor.resolve_left (hs.ordered.apart.modules _)

end Concordance
