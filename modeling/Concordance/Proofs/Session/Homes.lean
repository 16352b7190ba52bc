import Concordance.Proofs.Tracking.Step

/-!
# One scope for each node

However often code is evaluated in a session, it is evaluated in one and the same scope: that of the region which it
stands in.
-/

namespace Concordance

open Syntax (Ident Part Piece Region piecesOf)

/-- Scopes for the regions of units, by the numbers of the units, and for numbered nodes. -/
structure Homes where
  region : Nat → Region → ScopeId
  node : NodeRef → ScopeId

/-- A task is done in the scope of a region that its code stands in, and this scope is the one of every node that stands
directly in the code. -/
structure Task.AtHome {α : Type} (task : Task α) (homes : Homes) (s : Session) : Prop where
  region : ∃ m unit region, s.loading.units.get? m = some unit ∧ task.place.unit = unit.ref ∧
    (region, task.piece) ∈ piecesOf unit.tree.body ∧ task.place.scope = homes.region unit.number region
  nodes : ∀ n, task.piece.Bears n → task.place.scope = homes.node ⟨task.place.unit.number, n⟩

namespace Session

/-- What is remembered by nodes was made in their scopes: the scopes of functions, classes and comprehensions are
enclosed by them. -/
structure DefinedAt (s : Session) (homes : Homes) : Prop where
  functions : ∀ r f, s.definitions.functions.get? r = some f →
    (s.heap.scope (s.heap.function f).table).parent = some (homes.node r)
  classes : ∀ r c, s.definitions.classes.get? r = some c →
    (s.heap.scope (s.heap.cls c).table).parent = some (homes.node r)
  comprehensions : ∀ r scope, s.definitions.comprehensions.get? r = some scope →
    (s.heap.scope scope).parent = some (homes.node r)
  params : ∀ f c, (s.heap.function f).code = some c → ∀ i : Ident,
    (some (.function c.node), .expr (.name i)) ∈ Part.ofParams c.node c.params →
      (s.heap.function f).table = homes.node ⟨c.unit.number, i.node⟩

/-- The homes of a session: the scopes that regions have and that nodes stand in. -/
noncomputable def homes (s : Session) : Homes where
  region n region := Classical.epsilon fun scope => s.Hosts n region scope
  node r := Classical.epsilon fun scope => ∃ place p, s.Stands place p ∧ place.unit.number = r.unit ∧
    r.node ∈ p.numbers ∧ place.scope = scope

end Session

/-- A task is at home, and so is what the session remembers before and after it. -/
def Verdict.atHome (homes : Homes) : Verdict := fun _ task s _ s' =>
  task.AtHome homes s ∧ s.DefinedAt homes ∧ s'.DefinedAt homes

namespace Session

variable {s final : Session}

section Unique

variable (ho : s.Ordered) (hg : s.Grounded)
include ho hg

theorem Ordered.hosts_unique (hs : s.Hosts n region scope) (hs' : s.Hosts n region scope') : scope = scope' := by
  cases region with
  | file =>
    obtain ⟨m, u, hu, hn, htable⟩ := hs
    obtain ⟨m', u', hu', hn', htable'⟩ := hs'
    -- A module is made from a unit once.
    have hm := ho.shelved.once m m' u u' hu hu' (hn.trans hn'.symm)
    rw [← htable, ← htable', hm]
  | function node =>
    -- A definition has one function.
    obtain ⟨f, c, hc, href, htable⟩ := hs
    obtain ⟨f', c', hc', href', htable'⟩ := hs'
    have hf := hg.known f c hc
    have hf' := hg.known f' c' hc'
    rw [href] at hf
    rw [href', hf, Option.some.injEq] at hf'
    rw [← htable, ← htable', hf']
  | cls node =>
    obtain ⟨c, hc, htable⟩ := hs
    obtain ⟨c', hc', htable'⟩ := hs'
    rw [hc, Option.some.injEq] at hc'
    rw [← htable, ← htable', hc']
  | comprehension node => exact Option.some.inj (hs.symm.trans hs')

theorem Ordered.stands_unique (hp : s.Stands place p) (hp' : s.Stands place' p')
    (hunit : place.unit.number = place'.unit.number) (hn : n ∈ p.numbers) (hn' : n ∈ p'.numbers) :
    place.scope = place'.scope := by
  obtain ⟨m, unit, region, hm, hplace, hhost, hmem⟩ := hp
  obtain ⟨m', unit', region', hm', hplace', hhost', hmem'⟩ := hp'
  rw [hplace, hplace'] at hunit
  have heq := ho.shelved.once m m' unit unit' hm hm' hunit
  rw [← heq, hm, Option.some.injEq] at hm'
  subst hm'
  -- In one tree a number belongs to one piece of code, in one region.
  obtain ⟨hregion, _⟩ := unit.tree.piece_unique hmem hmem' hn hn'
  rw [← hregion] at hhost'
  exact ho.hosts_unique hg hhost hhost'

theorem Ordered.region_home (hs : s.Hosts n region scope) : scope = s.homes.region n region := by
  have hhome : s.Hosts n region (s.homes.region n region) := Classical.epsilon_spec ⟨scope, hs⟩
  exact ho.hosts_unique hg hs hhome

theorem Ordered.node_home (hp : s.Stands place p) (hn : n ∈ p.numbers) :
    place.scope = s.homes.node ⟨place.unit.number, n⟩ := by
  obtain ⟨place', p', hp', hunit, hn', hscope⟩ : ∃ place' p', s.Stands place' p' ∧
      place'.unit.number = place.unit.number ∧ n ∈ p'.numbers ∧ place'.scope = s.homes.node ⟨place.unit.number, n⟩ :=
    Classical.epsilon_spec (p := fun scope => ∃ place' p', s.Stands place' p' ∧
      place'.unit.number = place.unit.number ∧ n ∈ p'.numbers ∧ place'.scope = scope)
      ⟨place.scope, place, p, hp, rfl, hn, rfl⟩
  rw [← hscope]
  exact ho.stands_unique hg hp hp' hunit.symm hn hn'

end Unique

section AtHome

variable (ho : final.Ordered) (hg : final.Grounded)
include ho hg

theorem Ordered.atHome (hb : s.Before final) {task : Task α} (ht : s.Stands task.place task.piece) :
    task.AtHome final.homes s := by
  obtain ⟨m, unit, region, hm, hplace, hhost, hmem⟩ := ht
  -- A node that stands directly in the code stands in the region of the code.
  refine ⟨⟨m, unit, region, hm, hplace, hmem, ?_⟩, fun n hn => ?_⟩
  · exact ho.region_home hg (hb.hosts _ _ _ hhost)
  · obtain ⟨q, hq, hnumber⟩ := hn.exists_piece hmem
    exact ho.node_home hg (Stands.later ⟨m, unit, region, hm, hplace, hhost, hq⟩ hb) hnumber

theorem Ordered.parent_home (hb : s.Before final) (hm : s.MadeFor r scope) :
    (s.heap.scope scope).parent = some (final.homes.node r) := by
  obtain ⟨_, place, p, hp, hunit, hnode, hparent⟩ := hm
  rw [hparent, ho.node_home hg (hp.later hb) hnode, hunit]

theorem Ordered.definedAt (hb : s.Before final) (hs : s.Ordered) : s.DefinedAt final.homes where
  functions r f hf := by
    obtain ⟨c, hc, rfl⟩ := hs.rooted.functions r f hf
    obtain ⟨hbelongs, scope, p, hp, hdef, hparent⟩ := hs.rooted.codes f c hc
    refine ho.parent_home hg hb ⟨hbelongs, _, p, hp, rfl, ?_, hparent⟩
    cases hdef <;> exact List.mem_singleton.2 rfl
  classes r c hc := ho.parent_home hg hb (hs.rooted.classes r c hc).2
  comprehensions r scope hc := ho.parent_home hg hb (hs.rooted.comprehensions r scope hc)
  params f c hc i hi := by
    obtain ⟨_, scope, p, hp, hdef, _⟩ := hs.rooted.codes f c hc
    have hpart : (some (.function c.node), .expr (.name i)) ∈ p.parts := by
      cases hdef with
      | function => exact List.mem_append_left _ (List.mem_append_left _ (List.mem_append_right _ hi))
      | lambda => exact List.mem_append_left _ hi
    have hinside := hp.inside (.function c.node) hpart ⟨f, c, hc, rfl, rfl⟩
    exact ho.node_home hg (hinside.later hb) (List.mem_singleton.2 rfl)

theorem Ordered.atHome_holds : (Verdict.atHome final.homes).Holds final := fun _ _ _ _ ht hs hs' hon hp =>
  have hb := hp.toBefore
  ⟨ho.atHome hg (hon.before.trans hb) ht.stands, ho.definedAt hg (hon.before.trans hb) hs, ho.definedAt hg hb hs'⟩

end AtHome

end Session

/-- One scope for each node. For every sequence of steps, each in an environment of its own and ending well or not,
there are homes for all regions and nodes such that every task of every step is at home, and whatever the session
remembers by nodes, before and after every task and in the end, was made in their homes: vetting the tasks makes no
difference. -/
theorem one_scope_per_node (steps : List (Environment × SessionStep)) : ∃ homes : Homes,
    (∀ before env step after, steps = before ++ (env, step) :: after → ∀ alarm,
      (step.runBy (.vetting (.atHome homes) alarm)).runOn env (Session.after before) =
        step.run.runOn env (Session.after before)) ∧
    (Session.after steps).DefinedAt homes := by
  have ho := (Reachable.after steps).ordered
  have hg := (Reachable.after steps).idle.grounded
  refine ⟨(Session.after steps).homes, fun before env step after hsteps alarm => ?_, ho.definedAt hg (.refl _) ho⟩
  have hbefore := (Reachable.after before).ordered
  have htracks : Tracks env (Session.after steps) (Session.after before) step.run
      (step.runBy (.vetting (.atHome _) alarm)) :=
    step_tracks (ho.atHome_holds hg) alarm step
  obtain ⟨_, _, heq⟩ := htracks.run _ (.refl _) hbefore
  refine heq ?_
  -- The step is followed by others, which lead to the end.
  have hlater := Session.after_onward (before ++ [(env, step)]) after
  rw [Session.after_concat, List.append_assoc, List.singleton_append, ← hsteps] at hlater
  exact hlater.precedes

def comprehending : Environment where
  workspace := .ofFiles [("m.py", ⟨.empty, .tree ⟨some ⟨0, 40⟩,
    [.functionDef (some ⟨0, 40⟩) 0 ⟨1, "f", some ⟨4, 5⟩⟩ ⟨[], [⟨⟨2, "p", some ⟨6, 7⟩⟩, none, none⟩], none, [], none⟩
      [.line [.giveBack (some (.comprehension (some ⟨18, 33⟩) 3 (.name ⟨4, "x", some ⟨19, 20⟩⟩)
        [⟨.name ⟨5, "x", some ⟨25, 26⟩⟩, .name ⟨6, "p", some ⟨30, 31⟩⟩, []⟩]))]] []],
    by decide, by decide⟩⟩)] [] none
  settings := default

def Session.nests (s : Session) : Bool :=
  match s.definitions.functions.get? ⟨0, 0⟩, s.definitions.comprehensions.get? ⟨0, 3⟩ with
  | some f, some scope => (s.heap.scope (s.heap.function f).table).parent ≠ (s.heap.scope scope).parent
  | _, _ => false

theorem comprehending_nests :
    (Session.after [(comprehending, .load "m.py"), (comprehending, .finish)]).nests = true := by decide +kernel

theorem one_scope_per_node_comprehending : ∃ homes : Homes,
    (∀ alarm, (SessionStep.finish.runBy (.vetting (.atHome homes) alarm)).runOn comprehending
      (Session.after [(comprehending, .load "m.py")]) =
        SessionStep.finish.run.runOn comprehending (Session.after [(comprehending, .load "m.py")])) ∧
    homes.node ⟨0, 0⟩ ≠ homes.node ⟨0, 3⟩ := by
  obtain ⟨homes, hvet, hdefined⟩ := one_scope_per_node [(comprehending, .load "m.py"), (comprehending, .finish)]
  refine ⟨homes, hvet [(comprehending, .load "m.py")] comprehending .finish [] rfl, ?_⟩
  have hnests := comprehending_nests
  unfold Session.nests at hnests
  split at hnests
  · rename_i f scope hf hscope
    rw [hdefined.functions _ f hf, hdefined.comprehensions _ scope hscope] at hnests
    exact fun heq => of_decide_eq_true hnests (congrArg some heq)
  · cases hnests

end Concordance
