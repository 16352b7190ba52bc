import Concordance.Proofs.Session.Lasting

/-!
# Names are bound in the module of the code

The code of a module binds names in the scopes of that module, whatever they are declared to be, and binding a name
changes no binding but the one that it has there.
-/

namespace Concordance

open Syntax (Ident Span)

variable {env : Environment} {s : Session}

/-- A binding keeps its type, unless it is the one that a name has in a scope. -/
def Heap.ChangesOnly (h h' : Heap) (x : ScopeId) (name : String) (P : Binding → Prop) : Prop :=
  ∀ b, h.HasBinding b → (h'.binding b).type = (h.binding b).type ∨
    (∃ bs, (h.scope x).bound? name = some (b :: bs)) ∧ P (h.binding b)

/-- Names are bound, and attributes are set, without a change of other bindings. -/
structure Session.Isolates (s : Session) : Prop where
  /-- The code of a module binds a name in a scope of the module, and changes no binding but that of the name, which may
  be there. -/
  names : ∀ (place : Place) (p : Syntax.Piece), s.Stands place p → ∃ m u, s.loading.units.get? m = some u ∧
    place.unit = u.ref ∧ (s.heap.module m).file = some u.path ∧
    ∀ (env : Environment) (i : Ident) (value : TypeId) (kind : BindingKind) (extent : Option Span),
      let x := s.heap.targetScope place.scope i.text
      s.heap.Within x m ∧ ∃ s', (bindName place i value kind extent).runOn env s = (.ok (), s') ∧
        s.heap.ChangesOnly s'.heap x i.text (s.Warranted x m i.text)
  attributes : ∀ (env : Environment) (t : TypeId) (name : String) (site : Option Site) (value : TypeId) (x : ScopeId),
    s.heap.attrTable? t = some x → ∃ s', (setAttr t name site value).runOn env s = (.ok true, s') ∧
      s.heap.ChangesOnly s'.heap x name fun _ => True

def Verdict.isolates : Verdict := fun _ _ s _ s' => s.Isolates ∧ s'.Isolates

theorem bindIn_changesOnly (env : Environment) (s : Session) (x : ScopeId) (name : String) (site : Option Site)
    (type : TypeId) (kind : BindingKind) : ∃ b s', (bindIn x name site type kind).runOn env s = (.ok b, s') ∧
      s.heap.ChangesOnly s'.heap x name fun _ => True := by
  obtain ⟨describe, s', _, hrun, hsame, _⟩ := runOn_bindIn env s x name site type kind
  refine ⟨_, s', hrun, fun b hb => ?_⟩
  rw [hsame.bound]
  exact (type_insertName hb).imp_right fun hbound => ⟨hbound, trivial⟩

theorem Session.Ordered.isolates (ho : s.Ordered) : s.Isolates where
  names place p hp := by
    obtain ⟨m, u, hu, hplace, hw⟩ := ho.stands_within hp
    refine ⟨m, u, hu, hplace, (ho.shelved.opened m u hu).2.2, fun env i value kind extent => ?_⟩
    have htarget := hw.targetScope ho.apart.housed i.text
    obtain ⟨b, s', hrun, hchanges⟩ := bindIn_changesOnly env s (s.heap.targetScope place.scope i.text) i.text
      (some (place.site i extent)) value kind
    refine ⟨htarget, s', ?_, fun c hc => ?_⟩
    · rw [bindName, runOn_theHeap_bind, runOn_discard, hrun]
      rfl
    · -- What the name has in a scope of the module may be there.
      refine (hchanges c hc).imp_right fun hhead => ⟨hhead.1, ?_⟩
      obtain ⟨bs, hbound⟩ := hhead.1
      exact ho.owned _ m htarget i.text _ hbound c (.head _)
  attributes env t name site value x hx := by
    obtain ⟨b, s', hrun, hchanges⟩ := bindIn_changesOnly env s x name site value .attrName
    refine ⟨s', ?_, hchanges⟩
    rw [setAttr, runOn_theHeap_bind, hx]
    dsimp only
    rw [runOn_bind, runOn_discard, hrun]
    rfl

/-- Code changes the bindings of its own module, unless they are shared. In a reachable session the code of a module binds
names in the scopes of the module, and changes no binding but the one that the name has there: it was introduced in the
file of the module, or is an attribute, or comes from an import through the module, or from importing everything into the
scope. All through a step this holds before and after each task: vetting the tasks makes no difference. -/
theorem names_change_own_bindings_unless_shared (hs : Reachable s) : s.Isolates ∧
    ∀ (env : Environment) (step : SessionStep) (alarm : Fault),
      (step.runBy (.vetting .isolates alarm)).runOn env s = step.run.runOn env s := by
  refine ⟨hs.ordered.isolates, hs.runOn_vetting ?_⟩
  exact fun _ _ _ _ _ _ _ ho ho' _ _ => ⟨ho.isolates, ho'.isolates⟩

/-- A file imports everything from one that binds a name to a text, and then binds the name to an integer. -/
def sharedName : Environment where
  workspace := .ofFiles [("m.py", textFile), ("n.py", ⟨.empty, .tree ⟨some ⟨0, 22⟩,
      [.line [.importAll 0 [⟨0, "m", some ⟨5, 6⟩⟩]],
        .line [.assign [.name ⟨1, "x", some ⟨16, 17⟩⟩] (.integer (some ⟨20, 21⟩) "1")]], by decide, by decide⟩⟩)] [] none
  settings := default

def Session.changedElsewhere (s : Session) : Bool :=
  match s.loading.units.get? ⟨1⟩ with
  | some ⟨_, path, _, ⟨_, [.line [.assign [.name i] (.string ..)]], _, _⟩⟩ =>
    match (s.heap.scope (s.heap.module ⟨1⟩).table).bound? i.text with
    | some bs => bs.any fun b => (s.heap.binding b).file == some path && decide (s.heap.Includes (s.heap.binding b).type .int)
    | none => false
  | _ => false

def Session.hasCode (s : Session) : Bool :=
  match s.loading.units.get? ⟨0⟩ with
  | some u => !u.tree.body.isEmpty
  | none => false

theorem sharedName_session : (Session.after [(sharedName, .load "n.py")]).changedElsewhere = true ∧
    (Session.after [(sharedName, .load "n.py")]).hasCode = true := by decide +kernel

/-- A module need not be isolated from the names of others: a binding that came with everything from a module is shared
with it, and binding the name changes both. -/
theorem shared_name_changes_elsewhere : ∃ s, Reachable s ∧ s.changedElsewhere = true :=
  Reachable.exists_of_test Session.changedElsewhere sharedName_session.1

theorem names_change_own_bindings_unless_shared_sharedName : ∃ s, Reachable s ∧ ∃ place p, s.Stands place p ∧
    ∀ env i value kind extent, ∃ s' x m, (bindName place i value kind extent).runOn env s = (.ok (), s') ∧
      s.heap.ChangesOnly s'.heap x i.text (s.Warranted x m i.text) := by
  obtain ⟨s, hs, htest⟩ := Reachable.exists_of_test Session.hasCode sharedName_session.2
  rw [Session.hasCode] at htest
  split at htest
  · rename_i u hu
    obtain ⟨y, rest, hbody⟩ : ∃ y rest, u.tree.body = y :: rest := by
      cases hbody : u.tree.body with
      | nil => simp [hbody] at htest
      | cons y rest => exact ⟨y, rest, rfl⟩
    have hstands : s.Stands ⟨u.ref, (s.heap.module ⟨0⟩).table⟩ (.stmt y) :=
      ⟨⟨0⟩, u, .file, hu, rfl, ⟨⟨0⟩, u, hu, rfl, rfl⟩, Syntax.mem_piecesOf (hbody ▸ List.mem_cons_self ..)⟩
    obtain ⟨m, _, _, _, _, hnames⟩ := (names_change_own_bindings_unless_shared hs).1.names _ _ hstands
    refine ⟨s, hs, _, _, hstands, fun env i value kind extent => ?_⟩
    obtain ⟨_, s', hrun, hchanges⟩ := hnames env i value kind extent
    exact ⟨s', _, m, hrun, hchanges⟩
  · cases htest

end Concordance
