import Concordance.Session.Query
import Concordance.Proofs.Tracking.Import

/-!
# Imported names are bound

Modules without files can be registered between steps. Whatever is registered and whatever steps are taken, imports that
end well leave entries for their names, and entries stay.
-/

namespace Concordance

open Session (moduleTable)
open Syntax (Alias)

variable {env : Environment} {s s' : Session}

section Registration

/-- A session comes from another one by steps, and by registering modules in between. -/
inductive Session.Becomes (s : Session) : Session → Prop
  | refl : s.Becomes s
  | step {s' : Session} (before : s.Becomes s') (env : Environment) (step : SessionStep) :
      s.Becomes (step.run.runOn env s').2
  | register {s' : Session} (before : s.Becomes s') (env : Environment) (name qname : String)
      (attributes : List (String × Recipe)) : s.Becomes ((registerStub name qname attributes).runOn env s').2

def Session.KeepsEntries (s s' : Session) : Prop :=
  ∀ x name, x ≠ moduleTable → (s.heap.scope x).local? name ≠ none → (s'.heap.scope x).local? name ≠ none

theorem Session.Precedes.keepsEntries (hp : s.Precedes s') : s.KeepsEntries s' :=
  fun x name hx he => (hp.entered x name he).resolve_right hx

theorem Session.KeepsEntries.trans (hk : s.KeepsEntries s') (hk' : s'.KeepsEntries s'') :
    s.KeepsEntries s'' := fun x name hx he => hk' x name hx (hk x name hx he)

/-- The work of making a module without a file, before it is registered. -/
def makeStub (name qname : String) (attributes : List (String × Recipe)) : Analysis ModuleId := do
  let m ← newModule name none (some Session.globals) qname
  let type := ((← theHeap).module m).type
  for (attr, recipe) in attributes do
    discard <| setAttr type attr none (← build recipe)
  return m

theorem registerStub_eq (name qname : String) (attributes : List (String × Recipe)) :
    registerStub name qname attributes = do
      let m ← makeStub name qname attributes
      registerModule m
      return m := by
  simp only [registerStub, makeStub, bind_assoc, pure_bind]

theorem makeStub_tracks (name qname : String) (attributes : List (String × Recipe)) :
    Tracks env s s (makeStub name qname attributes) (makeStub name qname attributes) := by
  refine .bind (.lift fun _ => newModule_tame ..) fun m => .theHeap_bind fun h _ => .bind ?_ fun _ => .pure
  induction attributes with
  | nil => exact .pure
  | cons entry rest ih =>
    rw [List.forIn_cons]
    refine .bind (.bind (.lift fun _ => build_tame _) fun value => ?_) fun next => ?_
    · exact (setAttr_tracks ..).discard.bind fun _ => .pure
    · cases next with
      | done _ => exact .pure
      | yield _ => exact ih

theorem Session.Ordered.registerModule (ho : s.Ordered) (env : Environment) (m : ModuleId) :
    s.Precedes ((Concordance.registerModule m).runOn env s).2 ∧ ((Concordance.registerModule m).runOn env s).2.Ordered := by
  have hp : s.Precedes ((Concordance.registerModule m).runOn env s).2 := .of_same rfl rfl rfl
  have hb := hp.toBefore
  refine ⟨hp, ho.unknown, ho.apart, { ho.filed with }, { ho.shelved with },
    ⟨ho.rooted.codes, ho.rooted.functions, ho.rooted.classes, ho.rooted.comprehensions⟩, ho.owned_same hb rfl,
    fun q hq => ?_, ho.marked_same hb rfl rfl⟩
  show (s.library.modules.insert (s.heap.module m).qname m).get? q = none ↔
    (s.library.registered.insert (s.heap.module m).qname m).get? q = none
  by_cases heq : q = (s.heap.module m).qname
  · subst heq
    rw [Table.get?_insert_self, Table.get?_insert_self]
  · rw [Table.get?_insert_of_ne heq, Table.get?_insert_of_ne heq]
    exact ho.stocked q hq

theorem Session.Ordered.registerStub (ho : s.Ordered) (env : Environment) (name qname : String)
    (attributes : List (String × Recipe)) :
    s.KeepsEntries ((Concordance.registerStub name qname attributes).runOn env s).2 ∧
      ((Concordance.registerStub name qname attributes).runOn env s).2.Ordered := by
  have hmade : Tracks env s s (makeStub name qname attributes) (makeStub name qname attributes) := makeStub_tracks ..
  obtain ⟨hon, ho1⟩ := hmade.endures ho
  rw [registerStub_eq, runOn_bind]
  rcases hrun : (makeStub name qname attributes).runOn env s with ⟨e | m, s1⟩ <;> rw [hrun] at hon ho1
  · exact ⟨hon.precedes.keepsEntries, ho1⟩
  · obtain ⟨hp, ho2⟩ := ho1.registerModule env m
    exact ⟨hon.precedes.keepsEntries.trans hp.keepsEntries, ho2⟩

theorem Session.Ordered.becomes (ho : s.Ordered) (hs : s.Becomes s') : s.KeepsEntries s' ∧ s'.Ordered := by
  induction hs with
  | refl => exact ⟨fun _ _ _ he => he, ho⟩
  | step _ env step ih =>
    obtain ⟨hon, ho'⟩ := ih.2.step env step
    exact ⟨ih.1.trans hon.precedes.keepsEntries, ho'⟩
  | register _ env name qname attributes ih =>
    obtain ⟨hkeeps, ho'⟩ := ih.2.registerStub env name qname attributes
    exact ⟨ih.1.trans hkeeps, ho'⟩

theorem Session.Becomes.ordered (hs : Session.empty.Becomes s) : s.Ordered := (Reachable.empty.ordered.becomes hs).2

end Registration

section Names

/-- A name with an entry in the scope where it is used is not reported, and an import that is overlooked changes nothing. -/
structure Session.HeedsEntries (s : Session) : Prop where
  unreported : ∀ (env : Environment) (place : Place) (kind : RefKind) (i : Syntax.Ident), place.scope ≠ moduleTable →
    (s.heap.scope place.scope).local? i.text ≠ none → ((nameType place kind i).runOn env s).2.problems = s.problems
  overlooked : ∀ (env : Environment) (ev : Evaluator) (place : Place) (a : Alias), s.Overlooks a →
    (importModule ev place a).runOn env s = (.ok (), s)

theorem Session.Ordered.heedsEntries (ho : s.Ordered) : s.HeedsEntries where
  unreported env place kind i hx he := by
    obtain ⟨bs, hbs⟩ := ho.apart.exists_bound hx he
    unfold nameType
    split
    · rfl
    · rw [runOn_theHeap_bind, Heap.lookup, Heap.walkFrom, hbs]
      -- The name is found in the scope itself, and a use is recorded.
      have hnotes : Notes env (do countLookup true; recordUse (place.site i) bs kind) fun _ => True :=
        .bind (.change (fun _ => rfl) fun _ => rfl) fun _ _ => recordUse_notes ..
      obtain ⟨_, s1, hrun, _, _, hproblems⟩ := hnotes.run s
      dsimp only
      rw [← bind_assoc, runOn_bind, hrun]
      exact hproblems
  overlooked env ev place _ ha := runOn_importModule_of_overlooks env ev place ho ha

def Task.aliases {α : Type} : Task α → List Alias
  | .stmt _ x => x.aliases
  | _ => []

/-- A task that is an import and ends well leaves entries for the names of its aliases, which are there also in the
end, unless it overlooks them. -/
def Verdict.bindsImports (final : Session) : Verdict := fun _ task s r s' =>
  s.HeedsEntries ∧ s'.HeedsEntries ∧ s.KeepsEntries s' ∧
    ∀ u, r = .ok u → ∀ a ∈ task.aliases, ∀ i ∈ a.bound, s.Overlooks a ∨
      (s'.heap.scope task.place.scope).local? i.text ≠ none ∧ (final.heap.scope task.place.scope).local? i.text ≠ none

theorem bindsImports_holds (env : Environment) (final : Session) : (Verdict.bindsImports final).HoldsOf env final := by
  intro α task s r s' ht ho ho' hon hp hs hrun
  refine ⟨ho.heedsEntries, ho'.heedsEntries, hon.precedes.keepsEntries, fun u hr a ha i hi => ?_⟩
  refine or_iff_not_imp_left.2 fun hk => ?_
  obtain ⟨fuel, hrun⟩ := hrun
  cases task with
  | stmt place x =>
    cases fuel with
    | zero => cases hr ▸ hrun
    | succ fuel =>
      have hentry : s'.Entered place.scope i.text :=
        ((stmtType_enters_alias (fun _ => .withFuel fuel) ht ha hi hk).run s (.refl s) ho).2 u s' (hr ▸ hrun)
      have hx : place.scope ≠ moduleTable := ho.scope_ne ht.stands
      have hlocal := hentry.resolve_right hx
      exact ⟨hlocal, hp.keepsEntries _ _ hx hlocal⟩
  | _ => cases ha

end Names

/-- Imports bind their names. Whatever steps were taken and whatever modules were registered: all through a further step,
an import that ends well leaves an entry for the name of each of its aliases in the scope where it stands, and the entry is
there in the end. No entry is ever lost, by a task or by what is done later, and a name that has an entry in the scope where
it is used is not reported. Only an import of a registered module by a dotted name whose first segment is neither registered
nor of the standard library is overlooked: it changes nothing. -/
theorem imports_bind_names_unless_overlooked (hs : Session.empty.Becomes s) : s.HeedsEntries ∧
    (∀ s', s.Becomes s' → s.KeepsEntries s') ∧
      ∀ (env : Environment) (step : SessionStep) (alarm : Fault),
        (step.runBy (.vetting (.bindsImports (step.run.runOn env s).2) alarm)).runOn env s = step.run.runOn env s :=
  ⟨hs.ordered.heedsEntries, fun _ hs' => (hs.ordered.becomes hs').1,
    fun env _ alarm => hs.ordered.runOn_vetting_of (bindsImports_holds env _) alarm⟩

/-- A module is imported by its dotted name twice, the second time under another name. -/
def importedTwice : Environment where
  workspace := .ofFiles [("m.py", ⟨.empty, .tree ⟨some ⟨0, 29⟩,
      [.line [.importModules [⟨[⟨0, "a", some ⟨7, 8⟩⟩, ⟨1, "b", some ⟨9, 10⟩⟩], none⟩]],
        .line [.importModules [⟨[⟨2, "a", some ⟨18, 19⟩⟩, ⟨3, "b", some ⟨20, 21⟩⟩], some ⟨4, "c", some ⟨25, 26⟩⟩⟩]],
        .line [.expr (.name ⟨5, "a", some ⟨27, 28⟩⟩)]], by decide, by decide⟩⟩)] [] none
  settings := default

instance (s : Session) (qname : String) : Decidable (s.Misses qname) := inferInstanceAs (Decidable (_ ∧ _))

def Session.overlooksFirst (s : Session) (x : ScopeId) : Bool :=
  (s.library.registered.get? "a.b").isSome && decide (s.Misses "a") && x != moduleTable &&
    ((s.heap.scope x).local? "c").isSome && ((s.heap.scope x).local? "a").isNone &&
    s.problems.reported.any fun d => d.kind == .unboundVariable && d.start == 27

/-- The session in which the module is registered and then imported twice. -/
def Session.importingTwice : Session :=
  ((SessionStep.load "m.py").run.runOn importedTwice
    ((registerStub "b" "a.b" []).runOn importedTwice Session.empty).2).2

theorem importingTwice_overlooksFirst :
    Session.importingTwice.overlooksFirst ⟨Session.importingTwice.heap.scopes.size - 1⟩ = true := by decide +kernel

theorem exists_overlooksFirst : ∃ s x, Session.empty.Becomes s ∧ s.overlooksFirst x = true :=
  ⟨_, _, .step (.register .refl importedTwice "b" "a.b" []) importedTwice (.load "m.py"), importingTwice_overlooksFirst⟩

/-- The other name is entered and its uses are not reported; the import without it is overlooked and changes nothing. Going on
with any step, vetting the imports makes no difference. -/
theorem imports_bind_names_unless_overlooked_importingTwice : ∃ (s : Session) (x : ScopeId) (a : Alias),
    Session.empty.Becomes s ∧ x ≠ moduleTable ∧ (s.heap.scope x).local? "c" ≠ none ∧
    (∀ env unit kind i, i.text = "c" → ((nameType ⟨unit, x⟩ kind i).runOn env s).2.problems = s.problems) ∧
    s.Overlooks a ∧ (∀ env ev place, (importModule ev place a).runOn env s = (.ok (), s)) ∧
    ∀ (env : Environment) (step : SessionStep) (alarm : Fault),
      (step.runBy (.vetting (.bindsImports (step.run.runOn env s).2) alarm)).runOn env s = step.run.runOn env s := by
  obtain ⟨s, x, hs, htest⟩ := exists_overlooksFirst
  obtain ⟨hheeds, _, hvetting⟩ := imports_bind_names_unless_overlooked hs
  simp only [Session.overlooksFirst, Bool.and_eq_true, Option.isSome_iff_ne_none, decide_eq_true_eq, bne_iff_ne] at htest
  obtain ⟨⟨⟨⟨⟨hregistered, hmisses⟩, hx⟩, hentry⟩, _⟩, _⟩ := htest
  have hoverlooks : s.Overlooks ⟨[⟨0, "a", none⟩, ⟨1, "b", none⟩], none⟩ := ⟨rfl, hregistered, _, rfl, hmisses⟩
  refine ⟨s, x, _, hs, hx, hentry, fun env unit kind i hi => ?_, hoverlooks, fun env ev place => ?_, hvetting⟩
  · exact hheeds.unreported env ⟨unit, x⟩ kind i hx (hi ▸ hentry)
  · exact hheeds.overlooked env ev place _ hoverlooks

/-- After a module was imported by a dotted name the first segment of this name is reported as unbound, where it was
imported. -/
theorem overlooked_import_reported : ∃ s x, Session.empty.Becomes s ∧ (s.heap.scope x).local? "a" = none ∧
    ∃ d ∈ s.problems.reported, d.kind = .unboundVariable ∧ d.start = 27 := by
  obtain ⟨s, x, hs, htest⟩ := exists_overlooksFirst
  simp only [Session.overlooksFirst, Bool.and_eq_true, List.any_eq_true, beq_iff_eq, Option.isNone_iff_eq_none] at htest
  obtain ⟨⟨_, hnone⟩, d, hd, hkind, hstart⟩ := htest
  exact ⟨s, x, hs, hnone, d, hd, hkind, hstart⟩

end Concordance
