import Concordance.Proofs.Heap.Attribute
import Concordance.Proofs.Session.CrossReference
import Concordance.Proofs.Tracking.Step

/-!
# What attributes are linked to

Attributes are recorded in the scopes of classes, objects and modules only. When one is read, its owner may also be a
function: what is then found is a parameter or local variable of the function.
-/

namespace Concordance

section Heaps

namespace Heap

variable {h : Heap} {s x : ScopeId} {owner : TypeId} {name : String} {bs : List BindingId}

/-- What an owner has as an attribute: it is in the scope of a class, an object or a module, or else a variable of the
function that the owner is. -/
inductive Offers (h : Heap) (owner : TypeId) (name : String) (bs : List BindingId) : Prop
  | inNamespace {s x : ScopeId} (table : h.attrTable? owner = some s) (inherits : h.Inherits x s)
      (takes : (h.scope x).kind.takesAttributes = true) (bound : (h.scope x).bound? name = some bs)
  | inFunction {f : FunctionId} {r : Option TypeId} (function : h.ty owner = .function f r)
      (kind : (h.scope (h.function f).table).kind = .function)
      (bound : (h.scope (h.function f).table).bound? name = some bs)

/-- Attributes are read where they are recorded, except that those of a function are read in its own scope, where none are
recorded. -/
structure ReadsAttributes (h : Heap) : Prop where
  offers : ∀ owner name bs, h.attrOf owner name = some bs → h.Offers owner name bs
  recorded : ∀ owner, (∀ f r, h.ty owner ≠ .function f r) → h.attrTable? owner = h.tableOf? owner
  functions : ∀ owner f r, h.ty owner = .function f r → h.attrTable? owner = none ∧
    ∀ name, h.attrOf owner name = (h.scope (h.function f).table).bound? name

theorem exists_of_lookupAttr (hb : h.lookupAttr s name = some bs) :
    ∃ x, h.Inherits x s ∧ (h.scope x).bound? name = some bs := by
  obtain ⟨order, hp⟩ := h.exists_preorder [] [s]
  have hfound : order.findSome? (fun x => (h.scope x).bound? name) = some bs :=
    (hp.attrFrom name (Nat.lt_succ_self _)).symm.trans hb
  obtain ⟨x, hx, hbound⟩ := List.exists_of_findSome?_eq_some hfound
  exact ⟨x, hp.mem_iff.1 hx, hbound⟩

theorem lookupAttr_of_supers (hs : (h.scope s).supers = []) (name : String) :
    h.lookupAttr s name = (h.scope s).bound? name := by
  have hp : h.Preorder [] [s] [s] := .visit List.not_mem_nil (by rw [hs]; exact .done) .done
  have hfound : h.lookupAttr s name = _ := hp.attrFrom name (Nat.lt_succ_self _)
  simpa using hfound

theorem Furnished.inherits (hf : h.Furnished) (hi : h.Inherits x s) : x = s ∨ (h.scope x).kind = .classBody := by
  induction hi with
  | self => exact .inl rfl
  | super mem _ ih =>
    rcases ih with rfl | hk
    · exact .inr (hf.supers _ _ mem).2
    · exact .inr hk

theorem Furnished.supers_of_function (hf : h.Furnished) (hs : (h.scope s).kind = .function) : (h.scope s).supers = [] := by
  refine List.eq_nil_iff_forall_not_mem.2 fun y hy => ?_
  rcases (hf.supers s y hy).1 with hk | hk <;> cases hs.symm.trans hk

theorem Apart.takesAttributes (ha : h.Apart) (hno : ∀ f r, h.ty owner ≠ .function f r) (hs : h.tableOf? owner = some s) :
    (h.scope s).kind.takesAttributes = true := by
  have hground := ha.furnished.types owner
  rw [tableOf?] at hs
  split at hs
  · exact absurd ‹_› (hno _ _)
  · rename_i c hty
    rw [hty] at hground
    rw [← Option.some.inj hs, (ha.furnished.classes c hground).1]
    rfl
  · rename_i c table hty
    rw [hty] at hground
    rw [← Option.some.inj hs, show (h.scope table).kind = .object from hground]
    rfl
  · rename_i m hty
    rw [hty] at hground
    rw [← Option.some.inj hs, (ha.housed.rooms m hground).2.1]
    rfl
  · cases hs

theorem Apart.attrTable (ha : h.Apart) (hno : ∀ f r, h.ty owner ≠ .function f r) :
    h.attrTable? owner = h.tableOf? owner := by
  rw [attrTable?]
  cases htable : h.tableOf? owner with
  | none => rfl
  | some s => rw [Option.filter_some, if_pos (ha.takesAttributes hno htable)]

theorem Apart.readsAttributes (ha : h.Apart) : h.ReadsAttributes := by
  have hfunctions : ∀ owner f r, h.ty owner = .function f r → (h.scope (h.function f).table).kind = .function := by
    intro owner f r hty
    have hground := ha.furnished.types owner
    rw [hty] at hground
    exact ha.furnished.functions f hground
  have hown : ∀ owner f r, h.ty owner = .function f r → ∀ name,
      h.attrOf owner name = (h.scope (h.function f).table).bound? name := by
    intro owner f r hty name
    rw [attrOf, tableOf?, hty]
    exact lookupAttr_of_supers (ha.furnished.supers_of_function (hfunctions owner f r hty)) name
  refine ⟨fun owner name bs hb => ?_, fun owner hno => ha.attrTable hno, fun owner f r hty => ⟨?_, hown owner f r hty⟩⟩
  · by_cases hfunction : ∃ f r, h.ty owner = .function f r
    · obtain ⟨f, r, hty⟩ := hfunction
      exact .inFunction hty (hfunctions owner f r hty) ((hown owner f r hty name).symm.trans hb)
    have hno : ∀ f r, h.ty owner ≠ .function f r := fun f r hty => hfunction ⟨f, r, hty⟩
    cases htable : h.tableOf? owner with
    | none =>
      rw [attrOf, htable] at hb
      cases hb
    | some s =>
      rw [attrOf, htable] at hb
      obtain ⟨x, hx, hbound⟩ := exists_of_lookupAttr hb
      refine .inNamespace ((ha.attrTable hno).trans htable) hx ?_ hbound
      rcases ha.furnished.inherits hx with rfl | hk
      · exact ha.takesAttributes hno htable
      · rw [hk]
        rfl
  · rw [attrTable?, tableOf?, hty, Option.filter_some, hfunctions owner f r hty]
    rfl

end Heap

end Heaps

section Linking

variable (allowed : Heap → TypeId → String → List BindingId → Prop) (alarm : Fault)

open Classical in
/-- Merges an attribute of one owner into the values so far, but ends with a fault if the name would be linked to bindings
that it may not be linked to. -/
noncomputable def linkOwner (ev : Evaluator) (site : Site) (kind : RefKind) (soFar owner : TypeId) : Analysis TypeId := do
  let h ← theHeap
  if ∀ bs, h.attrOf owner site.name = some bs → allowed h owner site.name bs then addOwner ev site kind soFar owner
  else throw alarm

/-- The type of an attribute, when all that its name is linked to is looked at. -/
noncomputable def linkAttribute (ev : Evaluator) (place : Place) (kind : RefKind) (value : Syntax.Expr) (i : Syntax.Ident) :
    Analysis TypeId := do
  let owner ← ev.expr place value
  ((← theHeap).members owner).foldlM (linkOwner allowed alarm ev (place.site i) kind) .unknown

/-- Does a task like `perform`, but looks at all that the name of an attribute is linked to. -/
noncomputable def performLinking (ev : Evaluator) {α : Type} : Task α → Analysis α
  | .expr place (.attr _ value i) => linkAttribute allowed alarm ev place .ref value i
  | .expr place (.call _ (.attr _ value i) args) => do
    let function ← linkAttribute allowed alarm ev place .call value i
    call ev function (← args.foldlM (addArgument ev place) {})
  | task => perform ev task

/-- Does a task like `evaluate`, but looks at all that names of attributes are linked to. -/
noncomputable def evaluateLinking : Nat → {α : Type} → Task α → Analysis α
  | 0, _, _ => throw .outOfFuel
  | fuel + 1, _, task => performLinking allowed alarm ⟨fun t => evaluateLinking fuel t⟩ task

noncomputable def Evaluator.linking (fuel : Nat) : Evaluator := ⟨fun t => evaluateLinking allowed alarm fuel t⟩

noncomputable def Means.linking : Means := ⟨.linking allowed alarm, id⟩

variable {s : Session} {allowed alarm}
  (hallowed : ∀ s : Session, s.Ordered → ∀ owner name bs, s.heap.attrOf owner name = some bs → allowed s.heap owner name bs)
include hallowed

theorem linkOwner_tracks (minds : Minds env final ev ev') (site : Site) (kind : RefKind) (soFar owner : TypeId) :
    Tracks env final s (addOwner ev site kind soFar owner) (linkOwner allowed alarm ev' site kind soFar owner) := by
  refine ⟨fun s1 hs1 ho => ?_⟩
  have hlink : (linkOwner allowed alarm ev' site kind soFar owner).runOn env s1 =
      (addOwner ev' site kind soFar owner).runOn env s1 := by
    rw [linkOwner, runOn_theHeap_bind, if_pos (hallowed s1 ho owner site.name)]
  rw [hlink]
  exact (addOwner_tracks minds ..).run s1 hs1 ho

theorem linkAttribute_tracks (minds : Minds env final ev ev')
    (hv : s.Due place (.expr value)) (kind : RefKind) (i : Syntax.Ident) :
    Tracks env final s (attributeType ev place kind value i) (linkAttribute allowed alarm ev' place kind value i) := by
  refine (minds.expr hv).bind fun owner => .theHeap_bind fun h _ => ?_
  exact .foldlM _ fun _ _ _ => linkOwner_tracks hallowed minds ..

theorem performLinking_tracks (minds : Minds env final ev ev') (task : Task α)
    (ht : s.Due task.place task.piece) (hs : task.Sourced s) :
    Tracks env final s (perform ev task) (performLinking allowed alarm ev' task) := by
  unfold performLinking
  split
  · exact linkAttribute_tracks hallowed minds (ht.part (.head _)) ..
  · rename_i place span aspan value i args
    have hcallee : s.Due place (.expr (.attr aspan value i)) := ht.part (.head _)
    refine (linkAttribute_tracks hallowed minds (hcallee.part (.head _)) ..).bind fun function => ?_
    refine .bind (.foldlM args fun acc a ha => addArgument_tracks minds (ht.part ?_) acc) fun _ => call_tracks minds ..
    exact Syntax.Part.mem_exprs.2 (.tail _ (List.mem_map.2 ⟨a, ha, rfl⟩))
  · exact perform_tracks minds task ht hs

theorem Minds.linking (fuel : Nat) : Minds env final (.withFuel fuel) (.linking allowed alarm fuel) := by
  induction fuel with
  | zero => exact ⟨fun _ _ _ _ => .throw⟩
  | succ fuel ih => exact ⟨fun task _ ht hs => performLinking_tracks hallowed ih task ht hs⟩

theorem Reachable.runOn_linking (hr : Reachable s) (env : Environment) (step : SessionStep) :
    (step.runBy (.linking allowed alarm)).runOn env s = step.run.runOn env s := by
  have hm : ∀ fuel, Minds env (step.run.runOn env s).2 (Means.plain.evaluator fuel)
      ((Means.linking allowed alarm).evaluator fuel) := fun fuel => .linking hallowed fuel
  have htracks := runBy_tracks (s := s) hm rfl step
  obtain ⟨_, _, heq⟩ := htracks.run s (.refl s) hr.ordered
  rw [SessionStep.runBy_plain] at heq
  exact heq (.refl _)

end Linking

/-- In a reachable session attributes are read in scopes of classes, objects and modules, where alone they are recorded,
unless they are read from a function: what is found there is in the scope of the function. All through a step, no name of an
attribute is linked to anything else: looking at what each is linked to makes no difference. -/
theorem attributes_linked_in_namespaces {s : Session} (hs : Reachable s) : s.heap.ReadsAttributes ∧
    ∀ (env : Environment) (step : SessionStep) (alarm : Fault),
      (step.runBy (.linking Heap.Offers alarm)).runOn env s = step.run.runOn env s :=
  ⟨hs.ordered.apart.readsAttributes,
    fun env step _ => hs.runOn_linking (fun _ ho => ho.apart.readsAttributes.offers) env step⟩

/-- A class that inherits an attribute and a function with a parameter, which is applied. -/
def readFromBoth : Environment where
  workspace := .ofFiles [("m.py", ⟨.empty, .tree ⟨some ⟨0, 65⟩,
      [.classDef (some ⟨0, 15⟩) 0 ⟨1, "A", some ⟨6, 7⟩⟩ [] []
          [.line [.assign [.name ⟨2, "y", some ⟨10, 11⟩⟩] (.integer (some ⟨14, 15⟩) "1")]] [],
        .classDef (some ⟨16, 32⟩) 3 ⟨4, "B", some ⟨22, 23⟩⟩ [.name ⟨5, "A", some ⟨24, 25⟩⟩] [] [.line [.pass]] [],
        .functionDef (some ⟨33, 51⟩) 6 ⟨7, "f", some ⟨37, 38⟩⟩
          ⟨[], [⟨⟨8, "x", some ⟨39, 40⟩⟩, none, none⟩], none, [], none⟩
          [.line [.giveBack (some (.name ⟨9, "x", some ⟨50, 51⟩⟩))]] [],
        .line [.expr (.call (some ⟨52, 56⟩) (.name ⟨10, "f", some ⟨52, 53⟩⟩) [.positional (.integer (some ⟨54, 55⟩) "1")])],
        .line [.expr (.attr (some ⟨57, 60⟩) (.name ⟨11, "f", some ⟨57, 58⟩⟩) ⟨12, "x", some ⟨59, 60⟩⟩)],
        .line [.expr (.attr (some ⟨61, 64⟩) (.name ⟨13, "B", some ⟨61, 62⟩⟩) ⟨14, "y", some ⟨63, 64⟩⟩)]],
      by decide, by decide⟩⟩)] [] none
  settings := default

def Heap.inheritsAttr (h : Heap) (name : String) (t : TypeId) : Bool :=
  (h.attrOf t name).isSome && (h.attrTable? t).any fun x => ((h.scope x).bound? name).isNone

def Heap.readsOnly (h : Heap) (name : String) (t : TypeId) : Bool :=
  (h.attrOf t name).isSome && (h.attrTable? t).isNone

def Session.linksParameter (s : Session) (r : ReferenceId) : Bool :=
  let x := s.heap.scope ⟨s.heap.scopes.size - 1⟩
  x.kind == .function && (s.linked r).any fun b =>
    (s.heap.binding b).kind == .parameter && x.bound? (s.heap.reference r).name == some [b]

def Session.readsBothWays (s : Session) : Bool :=
  (s.heap.reference ⟨4⟩).start == 59 && s.linksParameter ⟨4⟩ &&
    (List.range s.heap.types.size).any (fun i => s.heap.inheritsAttr "y" ⟨i⟩) &&
    (List.range s.heap.types.size).any fun i => s.heap.readsOnly "x" ⟨i⟩

theorem readFromBoth_session : (Session.after [(readFromBoth, .load "m.py")]).readsBothWays = true := by decide +kernel

theorem attributes_linked_in_namespaces_readFromBoth : ∃ s, Reachable s ∧
    (∃ owner own x bs, s.heap.attrOf owner "y" = some bs ∧ s.heap.attrTable? owner = some own ∧ x ≠ own ∧
      s.heap.Inherits x own ∧ (s.heap.scope x).kind.takesAttributes = true ∧ (s.heap.scope x).bound? "y" = some bs) ∧
    ∃ owner f r bs, s.heap.attrOf owner "x" = some bs ∧ s.heap.ty owner = .function f r ∧
      s.heap.attrTable? owner = none ∧ (s.heap.scope (s.heap.function f).table).bound? "x" = some bs := by
  obtain ⟨s, hs, htest⟩ := Reachable.exists_of_test Session.readsBothWays readFromBoth_session
  have hreads := (attributes_linked_in_namespaces hs).1
  simp only [Session.readsBothWays, Bool.and_eq_true, List.any_eq_true] at htest
  obtain ⟨⟨_, i, _, hinherits⟩, j, _, hreadsOnly⟩ := htest
  simp only [Heap.inheritsAttr, Heap.readsOnly, Bool.and_eq_true, Option.isSome_iff_exists, Option.isNone_iff_eq_none,
    Option.any_eq_true] at hinherits hreadsOnly
  obtain ⟨⟨bs, hbs⟩, own, hown, hfree⟩ := hinherits
  obtain ⟨⟨bs', hbs'⟩, hnone⟩ := hreadsOnly
  refine ⟨s, hs, ?_, ?_⟩
  · cases hreads.offers _ _ _ hbs with
    | inNamespace table inherits takes bound =>
      rename_i x
      cases hown.symm.trans table
      refine ⟨_, own, x, bs, hbs, hown, ?_, inherits, takes, bound⟩
      rintro rfl
      cases hfree.symm.trans bound
    | inFunction function => cases hown.symm.trans (hreads.functions _ _ _ function).1
  · cases hreads.offers _ _ _ hbs' with
    | inNamespace table => cases hnone.symm.trans table
    | inFunction function _ bound => exact ⟨_, _, _, bs', hbs', function, hnone, bound⟩

/-- The name of an attribute that is read from a function refers to a parameter of the function. -/
theorem attribute_of_function_linked_to_parameter : ∃ s, Reachable s ∧ ∃ r b x, (s.heap.reference r).start = 59 ∧
    b ∈ s.linked r ∧ (s.heap.binding b).kind = .parameter ∧ (s.heap.scope x).kind = .function ∧
    (s.heap.scope x).bound? (s.heap.reference r).name = some [b] := by
  obtain ⟨s, hs, htest⟩ := Reachable.exists_of_test Session.readsBothWays readFromBoth_session
  simp only [Session.readsBothWays, Session.linksParameter, Bool.and_eq_true, List.any_eq_true, beq_iff_eq] at htest
  obtain ⟨⟨⟨hstart, hkind, b, hb, hparameter, hbound⟩, _⟩, _⟩ := htest
  exact ⟨s, hs, ⟨4⟩, b, _, hstart, hb, hparameter, hkind, hbound⟩

end Concordance
