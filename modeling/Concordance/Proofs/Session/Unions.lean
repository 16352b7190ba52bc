import Concordance.Proofs.Session.Vetting

/-!
# Members of unions in a session

A union is made of members that have been compared with each other, and then it stays as it is.
-/

namespace Concordance

open Syntax (Item)

variable {env : Environment} {D : UnitRef → Item → Prop} {b : Bool} {s s' : Session}

namespace Heap

theorem Compared.of_codes {h : Heap} (hc : h.Compared) (hs : h.IsSound) (types : h'.types = h.types)
    (codes : ∀ f, (h'.function f).code = (h.function f).code) (modules : h'.modules = h.modules) :
    h.Follows h' ∧ h'.Compared := by
  have hf : h.Follows h' := .of_codes (.of_types_eq types) codes modules
  exact ⟨hf, hf.compared hs hc types⟩

end Heap

namespace Session

/-- A session in the middle of a run that may make the definitions in `D`, and in which types have been compared. -/
structure Discerning (D : UnitRef → Item → Prop) (s : Session) : Prop where
  sound : s.IsSound
  grounded : s.Grounded
  frame : Frame D s
  compared : s.heap.Compared

theorem Grounded.follows_define (hg : s.Grounded)
    (isCode : function.code = some code) (unknown : s.definitions.functions.get? code.ref = none) :
    s.heap.Follows (s.define code function).heap := by
  have hcode : ∀ g, ((s.define code function).heap.function g).code =
      if g = ⟨s.heap.functions.size⟩ then some code else (s.heap.function g).code := by
    intro g
    rw [← isCode, ← apply_ite Function.code]
    exact congrArg Function.code (Heap.function_push g function)
  have hnone : (s.heap.function ⟨s.heap.functions.size⟩).code = none := by
    rw [Heap.function, Array.getD_eq_getD_getElem?, Array.getElem?_size]
    rfl
  have hother : ∀ g d, (s.heap.function g).code = some d → d.ref ≠ code.ref := by
    intro g d hd heq
    have hknown := hg.known g d hd
    rw [heq, unknown] at hknown
    cases hknown
  refine ⟨.of_types_eq rfl, fun f g => ?_, fun m hm => ⟨hm, rfl⟩⟩
  rw [Heap.sameFunction, Heap.sameFunction, hcode, hcode]
  by_cases hf : f = ⟨s.heap.functions.size⟩ <;> by_cases hg : g = ⟨s.heap.functions.size⟩
  · rw [if_pos hf, if_pos hg, hf, hg, hnone]
    simp
  · rw [if_pos hf, if_neg hg, hf, hnone]
    cases hd : (s.heap.function g).code with
    | none => simpa using fun heq => hg heq.symm
    | some d => simpa using iff_of_false (hother g d hd).symm fun heq => hg heq.symm
  · rw [if_neg hf, if_pos hg, hg, hnone]
    cases hd : (s.heap.function f).code with
    | none => rfl
    | some d => simpa using hother f d hd
  · rw [if_neg hf, if_neg hg]

theorem follows_leaveCall (hs : s.IsSound) (hc : s.heap.Compared) (f : FunctionId) (stack : List FunctionId)
    (yields : Option TypeId) :
    s.heap.Follows (s.leaveCall f stack yields).heap ∧ (s.leaveCall f stack yields).heap.Compared :=
  hc.of_codes hs.heap rfl (fun g => code_modify f g fun _ => rfl) rfl

theorem follows_recordCall (hs : s.IsSound) (hc : s.heap.Compared) (f : FunctionId) (stack : List FunctionId)
    (yields : Option TypeId) (key result : TypeId) :
    s.heap.Follows ((s.leaveCall f stack yields).recordCall f key result).heap ∧
      ((s.leaveCall f stack yields).recordCall f key result).heap.Compared := by
  refine hc.of_codes hs.heap rfl (fun g => ?_) rfl
  calc (((s.leaveCall f stack yields).recordCall f key result).heap.function g).code
      = ((s.leaveCall f stack yields).heap.function g).code := code_modify f g fun _ => rfl
    _ = (s.heap.function g).code := code_modify f g fun _ => rfl

theorem Change.follows (hch : Session.Change env s s') (hs : s.IsSound) (hc : s.heap.Compared) :
    s.heap.Follows s'.heap ∧ s'.heap.Compared := by
  cases hch with
  | heap h hch => exact ⟨hch.follows, hch.compared hs.heap hc⟩
  | yields f t => exact hc.of_codes hs.heap rfl (fun g => code_modify f g fun _ => rfl) rfl
  | _ => exact hc.of_codes hs.heap rfl (fun _ => rfl) rfl

namespace Discerning

theorem follows_define (hd : s'.Discerning D) (setup : Heap.Evolves s'.heap h) (isCode : function.code = some code)
    (unknown : s'.definitions.functions.get? code.ref = none) :
    s'.heap.Follows ((s'.withHeap h).define code function).heap ∧
      ((s'.withHeap h).define code function).heap.Compared := by
  obtain ⟨hf, hc⟩ := setup.compared hd.sound.heap hd.compared
  have hg : (s'.withHeap h).Grounded := hd.grounded.congr rfl rfl (fun f => setup.code f) rfl
  have hf' := hg.follows_define isCode unknown
  exact ⟨hf.trans hf', hf'.compared (setup.isSound hd.sound.heap) hc rfl⟩

section

variable (hd : s.Discerning D)
include hd

theorem enter
    (isCode : (s.heap.function f).code = some code) (setup : Heap.Evolves (s.markCalled f).heap h) :
    s.heap.Follows (((s.markCalled f).withHeap h).enterCall f).heap ∧
      (((s.markCalled f).withHeap h).enterCall f).Discerning code.Owns := by
  have hs1 := hd.sound.markCalled f
  obtain ⟨hf1, hc1⟩ : s.heap.Follows (s.markCalled f).heap ∧ (s.markCalled f).heap.Compared :=
    hd.compared.of_codes hd.sound.heap rfl (code_markCalled f) rfl
  obtain ⟨hf2, hc2⟩ := setup.compared hs1.heap hc1
  have hs2 := hs1.of_evolves setup
  obtain ⟨hf3, hc3⟩ : h.Follows (((s.markCalled f).withHeap h).enterCall f).heap ∧
      (((s.markCalled f).withHeap h).enterCall f).heap.Compared :=
    hc2.of_codes hs2.heap rfl (fun g => code_modify f g fun _ => rfl) rfl
  have hg := hd.grounded.enter setup
  refine ⟨(hf1.trans hf2).trans hf3, hs2.enterCall f, hg, ?_, hc3⟩
  exact .ofBody hg ((code_enterCall f setup f).trans isCode) (.head _)

theorem enterFile (path : String) : (s.enterFile path).Discerning fun _ _ => False :=
  ⟨hd.sound.enterFile path, hd.grounded.congr rfl rfl (fun _ => rfl) rfl, .empty, hd.compared⟩

theorem addUnit (opens : s.Opens m unit)
    (hstack : s.loading.stack = unit.path :: stack) : (s.addUnit m unit).Discerning unit.Owns :=
  ⟨hd.sound.addUnit unit opens.made, hd.grounded.addUnit opens, .ofOpened unit hstack, hd.compared⟩

theorem addClass (setup : Heap.Evolves s.heap h) (r : NodeRef) (c : ClassId) :
    s.heap.Follows h ∧ ((s.withHeap h).addClass r c).Discerning D := by
  obtain ⟨hf, hc⟩ := setup.compared hd.sound.heap hd.compared
  have hl : s.Later ((s.withHeap h).addClass r c) := (Session.Later.of_evolves setup).trans (.addClass r c)
  exact ⟨hf, (hd.sound.of_evolves setup).addClass r c, hd.grounded.congr rfl rfl (fun f => setup.code f) rfl,
    hd.frame.mono (List.Subset.refl _) (List.Subset.refl _) hl, hc⟩

theorem ofParams {code : Code} (owned : D code.unit code.item) : s.Discerning code.OwnsInParams :=
  ⟨hd.sound, hd.grounded, hd.frame.ofParams owned, hd.compared⟩

theorem after (hr : Run env D b s s') (hc : s'.heap.Compared) : s'.Discerning D :=
  ⟨hr.isSound hd.sound, (hr.grounded hd.grounded hd.frame).1, hr.frame hd.frame, hc⟩

end

end Discerning

end Session

theorem Run.follows (hr : Run env D b s s') (hd : s.Discerning D) :
    s.heap.Follows s'.heap ∧ s'.heap.Compared := by
  induction hr with
  | refl => exact ⟨.refl _, hd.compared⟩
  | change hch => exact hch.follows hd.sound hd.compared
  | trans hr _ ih ih' =>
    obtain ⟨hf, hc⟩ := ih hd
    obtain ⟨hf', hc'⟩ := ih' (hd.after hr hc)
    exact ⟨hf.trans hf', hc'⟩
  | stop _ ih => exact ih hd
  | define code function owned unknown params _ setup made ih =>
    obtain ⟨hf, hc⟩ := ih (hd.ofParams owned)
    have hspares := (params.grounded hd.grounded (hd.frame.ofParams owned)).2
    obtain ⟨hf', hc'⟩ := ((hd.ofParams owned).after params hc).follows_define setup made.code
      (hspares.unknown hd.grounded hd.frame owned unknown)
    exact ⟨hf.trans hf', hc'⟩
  | defineBroken code owned _ _ ih => exact ih (hd.ofParams owned)
  | defineClass u node c body _ _ setup _ _ ih =>
    obtain ⟨hf, hd'⟩ := hd.addClass setup ⟨u.number, node⟩ c
    obtain ⟨hf', hc'⟩ := ih hd'
    exact ⟨hf.trans hf', hc'⟩
  | mark f _ => exact hd.compared.of_codes hd.sound.heap rfl (Session.code_markCalled f) rfl
  | apply f code key result isCode _ _ setup body _ _ ih =>
    obtain ⟨hf, hd'⟩ := hd.enter isCode setup
    obtain ⟨hf', hc'⟩ := ih hd'
    obtain ⟨hf'', hc''⟩ := Session.follows_recordCall (body.isSound hd'.sound) hc' f _ _ key result
    exact ⟨(hf.trans hf').trans hf'', hc''⟩
  | applyBroken f code isCode _ _ setup body ih =>
    obtain ⟨hf, hd'⟩ := hd.enter isCode setup
    obtain ⟨hf', hc'⟩ := ih hd'
    obtain ⟨hf'', hc''⟩ := Session.follows_leaveCall (body.isSound hd'.sound) hc' f _ _
    exact ⟨(hf.trans hf').trans hf'', hc''⟩
  | load m unit _ _ parsing opens _ _ ih ih' | loadBroken m unit _ _ parsing opens _ ih ih' =>
    have hd1 := hd.enterFile unit.path
    obtain ⟨hf, hc⟩ := ih hd1
    obtain ⟨hf', hc'⟩ := ih' ((hd1.after parsing hc).addUnit opens parsing.stack)
    exact ⟨hf.trans hf', hc'⟩
  | loadFailed path _ _ _ ih => exact ih (hd.enterFile path)

theorem Session.Discerning.run (hd : s.Discerning D) (hr : Run env D b s s') : s'.Discerning D :=
  hd.after hr (hr.follows hd).2

theorem Session.Idle.discerning (hi : s.Idle) (hc : s.heap.Compared) : s.Discerning fun _ _ => False :=
  ⟨hi.sound, hi.grounded, .empty, hc⟩

theorem Move.follows (hm : Move env step b s s') (hs : s.IsSound) (hg : s.Grounded) (hc : s.heap.Compared) :
    s.heap.Follows s'.heap ∧ s'.heap.Compared := by
  induction hm with
  | run hr => exact hr.follows ⟨hs, hg, .empty, hc⟩
  | trans hm _ ih ih' =>
    obtain ⟨hf, hc'⟩ := ih hs hg hc
    obtain ⟨hf', hc''⟩ := ih' (hm.isSound hs) (hm.grounded hg) hc'
    exact ⟨hf.trans hf', hc''⟩
  | recover _ _ ih => exact ih hs hg hc
  | within path _ ih => exact ih (hs.enterFile path) (hg.congr rfl rfl (fun _ => rfl) rfl) hc
  | _ => exact hc.of_codes hs.heap rfl (fun _ => rfl) rfl

theorem Session.ofLibrary_compared {library : Table String ClassId × Heap} (hb : library.2.IsBare) :
    (Session.ofLibrary library).heap.Compared := hb.compared

theorem Reachable.compared (hs : Reachable s) : s.heap.Compared := by
  induction hs with
  | empty => exact Session.ofLibrary_compared (bindLibrary_prepares.run initial_isBare).1
  | step hs env step ih =>
    obtain ⟨_, hm⟩ := hs.moves env step
    exact (hm.follows hs.idle.sound hs.idle.grounded ih).2

def Regime.discerning (env : Environment) : Regime env where
  ready _ D s := s.Discerning D
  faults _ := True
  faults_of_cause _ _ := trivial
  params hd owned := hd.ofParams owned
  run hd hr := hd.run hr
  addClass hd r c := (hd.addClass (.refl _) r c).2
  enter hd _ isCode _ _ setup := (hd.enter isCode setup).2
  enterFile hd _ _ parsing opens := ((hd.enterFile _).run parsing).addUnit opens parsing.stack

section Members

/-- How the members of unions are told apart. -/
structure Heap.TellsApart (h : Heap) : Prop where
  /-- Merging two types gives one of them, no union, or a union whose members all differ. -/
  made : ∀ u v, h.Has u → h.Has v → ∀ ms, ((union u v).run h).2.ty ((union u v).run h).1 = .union ms →
    ((union u v).run h).1 = u ∨ ((union u v).run h).1 = v ∨
      ms.Pairwise fun a b => ((union u v).run h).2.equal a b = false
  distinct : h.Distinct

/-- Unions stay as they are, and members that were different have become equal only where a list or a dictionary that
is reached from them was widened. -/
structure Heap.KeepsMembers (h h' : Heap) : Prop where
  unions : ∀ t ms, h.ty t = .union ms → h'.ty t = .union ms
  widened : ∀ t ms, h.ty t = .union ms →
    ms.Pairwise fun a b => h'.equal a b = true → h.equal a b = true ∨ h.Widened h' a ∨ h.Widened h' b

def Verdict.distinct : Verdict := fun _ _ s _ s' =>
  s.heap.TellsApart ∧ s'.heap.TellsApart ∧ s.heap.KeepsMembers s'.heap

variable {h : Heap}

theorem Heap.IsSound.pairwise_unionOf (hs : h.IsSound) (hts : ∀ t ∈ ts, h.Has t)
    (hms : ((unionOf ts).run h).2.ty ((unionOf ts).run h).1 = .union ms) :
    ms.Pairwise fun a b => ((unionOf ts).run h).2.equal a b = false := by
  have hmem : ∀ m ∈ h.unionMembers ts, h.Has m ∧ ∀ ns, h.ty m ≠ .union ns := by
    intro m hm
    obtain ⟨t, ht, hmt⟩ := Heap.mem_unionMembers hm
    exact hs.has_of_mem_members (hts t ht) hmt
  have hpair := h.pairwise_unionMembers ts
  rw [run_unionOf] at hms ⊢
  split at hms
  · exact absurd (hs.ty_unknown.symm.trans hms) (by simp)
  · rename_i t hone
    exact absurd hms ((hmem t (hone ▸ List.mem_singleton_self t)).2 ms)
  · have hunion : ms = h.unionMembers ts := by
      have hty : ((newType (.union (h.unionMembers ts))).run h).2.ty
          ((newType (.union (h.unionMembers ts))).run h).1 = .union (h.unionMembers ts) := Heap.ty_push.trans (if_pos rfl)
      exact Ty.union.inj (hms.symm.trans hty)
    subst hunion
    refine hpair.imp_of_mem fun {a b} ha hb hne => ?_
    rw [← hne]
    exact (HoldsTypes.push _).equal hs (by simp) (hmem a ha).1 (hmem b hb).1

theorem Heap.Compared.tellsApart (hc : h.Compared) (hs : h.IsSound) : h.TellsApart where
  made u v hu hv ms hms := by
    rw [run_union] at hms ⊢
    split
    · exact .inl rfl
    · rename_i hne
      rw [if_neg hne] at hms
      split
      · exact .inr (.inl rfl)
      · rename_i hu'
        rw [if_neg hu'] at hms
        split
        · exact .inl rfl
        · rename_i hv'
          rw [if_neg hv'] at hms
          exact .inr (.inr (hs.pairwise_unionOf (by simp [hu, hv]) hms))
  distinct := hc.distinct

theorem Heap.Follows.keepsMembers (hf : h.Follows h') (hs : h.IsSound) (hc : h.Compared) : h.KeepsMembers h' where
  unions t ms hms := (hf.types.ty_eq (Heap.has_of_ty_ne (by simp [hms])) (by simp [hms, Ty.isWidenable])).trans hms
  widened _ _ hms := hf.widened_of_equal hc hs hms

theorem Regime.discerning_upholds (env : Environment) : (Regime.discerning env).Upholds .distinct where
  faults _ := trivial
  ready hd := hd
  passes _ _ D s hs hd r s' hends := by
    obtain ⟨b, hr⟩ : ∃ b, Run env D b s s' := by
      cases r with
      | error f => exact ⟨_, hends.1⟩
      | ok a => exact ⟨_, hends.1⟩
    obtain ⟨hf, hc'⟩ := hr.follows hd
    exact ⟨hd.compared.tellsApart hs.heap, hc'.tellsApart (hr.isSound hs).heap, hf.keepsMembers hs.heap hd.compared⟩

/-- The session after further steps, each in an environment of its own. -/
def Session.advance (s : Session) (steps : List (Environment × SessionStep)) : Session :=
  steps.foldl (fun s x => (x.2.run.runOn x.1 s).2) s

theorem Reachable.follows (hs : Reachable s) (steps : List (Environment × SessionStep)) :
    s.heap.Follows (s.advance steps).heap := by
  induction steps generalizing s with
  | nil => exact .refl _
  | cons x steps ih =>
    obtain ⟨_, hm⟩ := hs.moves x.1 x.2
    exact (hm.follows hs.idle.sound hs.idle.grounded hs.compared).1.trans (ih (.step hs x.1 x.2))

/-- Unions hold equal members only by widening. In a reachable session, merging two types makes no union with equal
members, and members that are equal each lead to a list or a dictionary. Further steps leave unions as they are, and
where two members have become equal, a list or dictionary that is reached from them was widened in between. All through
a step this holds between the beginning and the end of each task: vetting the tasks makes no difference. -/
theorem union_members_equal_only_by_widening (hs : Reachable s) : s.heap.TellsApart ∧
    (∀ steps, s.heap.KeepsMembers (s.advance steps).heap) ∧
      ∀ (env : Environment) (step : SessionStep) (alarm : Fault),
        (step.runBy (.vetting .distinct alarm)).runOn env s = step.run.runOn env s := by
  have hsound := hs.idle.sound.heap
  refine ⟨hs.compared.tellsApart hsound, fun steps => ?_, fun env step alarm => ?_⟩
  · exact (hs.follows steps).keepsMembers hsound hs.compared
  · refine runBy_vetting (Regime.discerning_upholds env) (I := fun s => s.heap.Compared) (fun s s' _ hi hc hm => ?_)
      (fun s hi hc => hi.discerning hc) hs.idle hs.compared step
    exact (hm.follows hi.sound hi.grounded hc).2

/-- A list of integers and an empty list are put into a union; then the empty one is widened. -/
def widenedLater : Environment where
  workspace := .ofFiles [("m.py", ⟨.empty, .tree ⟨some ⟨0, 35⟩,
    [.line [.assign [.name ⟨0, "a", some ⟨0, 1⟩⟩] (.list (some ⟨4, 7⟩) [⟨false, .integer (some ⟨5, 6⟩) "1"⟩])],
      .line [.assign [.name ⟨1, "b", some ⟨8, 9⟩⟩] (.list (some ⟨12, 14⟩) [])],
      .line [.assign [.name ⟨2, "x", some ⟨15, 16⟩⟩] (.name ⟨3, "a", some ⟨19, 20⟩⟩)],
      .line [.assign [.name ⟨4, "x", some ⟨21, 22⟩⟩] (.name ⟨5, "b", some ⟨25, 26⟩⟩)],
      .line [.assign [.subscript (some ⟨27, 31⟩) (.name ⟨6, "b", some ⟨27, 28⟩⟩) [.single (.integer (some ⟨29, 30⟩) "0")]]
        (.integer (some ⟨34, 35⟩) "1")]],
    by decide, by decide⟩⟩)] [] none
  settings := default

def Heap.bindsTwice (h : Heap) : Bool :=
  h.bindings.any fun b => match h.ty b.type with
    | .union [t, u] => h.equal t u
    | _ => false

theorem widenedLater_bindsTwice : (Session.after [(widenedLater, .load "m.py")]).heap.bindsTwice = true := by
  decide +kernel

theorem Heap.bindsTwice_iff : h.bindsTwice = true ↔
    ∃ b ∈ h.bindings, ∃ t u, h.ty b.type = .union [t, u] ∧ h.equal t u = true := by
  rw [Heap.bindsTwice, Array.any_eq_true']
  refine exists_congr fun b => and_congr_right fun _ => ?_
  split
  · rename_i t u hty
    refine ⟨fun heq => ⟨t, u, hty, heq⟩, ?_⟩
    rintro ⟨t', u', hty', heq⟩
    cases hty.symm.trans hty'
    exact heq
  · rename_i hne
    refine ⟨fun hfalse => absurd hfalse (by simp), ?_⟩
    rintro ⟨t, u, hty, _⟩
    exact absurd hty (hne t u)

/-- A union need not be free of duplicates, not even one that is the type of a binding. -/
theorem union_holds_equal_members : ∃ s, Reachable s ∧ ∃ b ∈ s.heap.bindings, ∃ t u,
    s.heap.ty b.type = .union [t, u] ∧ s.heap.equal t u = true := by
  obtain ⟨s, hs, htest⟩ := Reachable.exists_of_test (fun s => s.heap.bindsTwice) widenedLater_bindsTwice
  exact ⟨s, hs, Heap.bindsTwice_iff.1 htest⟩

theorem union_members_equal_only_by_widening_widenedLater : ∃ s, Reachable s ∧ ∃ t u,
    s.heap.equal t u = true ∧ ¬ s.heap.IsFixed t ∧ ¬ s.heap.IsFixed u := by
  obtain ⟨s, hs, htest⟩ := Reachable.exists_of_test (fun s => s.heap.bindsTwice) widenedLater_bindsTwice
  obtain ⟨b, _, t, u, hty, heq⟩ := Heap.bindsTwice_iff.1 htest
  have hpair := (union_members_equal_only_by_widening hs).1.distinct _ _ hty
  exact ⟨s, hs, t, u, heq, List.pairwise_pair.1 hpair heq⟩

end Members

end Concordance
