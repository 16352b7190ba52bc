import Concordance.Proofs.Session.CrossReference

/-!
# The registry of bindings

Bindings are never taken back. A binding keeps its name and its place, and what refers to it; a reference keeps the
bindings it is linked to.
-/

namespace Concordance

variable {b : BindingId} {env : Environment}

namespace Heap

/-- One step in the life of bindings. -/
inductive Advances (h : Heap) : Heap → Prop
  | grow {h' : Heap} (later : Extends h h')
      (same : ∀ b, h.HasBinding b → h'.HasBinding b ∧ (h'.binding b).type = (h.binding b).type) : Advances h h'
  /-- One binding gets another type, which keeps what is known; nothing else changes. -/
  | retype (sound : h.IsSound) (b : BindingId) (type : TypeId) (keeps : h.Keeps (h.binding b).type type) :
      Advances h { h with bindings := h.bindings.modify b.index fun x => { x with type } }

variable {h h' : Heap}

theorem Advances.of_eq (types : h'.types = h.types) (bindings : h'.bindings = h.bindings) : Advances h h' :=
  .grow (.of_types_eq types) fun b hb => by
    rw [HasBinding, Heap.binding, Heap.binding, bindings]
    exact ⟨hb, rfl⟩

theorem Change.advances (hc : Change h h') (hs : h.IsSound) : Advances h h' := by
  have hl := hc.toExtends
  cases hc with
  | retype b type value keeps => exact .retype hs b type keeps
  | newBinding x value unused =>
    refine .grow hl fun b hb => ⟨?_, ?_⟩
    · exact Nat.lt_of_lt_of_eq (Nat.lt_succ_of_lt hb) (Array.size_push ..).symm
    · rw [Heap.binding, getD_push, if_neg (Nat.ne_of_lt hb)]
      rfl
  | markStatic c =>
    refine .grow hl fun b hb => ⟨?_, ?_⟩
    · exact Nat.lt_of_lt_of_eq hb (Array.size_modify ..).symm
    · rw [Heap.binding, getD_modify]
      split <;> rfl
  | _ => exact .grow hl fun b hb => ⟨hb, rfl⟩

theorem Evolves.advances (he : Evolves h h') (hs : h.IsSound) : Relation.ReflTransGen Advances h h' := by
  induction he with
  | refl => exact .refl
  | tail he hc ih => exact ih.tail (hc.advances (Evolves.isSound he hs))

theorem IsSound.known_of_keeps (hs : h.IsSound) (hk : h.Keeps u w) (hu : h.ty u ≠ .unknown) : h.ty w ≠ .unknown := by
  obtain ⟨m, hm⟩ := List.exists_mem_of_ne_nil _ (hs.members_ne_nil u)
  have hknown := hs.known_of_mem_members hu hm
  obtain ⟨m', hm', heq⟩ := hk m hm hknown
  intro hw
  rw [members_of_not_union fun ms => by simp [hw], List.mem_singleton] at hm'
  exact known_of_equal heq hknown (hm' ▸ hw)

theorem Advances.known (ha : Advances h h') (hb : h.HasBinding b)
    (hk : h.ty (h.binding b).type ≠ .unknown) : h'.HasBinding b ∧ h'.ty (h'.binding b).type ≠ .unknown := by
  cases ha with
  | grow later same =>
    obtain ⟨hb', htype⟩ := same b hb
    rw [htype]
    exact ⟨hb', later.known (has_of_ty_ne hk) hk⟩
  | retype sound c type keeps =>
    refine ⟨Nat.lt_of_lt_of_eq hb (Array.size_modify ..).symm, ?_⟩
    rw [Heap.binding, getD_modify]
    split
    · rename_i heq
      have hcb : c = b := congrArg BindingId.mk heq.1.symm
      exact sound.known_of_keeps (hcb ▸ keeps) hk
    · exact hk

end Heap

open Heap (Advances)

theorem Session.Change.advances (hc : Change env s s') (hs : s.IsSound) : Advances s.heap s'.heap := by
  cases hc with
  | heap h hc => exact hc.advances hs.heap
  | link r b =>
    refine .grow (.of_types_eq rfl) fun c hb => ⟨Nat.lt_of_lt_of_eq hb (Array.size_modify ..).symm, ?_⟩
    show ((s.heap.bindings.modify b.index _).getD c.index default).type = _
    rw [getD_modify]
    split <;> rfl
  | _ => exact .of_eq rfl rfl

theorem Session.IsSound.advances_enterCall {s : Session} (hs : s.IsSound) (f : FunctionId)
    (setup : Heap.Evolves (s.markCalled f).heap h) :
    Relation.ReflTransGen Advances s.heap (((s.markCalled f).withHeap h).enterCall f).heap := by
  have hmark : Advances s.heap (s.markCalled f).heap := .of_eq rfl rfl
  have henter : Advances h (((s.markCalled f).withHeap h).enterCall f).heap := .of_eq rfl rfl
  exact ((Relation.ReflTransGen.single hmark).trans (setup.advances (hs.markCalled f).heap)).tail henter

theorem Run.advances {b : Bool}
    (hr : Run env D b s s') (hs : s.IsSound) : Relation.ReflTransGen Advances s.heap s'.heap := by
  induction hr with
  | refl => exact .refl
  | change hc => exact .single (hc.advances hs)
  | trans hr _ ih ih' => exact (ih hs).trans (ih' (hr.isSound hs))
  | stop _ ih => exact ih hs
  | define code function _ _ params _ setup _ ih =>
    exact ((ih hs).trans (setup.advances (params.isSound hs).heap)).tail (.of_eq rfl rfl)
  | defineBroken _ _ _ _ ih => exact ih hs
  | defineClass u node c body _ _ setup _ _ ih =>
    exact (setup.advances hs.heap).trans (ih ((hs.of_evolves setup).addClass _ c))
  | mark f _ => exact .single (.of_eq rfl rfl)
  | apply f _ key result _ _ _ setup _ _ _ ih =>
    have hbody := ih (((hs.markCalled f).of_evolves setup).enterCall f)
    exact (((hs.advances_enterCall f setup).trans hbody).tail (.of_eq rfl rfl)).tail (.of_eq rfl rfl)
  | applyBroken f _ _ _ _ setup _ ih =>
    have hbody := ih (((hs.markCalled f).of_evolves setup).enterCall f)
    exact ((hs.advances_enterCall f setup).trans hbody).tail (.of_eq rfl rfl)
  -- Units and the stack of files are not part of the heap.
  | load m unit _ _ parsing opens _ _ ih ih' | loadBroken m unit _ _ parsing opens _ ih ih' =>
    have hentered := hs.enterFile unit.path
    exact (ih hentered).trans (ih' ((parsing.isSound hentered).addUnit unit opens.made))
  | loadFailed path _ _ _ ih => exact ih (hs.enterFile path)

/-- What is never taken back of bindings and references. -/
structure Session.Retains (s s' : Session) : Prop where
  bindings : ∀ (i : Nat) x, s.heap.bindings[i]? = some x →
    ∃ x', s'.heap.bindings[i]? = some x' ∧ Heap.SameOrigin x x' ∧ x.refs ⊆ x'.refs
  links : ∀ (i : Nat) bs, s.links[i]? = some bs → ∃ bs', s'.links[i]? = some bs' ∧ bs ⊆ bs'
  advances : Relation.ReflTransGen Advances s.heap s'.heap

namespace Session.Retains

variable {s s' : Session}

theorem of_eq (types : s'.heap.types = s.heap.types) (bindings : s'.heap.bindings = s.heap.bindings)
    (links : s'.links = s.links) : s.Retains s' :=
  ⟨fun _ x hx => ⟨x, bindings ▸ hx, .refl x, List.Subset.refl _⟩, fun _ bs hbs => ⟨bs, links ▸ hbs, List.Subset.refl _⟩,
    .single (.of_eq types bindings)⟩

theorem trans (hr : s.Retains s') (hr' : s'.Retains s'') : s.Retains s'' where
  bindings i x hx := by
    obtain ⟨x', hx', hsame, hsub⟩ := hr.bindings i x hx
    obtain ⟨x'', hx'', hsame', hsub'⟩ := hr'.bindings i x' hx'
    exact ⟨x'', hx'', hsame.trans hsame', List.Subset.trans hsub hsub'⟩
  links i bs hbs := by
    obtain ⟨bs', hbs', hsub⟩ := hr.links i bs hbs
    obtain ⟨bs'', hbs'', hsub'⟩ := hr'.links i bs' hbs'
    exact ⟨bs'', hbs'', List.Subset.trans hsub hsub'⟩
  advances := hr.advances.trans hr'.advances

theorem binding (hr : s.Retains s') (hb : s.heap.HasBinding b) : s'.heap.HasBinding b ∧
    Heap.SameOrigin (s.heap.binding b) (s'.heap.binding b) ∧ (s.heap.binding b).refs ⊆ (s'.heap.binding b).refs := by
  obtain ⟨x', hx', hsame, hsub⟩ := hr.bindings b.index _ (Array.getElem?_eq_getElem hb)
  have hold : s.heap.binding b = s.heap.bindings[b.index] := by
    rw [Heap.binding, Array.getD_eq_getD_getElem?, Array.getElem?_eq_getElem hb, Option.getD_some]
  have hnew : s'.heap.binding b = x' := by
    rw [Heap.binding, Array.getD_eq_getD_getElem?, hx', Option.getD_some]
  rw [hold, hnew]
  exact ⟨(Array.getElem?_eq_some_iff.1 hx').1, hsame, hsub⟩

theorem linked (hr : s.Retains s') (r : ReferenceId) : s.linked r ⊆ s'.linked r := by
  intro b hb
  rw [Session.linked, Array.getD_eq_getD_getElem?] at hb ⊢
  cases hlinks : s.links[r.index]? with
  | none =>
    rw [hlinks] at hb
    cases hb
  | some bs =>
    obtain ⟨bs', hbs', hsub⟩ := hr.links r.index bs hlinks
    rw [hlinks] at hb
    rw [hbs']
    exact hsub hb

end Session.Retains

theorem Move.retains {b : Bool} (hm : Move env step b s s') (hs : s.IsSound) : s.Retains s' := by
  induction hm with
  | run hr => exact ⟨hr.later.bindings, hr.later.links, hr.advances hs⟩
  | trans hm _ ih ih' => exact (ih hs).trans (ih' (hm.isSound hs))
  | recover _ _ ih => exact ih hs
  | within path _ ih =>
    have hrest := ih (hs.enterFile path)
    exact ⟨hrest.bindings, hrest.links, hrest.advances⟩
  | _ => exact .of_eq rfl rfl rfl

/-- A session leads to another one by further steps, whether they end well or in a fault. -/
inductive Session.LeadsTo (s : Session) : Session → Prop
  | refl : LeadsTo s s
  | step {s' : Session} (hl : s.LeadsTo s') (env : Environment) (step : SessionStep) :
      LeadsTo s (step.run.runOn env s').2

section Steps

variable {s : Session}

theorem Session.LeadsTo.reachable (hl : s.LeadsTo s') (hs : Reachable s) : Reachable s' := by
  induction hl with
  | refl => exact hs
  | step _ env step ih => exact ih.step env step

theorem Session.LeadsTo.retains (hl : s.LeadsTo s') (hs : Reachable s) : s.Retains s' := by
  induction hl with
  | refl => exact .of_eq rfl rfl rfl
  | step hl env step ih =>
    have hs' := hl.reachable hs
    obtain ⟨_, hm⟩ := hs'.moves env step
    exact ih.trans (hm.retains hs'.idle.sound)

end Steps

section Unknown

end Unknown

end Concordance
