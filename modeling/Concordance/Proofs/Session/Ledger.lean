import Concordance.Session.Query
import Concordance.Proofs.Session.Empty
import Concordance.Proofs.Session.Settle

/-!
# The functions that wait

A function waits to be applied from its definition until it is first applied; then its body is evaluated, so that
afterwards it has a result for some types of arguments.
-/

namespace Concordance

variable {h : Heap}

theorem Heap.sameCalls_modify (f g : FunctionId) (change : Function → Function)
    (hc : ∀ x : Function, x.SameCalls (change x)) :
    (h.function g).SameCalls (Heap.function { h with functions := h.functions.modify f.index change } g) := by
  rw [Heap.function_modify]
  split
  · exact hc _
  · exact .refl _

theorem Heap.withArrow_ne_nil (h : Heap) (key result : TypeId) (arrows : List (TypeId × TypeId)) :
    h.withArrow key result arrows ≠ [] := by
  cases arrows with
  | nil => simp [Heap.withArrow]
  | cons a rest =>
    rw [Heap.withArrow]
    split <;> simp

namespace Session

/-- A function waits exactly if it has not been applied; one that has been applied has a result or is being
applied. -/
def Accounts (s : Session) (f : FunctionId) : Prop :=
  (f ∈ s.uncalled ↔ (s.heap.function f).called = false) ∧
    ((s.heap.function f).called = true → (s.heap.function f).arrows ≠ [] ∨ f ∈ s.callStack)

instance (s : Session) (f : FunctionId) : Decidable (s.Accounts f) := inferInstanceAs (Decidable (_ ∧ _))

def Ledger (s : Session) : Prop := ∀ f ∈ s.functions, s.Accounts f

instance (s : Session) : Decidable s.Ledger := inferInstanceAs (Decidable (∀ f ∈ _, _))

/-- A function that has code and is accounted for. -/
structure Keeps (s : Session) (f : FunctionId) : Prop where
  code : ∃ c, (s.heap.function f).code = some c
  native : (s.heap.function f).native = none
  accounts : s.Accounts f

/-- All functions of definitions have code and are accounted for. -/
def Books (s : Session) : Prop := ∀ f ∈ s.functions, s.Keeps f

theorem Books.ledger {s : Session} (hb : s.Books) : s.Ledger := fun f hf => (hb f hf).accounts

variable {s s' : Session} {f : FunctionId}

theorem Keeps.congr (hk : s.Keeps g) (same : (s.heap.function g).SameCalls (s'.heap.function g))
    (uncalled : g ∈ s'.uncalled ↔ g ∈ s.uncalled) (stack : g ∈ s.callStack → g ∈ s'.callStack) : s'.Keeps g := by
  refine ⟨same.code ▸ hk.code, same.native.trans hk.native, ?_⟩
  unfold Accounts
  rw [same.called, same.arrows, uncalled]
  exact ⟨hk.accounts.1, fun h => (hk.accounts.2 h).imp_right stack⟩

theorem Keeps.of_called (hk : s.Keeps g) (code : (s'.heap.function g).code = (s.heap.function g).code)
    (native : (s'.heap.function g).native = (s.heap.function g).native)
    (called : (s'.heap.function g).called = true) (uncalled : g ∉ s'.uncalled)
    (settled : (s'.heap.function g).arrows ≠ [] ∨ g ∈ s'.callStack) : s'.Keeps g := by
  refine ⟨code ▸ hk.code, native.trans hk.native, ?_⟩
  unfold Accounts
  rw [called]
  exact ⟨by simp [uncalled], fun _ => settled⟩

theorem Keeps.lt (hk : s.Keeps f) : f.index < s.heap.functions.size := hk.code.elim fun _ hc => Heap.lt_of_code hc

theorem Keeps.of_evolves (hk : s.Keeps g) (he : Heap.Evolves s.heap h) : (s.withHeap h).Keeps g :=
  hk.congr (he.sameCalls g) Iff.rfl id

theorem function_markCalled_self (hf : f.index < s.heap.functions.size) :
    (s.markCalled f).heap.function f = { s.heap.function f with called := true } :=
  (Heap.function_modify f f _).trans (if_pos ⟨rfl, hf⟩)

theorem function_markCalled_of_ne (hne : g ≠ f) : (s.markCalled f).heap.function g = s.heap.function g :=
  (Heap.function_modify f g _).trans (if_neg fun h => hne h.1)

theorem mem_uncalled_markCalled : g ∈ (s.markCalled f).uncalled ↔ g ∈ s.uncalled ∧ g ≠ f := by
  simp [Session.markCalled]

theorem Keeps.markCalled (hk : s.Keeps g) (hf : s.Settled f) : (s.markCalled f).Keeps g := by
  by_cases heq : g = f
  · subst heq
    have hfun := function_markCalled_self hk.lt
    refine hk.of_called (by rw [hfun]) (by rw [hfun]) (by rw [hfun]) (by simp [mem_uncalled_markCalled]) ?_
    -- A function of a definition is not native and has a body, so that is or was evaluated.
    rcases hf with hnative | hcode | hstack | harrows
    · exact absurd hk.native hnative
    · obtain ⟨c, hc⟩ := hk.code
      cases hcode.symm.trans hc
    · exact .inr hstack
    · exact .inl (by rwa [hfun])
  · refine hk.congr ?_ ?_ id
    · rw [function_markCalled_of_ne heq]
      exact .refl _
    · simp [mem_uncalled_markCalled, heq]

theorem Keeps.enter (hk : s.Keeps g) (he : Heap.Evolves (s.markCalled f).heap h) :
    (((s.markCalled f).withHeap h).enterCall f).Keeps g := by
  -- Apart from the mark, the application changes only what the function has yielded.
  have hsame : ((s.markCalled f).heap.function g).SameCalls
      ((((s.markCalled f).withHeap h).enterCall f).heap.function g) := by
    have h1 := he.sameCalls g
    have h2 := Heap.sameCalls_modify (h := h) f g (fun x => { x with yields := none }) fun _ => ⟨rfl, rfl, rfl, rfl⟩
    exact ⟨h2.code.trans h1.code, h2.native.trans h1.native, h2.called.trans h1.called, h2.arrows.trans h1.arrows⟩
  by_cases heq : g = f
  · subst heq
    have hfun := function_markCalled_self hk.lt
    refine hk.of_called ?_ ?_ ?_ ?_ (.inr (.head _))
    · rw [hsame.code, hfun]
    · rw [hsame.native, hfun]
    · rw [hsame.called, hfun]
    · exact fun h => (mem_uncalled_markCalled.1 h).2 rfl
  · rw [function_markCalled_of_ne heq] at hsame
    refine hk.congr hsame ?_ (List.mem_cons_of_mem _)
    exact mem_uncalled_markCalled.trans (by simp [heq])

theorem Keeps.leave (hk : s.Keeps g) (hstack : s.callStack = f :: stack)
    (yields : Option TypeId) (key result : TypeId) : ((s.leaveCall f stack yields).recordCall f key result).Keeps g := by
  obtain ⟨s1, hs1⟩ : ∃ s1, s1 = s.leaveCall f stack yields := ⟨_, rfl⟩
  have hleave : (s.heap.function g).SameCalls (s1.heap.function g) :=
    hs1 ▸ Heap.sameCalls_modify f g _ fun _ => ⟨rfl, rfl, rfl, rfl⟩
  have huncalled : s1.uncalled = s.uncalled := hs1 ▸ rfl
  have hrecord : (s1.recordCall f key result).heap.function g =
      if g = f ∧ f.index < s1.heap.functions.size then
        { s1.heap.function g with arrows := s1.heap.withArrow key result (s1.heap.function g).arrows }
      else s1.heap.function g := Heap.function_modify f g _
  rw [← hs1]
  by_cases heq : g = f
  · have hlt : f.index < s1.heap.functions.size := by
      obtain ⟨c, hc⟩ := hk.code
      exact heq ▸ Heap.lt_of_code (hleave.code.trans hc)
    rw [if_pos ⟨heq, hlt⟩] at hrecord
    -- The function leaves the stack, but it has a result now.
    refine ⟨?_, ?_, ?_, ?_⟩
    · rw [hrecord, hleave.code]
      exact hk.code
    · rw [hrecord, hleave.native]
      exact hk.native
    · show g ∈ s1.uncalled ↔ _
      rw [hrecord, hleave.called, huncalled]
      exact hk.accounts.1
    · rw [hrecord]
      exact fun _ => .inl (s1.heap.withArrow_ne_nil key result _)
  · rw [if_neg fun h => heq h.1] at hrecord
    -- The other functions stay where they are.
    refine hk.congr ?_ ?_ fun hg => ?_
    · rw [hrecord]
      exact hleave
    · show g ∈ s1.uncalled ↔ _
      rw [huncalled]
    · rw [hstack] at hg
      show g ∈ s1.callStack
      rw [hs1]
      exact (List.mem_cons.1 hg).resolve_left heq

section

variable (hb : s.Books)
include hb

theorem Books.of_evolves (he : Heap.Evolves s.heap h) : (s.withHeap h).Books :=
  fun g hg => (hb g hg).of_evolves he

theorem Books.addClass (r : NodeRef) (c : ClassId) : (s.addClass r c).Books :=
  fun g hg => (hb g hg).congr (.refl _) Iff.rfl id

theorem Books.enterFile (path : String) : (s.enterFile path).Books :=
  fun g hg => (hb g hg).congr (.refl _) Iff.rfl id

theorem Books.addUnit (m : ModuleId) (unit : SourceUnit) : (s.addUnit m unit).Books :=
  fun g hg => (hb g hg).congr (.refl _) Iff.rfl id

theorem Books.addLoaded (path : String) : (s.addLoaded path).Books :=
  fun g hg => (hb g hg).congr (.refl _) Iff.rfl id

theorem Books.leaveFile (before : Loading) : (s.leaveFile before).Books :=
  fun g hg => (hb g hg).congr (.refl _) Iff.rfl id

theorem Books.define (isCode : function.code = some code)
    (uncalled : function.called = false) (native : function.native = none) : (s.define code function).Books := by
  intro g hg
  have hfun : (s.define code function).heap.function g =
      if g = ⟨s.heap.functions.size⟩ then function else s.heap.function g := Heap.function_push g function
  have hmem : g ∈ (s.define code function).uncalled ↔ g = ⟨s.heap.functions.size⟩ ∨ g ∈ s.uncalled := by
    simp only [Session.define]
    split
    · rename_i hin
      exact ⟨.inr, fun h => h.elim (fun heq => heq ▸ hin) id⟩
    · rw [List.mem_append, List.mem_singleton, or_comm]
  by_cases heq : g = ⟨s.heap.functions.size⟩
  · rw [if_pos heq] at hfun
    refine ⟨⟨code, by rw [hfun, isCode]⟩, by rw [hfun, native], ?_, ?_⟩
    · rw [hmem, hfun, uncalled]
      simp [heq]
    · rw [hfun, uncalled]
      simp
  · rw [if_neg heq] at hfun
    have hk := hb g ((Table.mem_values_insert hg).resolve_left heq)
    refine hk.congr (hfun ▸ .refl _) ?_ id
    rw [hmem]
    simp [heq]

end

end Session

theorem Session.Change.books (hc : Session.Change env s s') (hb : s.Books) : s'.Books := by
  intro g hg
  rw [Session.functions, hc.functions] at hg
  have hk := hb g hg
  cases hc with
  | heap h hc => exact hk.of_evolves (.single hc)
  | yields f t => exact hk.congr (Heap.sameCalls_modify f g _ fun _ => ⟨rfl, rfl, rfl, rfl⟩) Iff.rfl id
  | _ => exact hk.congr (.refl _) Iff.rfl id

theorem Run.books (hr : Run env D b s s') (hcomplete : b = true) (hb : s.Books) : s'.Books := by
  induction hr with
  | refl => exact hb
  | change hc => exact hc.books hb
  | trans _ _ ih ih' => exact ih' hcomplete (ih rfl hb)
  | stop | defineBroken | applyBroken | loadBroken => cases hcomplete
  | define code function _ _ _ _ setup made ih =>
    exact ((ih rfl hb).of_evolves setup).define made.code made.called made.native
  | defineClass u node c body _ _ setup _ _ ih => exact ih hcomplete ((hb.of_evolves setup).addClass _ c)
  | mark f settled => exact fun g hg => (hb g hg).markCalled settled
  | apply f code key result isCode native outside setup body covered computed ih =>
    intro g hg
    exact (ih rfl (fun g hg => (hb g hg).enter setup) g hg).leave body.callStack _ key result
  | load m unit _ _ _ _ _ _ ih ih' =>
    exact ((ih' rfl ((ih rfl (hb.enterFile unit.path)).addUnit m unit)).addLoaded unit.path).leaveFile _
  | loadFailed path _ _ _ ih => exact (ih hcomplete (hb.enterFile path)).leaveFile _

theorem Move.books (hm : Move env step b s s')
    (unharmed : env.injection = none) (hcomplete : b = true) (hb : s.Books) : s'.Books := by
  induction hm with
  | run hr => exact hr.books hcomplete hb
  | trans _ _ ih ih' => exact ih' hcomplete (ih rfl hb)
  | recover short => cases unharmed.symm.trans short
  | within path _ ih => exact (ih hcomplete (hb.enterFile path)).leaveFile _
  | _ => exact fun g hg => (hb g hg).congr (.refl _) Iff.rfl id

end Concordance
