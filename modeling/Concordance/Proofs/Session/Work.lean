import Concordance.Proofs.Session.Agree

/-!
# Work on a session

What the work that inference is put together from does, apart from what is left to evaluators: uses of names are
recorded or reported, names are bound, problems are noted.
-/

namespace Concordance

open Syntax (Item)

variable {env : Environment} {R : Regime env} {s : Session}

namespace Regime

theorem allows_of_ne (hf : R.faults f) (hr : ∀ r, f ≠ .exhausted r) : R.Allows f :=
  ⟨hf, fun r h => absurd h (hr r)⟩

theorem allows_of_cause (hf : env.Causes f) : R.Allows f := by
  refine ⟨R.faults_of_cause f hf, ?_⟩
  rintro r rfl
  cases hf with
  | exhausted short => exact short

end Regime

theorem log_agrees (wrong : env.shownLevel.isShown level = true →
      (LogEntry.signed level text).lines? = none → R.faults .badMarkup) :
    Agrees R n D s (log level text) (log level text) fun _ s' => ∃ lines, s' = { s with log := lines } := by
  refine .read_bind ?_
  split
  · rename_i hshown
    split
    · exact .change (.log _) ⟨_, rfl⟩
    · rename_i hlines
      exact .throw (R.allows_of_ne (wrong hshown hlines) (by simp))
  · exact .pure ⟨s.log, rfl⟩

theorem trace_agrees (text : String) :
    Agrees R n D s (trace text) (trace text) fun _ s' => ∃ lines, s' = { s with log := lines } :=
  log_agrees fun shown wrong => R.faults_of_cause _ (.trace shown wrong)

theorem countLookup_agrees (found : Bool) :
    Agrees R n D s (countLookup found) (countLookup found) fun _ _ => True := .change (.statistics _) trivial

section References

def Session.RefersAt (s : Session) (r : ReferenceId) (l : Location) : Prop :=
  ∃ q, s.heap.references[r.index]? = some q ∧ q.file = some l.file ∧ q.start = l.start

theorem referenceAt_agrees {q : Reference} (hfile : q.file = some l.file) (hstart : q.start = l.start) :
    Agrees R n D s (referenceAt q) (referenceAt q) fun r s' => s'.RefersAt r l := by
  refine .theHeap_bind ?_
  split
  · rename_i i hi
    obtain ⟨hlt, hsame, _⟩ := Array.findIdx?_eq_some_iff_getElem.1 hi
    simp only [Reference.samePlace, Bool.and_eq_true, beq_iff_eq] at hsame
    exact .pure ⟨s.heap.references[i], Array.getElem?_eq_getElem hlt, hsame.2 ▸ hfile, hsame.1 ▸ hstart⟩
  · rename_i hnone
    have hfresh : ∀ p ∈ s.heap.references, q.samePlace p = false := by simpa using hnone
    exact ⟨fun _ _ => ⟨rfl, .change (.newSite q hfresh), q, Array.getElem?_push_size, hfile, hstart⟩⟩

theorem Session.recorded_link (hs : s.IsSound) (b : BindingId) (hr : s.RefersAt r l) : (s.link r b).Recorded l := by
  obtain ⟨q, hq, hfile, hstart⟩ := hr
  have hlt : r.index < s.links.size := hs.mirrored.aligned ▸ (Array.getElem?_eq_some_iff.1 hq).1
  have hlinks : (s.link r b).links[r.index]? =
      some (if b ∈ s.links[r.index] then s.links[r.index] else s.links[r.index] ++ [b]) := by
    refine Array.getElem?_modify.trans ?_
    rw [if_pos rfl, Array.getElem?_eq_getElem hlt]
    rfl
  exact ⟨r.index, q, _, hq, hlinks, hfile, hstart, List.ne_nil_of_mem (mem_addOnce.2 (.inr rfl))⟩

theorem link_agrees (hb : s.heap.HasBinding b) (hr : s.RefersAt r l) : Agrees R n D s (do
        modify fun s => { s with links := s.links.modify r.index fun bs => if b ∈ bs then bs else bs ++ [b] }
        addReference b r) (do
        modify fun s => { s with links := s.links.modify r.index fun bs => if b ∈ bs then bs else bs ++ [b] }
        addReference b r) fun _ s' => s'.Recorded l := by
  refine ⟨fun hs _ => ⟨rfl, ?_⟩⟩
  have hlt : r.index < s.heap.references.size := by
    obtain ⟨q, hq, _⟩ := hr
    exact (Array.getElem?_eq_some_iff.1 hq).1
  have hrun : (do
      modify fun s => { s with links := s.links.modify r.index fun bs => if b ∈ bs then bs else bs ++ [b] }
      addReference b r : Analysis Unit).runOn env s = (.ok (), s.link r b) := by
    show (Except.ok ((addReference b r).run s.heap).1, Session.withHeap _ ((addReference b r).run s.heap).2) = _
    rw [hs.mirrored.addReference_run b hlt]
    rfl
  rw [hrun]
  exact ⟨.change (.link r b hlt hb), s.recorded_link hs b hr⟩

theorem recordUse_agrees (site : Site) (kind : RefKind) (hbs : ∀ b ∈ bindings, s.heap.HasBinding b) :
    Agrees R n D s (recordUse site bindings kind) (recordUse site bindings kind)
      fun _ s' => bindings ≠ [] → ∀ l, site.location = some l → s'.Recorded l := by
  unfold recordUse
  split
  · rename_i hloc
    exact .pure fun _ l hl => by simp [hloc] at hl
  · rename_i l hloc
    refine .bind (referenceAt_agrees (l := l) rfl rfl) fun r s' hl hr => ?_
    refine (Agrees.forM_did (P := fun _ s => s.Recorded l) bindings (fun _ _ _ hl h => hl.recorded h) ?_).mono ?_
    · intro b hb s'' hl'
      refine link_agrees (hl'.hasBinding (hl.hasBinding (hbs b hb))) ?_
      obtain ⟨q, hq, hrest⟩ := hr
      exact ⟨q, hl'.references _ _ hq, hrest⟩
    · intro _ s'' _ hall hne l' hl'
      obtain ⟨b, hb⟩ := List.exists_mem_of_ne_nil _ hne
      rw [hloc, Option.some.injEq] at hl'
      exact hl' ▸ hall b hb

end References

section Names

theorem Site.introduce_keeps (site : Site) (b : Binding) :
    (site.introduce b).type = b.type ∧ (site.introduce b).refs = b.refs := by
  unfold Site.introduce
  dsimp only
  split
  · exact ⟨rfl, rfl⟩
  · split
    · exact ⟨rfl, rfl⟩
    · split <;> exact ⟨rfl, rfl⟩

theorem bindIn_agrees (ht : s.heap.IsValue t) :
    Agrees R n D s (bindIn scope name site t kind) (bindIn scope name site t kind) fun _ _ => True := by
  refine .bind (.lift (insertName_does ht ?_)) fun ⟨b, existed⟩ s' _ hb => ?_
  · intro b
    cases site with
    | none => exact ⟨rfl, rfl⟩
    | some site => exact site.introduce_keeps b
  dsimp only
  split
  · split
    · refine .theHeap_bind ?_
      split
      · exact .bind (recordUse_agrees _ _ (by simpa using hb)) fun _ _ _ _ => .pure trivial
      · exact .pure trivial
    · exact .pure trivial
  · exact .pure trivial

theorem setAttr_agrees (hv : s.heap.IsValue v) :
    Agrees R n D s (setAttr t name site v) (setAttr t name site v) fun _ _ => True := by
  refine .theHeap_bind ?_
  split
  · exact .pure trivial
  · exact .bind (Q := fun _ _ => True) ((bindIn_agrees hv).discard fun _ _ _ h => h) fun _ _ _ _ => .pure trivial

end Names

section Problems

theorem reportAt_agrees (file : String) (start stop : Int) (kind : ProblemKind) (message : String)
    (severity : Severity) :
    Agrees R n D s (reportAt file start stop kind message severity)
      (reportAt file start stop kind message severity) fun _ s' => (∃ problems, s' = { s with problems }) ∧
        ∃ d ∈ s'.problems.reported, d.file = file ∧ d.start = start ∧ d.stop = stop ∧ d.kind = kind := by
  refine ⟨fun _ _ => ⟨rfl, ?_⟩⟩
  show Run env D true s _ ∧ _
  dsimp only [reportAt]
  split
  · rename_i hany
    obtain ⟨d, hd, hsame⟩ := List.any_eq_true.1 hany
    simp only [Diagnostic.sameProblem, Bool.and_eq_true, beq_iff_eq] at hsame
    obtain ⟨⟨⟨⟨hstart, hstop⟩, hkind⟩, hfile⟩, _⟩ := hsame
    exact ⟨.refl, ⟨s.problems, rfl⟩, d, hd, hfile.symm, hstart.symm, hstop.symm, hkind.symm⟩
  · exact ⟨.change (.problem _), ⟨_, rfl⟩, _, List.mem_append_right _ (List.mem_singleton.2 rfl), rfl, rfl, rfl, rfl⟩

theorem report_agrees (location : Option Location) (kind : ProblemKind) (message : String) :
    Agrees R n D s (report location kind message) (report location kind message) fun _ s' =>
      kind = .unboundVariable → ∀ l, location = some l → s'.ReportedUnbound l := by
  unfold report
  split
  · exact (trace_agrees _).mono fun _ _ _ _ _ l hl => nomatch hl
  · rename_i l
    refine (reportAt_agrees ..).mono fun _ s' _ ⟨_, d, hd, hfile, hstart, hstop, hkind⟩ hunbound l' hl' => ?_
    cases hl'
    exact ⟨d, hd, hfile, hstart, hstop, hkind.trans hunbound⟩

end Problems

end Concordance
