import Concordance.Proofs.Session.Vetting
import Concordance.Proofs.Session.Directory

/-!
# Failures to parse

A file that has no tree is remembered as such once, but each failure leaves a diagnostic of its own: nothing keeps a
failure in mind, so that every further request for the file goes to the parser again.
-/

namespace Concordance

/-- The diagnostic of a failure to parse. -/
def ParseFailure.diagnostic (f : ParseFailure) : Diagnostic := ⟨f.path, 0, 0, .parseError, f.describe, .error⟩

/-- The files of failures, each at its first one, after those that are known. -/
def failedFiles (known : List String) (fs : List ParseFailure) : List String :=
  fs.foldl (fun known f => if f.path ∈ known then known else known ++ [f.path]) known

theorem failedFiles_append (known : List String) (fs gs : List ParseFailure) :
    failedFiles known (fs ++ gs) = failedFiles (failedFiles known fs) gs := List.foldl_append

/-- What the given failures add to a session. -/
structure Session.Fails (fs : List ParseFailure) (s s' : Session) : Prop where
  reported : s'.parseProblems.reported = s.parseProblems.reported ++ fs.map ParseFailure.diagnostic
  failed : s'.loading.failed = failedFiles s.loading.failed fs

namespace Session.Fails

variable {s s' : Session}

theorem none (problems : s'.parseProblems = s.parseProblems) (failed : s'.loading.failed = s.loading.failed) :
    Fails [] s s' := ⟨by simp [problems], failed⟩

theorem trans (hf : Fails fs s s') (hg : Fails gs s' s'') : Fails (fs ++ gs) s s'' where
  reported := by rw [hg.reported, hf.reported, List.map_append, List.append_assoc]
  failed := by rw [hg.failed, hf.failed, failedFiles_append]

end Session.Fails

section History

theorem Session.Change.fails (hc : Session.Change env s s') : ∃ fs, Session.Fails fs s s' := by
  cases hc with
  | parseFailure f => exact ⟨[f], rfl, rfl⟩
  | _ => exact ⟨[], .none rfl rfl⟩

theorem Run.fails (hr : Run env D b s s') : ∃ fs, Session.Fails fs s s' := by
  induction hr with
  | refl | mark => exact ⟨[], .none rfl rfl⟩
  | change hc => exact hc.fails
  | stop _ ih | defineBroken _ _ _ _ ih => exact ih
  | trans _ _ ih ih' | load _ _ _ _ _ _ _ _ ih ih' | loadBroken _ _ _ _ _ _ _ ih ih' =>
    obtain ⟨fs, hfs⟩ := ih
    obtain ⟨gs, hgs⟩ := ih'
    have hboth := hfs.trans ⟨hgs.reported, hgs.failed⟩
    exact ⟨fs ++ gs, hboth.reported, hboth.failed⟩
  | define _ _ _ _ _ _ _ _ ih | defineClass _ _ _ _ _ _ _ _ _ ih | apply _ _ _ _ _ _ _ _ _ _ _ ih
  | applyBroken _ _ _ _ _ _ _ ih | loadFailed _ _ _ _ ih =>
    obtain ⟨fs, hfs⟩ := ih
    exact ⟨fs, hfs.reported, hfs.failed⟩

theorem Move.fails (hm : Move env step b s s') : ∃ fs, Session.Fails fs s s' := by
  induction hm with
  | run hr => exact hr.fails
  | trans _ _ ih ih' =>
    obtain ⟨fs, hfs⟩ := ih
    obtain ⟨gs, hgs⟩ := ih'
    exact ⟨fs ++ gs, hfs.trans hgs⟩
  | recover _ _ ih => exact ih
  | within _ _ ih =>
    obtain ⟨fs, hfs⟩ := ih
    exact ⟨fs, hfs.reported, hfs.failed⟩
  | _ => exact ⟨[], .none rfl rfl⟩

end History

section Requests

variable {env : Environment} {s : Session} {path p : String} {f : ParseFailure}

/-- A request for a file goes to the parser, and the parser rejects the file. -/
structure Session.Requested (env : Environment) (s : Session) (path p : String) (f : ParseFailure) : Prop where
  names : env.Names path p
  readable : env.workspace.isFile (Path.ofString p) = true
  out : p ∉ s.loading.stack
  unknown : (s.heap.scope Session.moduleTable).bound? (moduleNameOf p) = none
  uncached : s.loading.cache.units.get? p = none
  rejected : env.Rejects p f

theorem runOn_log_cases (env : Environment) (s : Session) (level : Level) (text : String) :
    (∃ lines, (log level text).runOn env s = (.ok (), { s with log := lines })) ∨
      (log level text).runOn env s = (.error .badMarkup, s) := by
  rw [log, runOn_read_bind]
  split
  · split
    · exact .inl ⟨_, rfl⟩
    · exact .inr rfl
  · exact .inl ⟨s.log, rfl⟩

/-- Work that ends without a result only because an entry of the log is not well-formed. -/
def Writes {α : Type} (env : Environment) (s : Session) (x : Analysis α) (Q : α → Session → Prop) : Prop :=
  (∃ s', x.runOn env s = (.error .badMarkup, s')) ∨ ∃ a s', x.runOn env s = (.ok a, s') ∧ Q a s'

namespace Writes

variable {α : Type}

theorem pure (h : Q a s) : Writes env s (Pure.pure a) Q := .inr ⟨a, s, rfl, h⟩

theorem bind (hx : Writes env s x Q) (hg : ∀ a s', Q a s' → Writes env s' (g a) Q') : Writes env s (x >>= g) Q' := by
  rcases hx with ⟨s', hrun⟩ | ⟨a, s', hrun, hq⟩
  · exact .inl ⟨s', by rw [runOn_bind, hrun]⟩
  · unfold Writes
    rw [runOn_bind, hrun]
    exact hg a s' hq

theorem mono (hx : Writes env s x Q) (h : ∀ a s', Q a s' → Q' a s') : Writes env s x Q' :=
  hx.imp_right fun ⟨a, s', hrun, hq⟩ => ⟨a, s', hrun, h a s' hq⟩

theorem log (level : Level) (text : String) : Writes env s (Concordance.log level text) fun _ s' =>
    ∃ lines, s' = { s with log := lines } := by
  rcases runOn_log_cases env s level text with ⟨lines, hrun⟩ | hrun
  · exact .inr ⟨(), _, hrun, lines, rfl⟩
  · exact .inl ⟨s, hrun⟩

end Writes

section Reading

variable (uncached : s.loading.cache.units.get? p = none) (rejected : env.Rejects p f)
include uncached rejected

theorem exists_read_of_rejects : ∃ c : UnitCache, c.units.get? p = none ∧
    (UnitCache.read env.shortage env.workspace p).run.run s.loading.cache = (.ok (.error f), c) := by
  have halike := UnitCache.read_alike env uncached
  have hreads := UnitCache.read_reads env.shortage env.workspace p s.loading.cache
  rw [rejected] at halike
  generalize (UnitCache.read env.shortage env.workspace p).run.run s.loading.cache = x at halike hreads ⊢
  cases hreads with
  | failed g =>
    cases halike
    exact ⟨_, uncached, rfl⟩
  | short g _ =>
    cases halike
    exact ⟨_, rfl, rfl⟩
  | _ => cases halike

theorem parseSource_writes : Writes env s (parseSource p none) fun parsed s' =>
    parsed = .error f ∧ ∃ c lines, c.units.get? p = none ∧ s' = { s with log := lines, loading.cache := c } := by
  obtain ⟨c, hc, hread⟩ := exists_read_of_rejects uncached rejected
  have hrun : (parseSource p none).runOn env s =
      (parsingResult (.ok (.error f))).runOn env { s with loading.cache := c } := by
    rw [parseSource, runOn_read_bind]
    dsimp only
    rw [runOn_parsing, hread]
  unfold Writes
  rw [hrun]
  show Writes env _ _ _
  rw [parsingResult]
  split
  · refine (Writes.log _ _).bind ?_
    rintro _ _ ⟨lines, rfl⟩
    exact .pure ⟨rfl, c, lines, hc, rfl⟩
  · exact .pure ⟨rfl, c, s.log, hc, rfl⟩

end Reading

theorem recordParseFailure_writes (f : ParseFailure) : Writes env s (recordParseFailure f) fun _ s' =>
    s.Fails [f] s' ∧ s'.heap = s.heap ∧ s'.loading.cache = s.loading.cache := by
  unfold Writes
  rw [recordParseFailure, runOn_bind]
  refine (Writes.log _ _).mono ?_
  rintro _ _ ⟨lines, rfl⟩
  exact ⟨⟨rfl, rfl⟩, rfl, rfl⟩

namespace Session.Requested

section

variable (h : s.Requested env path p f)
include h

theorem of_eq {s' : Session} (heap : s'.heap = s.heap)
    (stack : s'.loading.stack = s.loading.stack) (uncached : s'.loading.cache.units.get? p = none) :
    s'.Requested env path p f :=
  ⟨h.names, h.readable, stack ▸ h.out, heap ▸ h.unknown, uncached, h.rejected⟩

theorem runOn_needFor : (needFor path false).runOn env s = (.ok (.load p), s) := by
  obtain ⟨q, hq, rfl⟩ := h.names
  rw [needFor, runOn_bind, runOn_canonicalPath, hq]
  dsimp only
  rw [runOn_read_bind, if_neg (by simp [h.readable]), runOn_get_bind, if_neg h.out, runOn_bind,
    runOn_cachedModule_of_not h.unknown]
  rfl

/-- A request for a file that the parser rejects adds its diagnostic, whether it is there already or not. -/
theorem loadFile (ev : Evaluator) : Writes env s (loadFile ev path) fun m s' =>
    m = none ∧ s.Fails [f] s' ∧ s'.Requested env path p f := by
  have hload : (Concordance.loadFile ev path).runOn env s =
      (withFile p do loadParsed ev p (← parseSource p none)).runOn env s := by
    rw [Concordance.loadFile, Option.isSome_none, runOn_bind, h.runOn_needFor]
  -- The file is on top of those being loaded while it is parsed, and the request still holds of the others.
  have hwork : Writes env (s.enterFile p) (do trace ("loading " ++ p); loadParsed ev p (← parseSource p none))
      fun m s' => m = none ∧ s.Fails [f] (s'.leaveFile s.loading) ∧ (s'.leaveFile s.loading).Requested env path p f := by
    refine (Writes.log _ _).bind ?_
    rintro _ _ ⟨lines, rfl⟩
    refine (parseSource_writes (by exact h.uncached) h.rejected).bind ?_
    rintro _ _ ⟨rfl, c, lines', hc, rfl⟩
    refine (recordParseFailure_writes f).bind ?_
    rintro _ s' ⟨hfails, hheap, hcache⟩
    refine .pure ⟨rfl, ⟨hfails.reported, hfails.failed⟩, h.of_eq hheap rfl ?_⟩
    show s'.loading.cache.units.get? p = none
    rw [hcache]
    exact hc
  unfold Writes
  rw [hload, runOn_withFile]
  rcases hwork with ⟨s', hrun⟩ | ⟨m, s', hrun, hq⟩
  · exact .inl ⟨_, by rw [hrun]⟩
  · exact .inr ⟨m, _, by rw [hrun], hq⟩

end

end Session.Requested

end Requests

end Concordance
