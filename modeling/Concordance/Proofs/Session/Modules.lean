import Concordance.Proofs.Tracking.Step
import Concordance.Session.Query

/-!
# Files are resolved once

Every file that was loaded has a module of its own, found by any spelling of its path, and none is loaded twice. To load
a file that has a module gives the module and leaves a line in the log of tracing.
-/

namespace Concordance

open Session (moduleTable)

variable {env : Environment} {s : Session}

/-- Whether an entry of tracing can be written: it is not shown, or its markup is right. -/
def Environment.canTrace (env : Environment) (text : String) : Bool :=
  !env.shownLevel.isShown .debug || (LogEntry.signed .debug text).lines?.isSome

def reuseEntry (path : String) : String := "using cached module " ++ path

namespace Session

/-- A path leads to a file that has a module and is not being loaded. A text given with the path stands for the file. -/
structure HasModule (s : Session) (env : Environment) (path : String) (isText : Bool) (q : Path) (m : ModuleId) :
    Prop where
  canonical : env.workspace.canonical path = .ok q
  readable : isText = true ∨ env.workspace.isFile (Path.ofString q.toString) = true
  free : q.toString ∉ s.loading.stack
  cached : ((moduleAt? path).runOn env s).1 = .ok (some m)

/-- No file is loaded twice, no unit is made a module twice, and a file that was loaded has the module made from it.
-/
structure ResolvesOnce (s : Session) : Prop where
  nodup : s.loading.loaded.Nodup
  once : ∀ m m' u u', s.loading.units.get? m = some u → s.loading.units.get? m' = some u' → u.number = u'.number →
    m = m'
  loaded : ∀ p ∈ s.loading.loaded, ∃ m, (s.heap.module m).file = some p ∧
    ∀ env, (moduleAt? p).runOn env s = (.ok (some m), s)
  reused : ∀ env ev path (text : Option (ByteArray × ParseOutcome)) q m, s.HasModule env path text.isSome q m →
    env.canTrace (reuseEntry q.toString) = true →
      ∃ lines, (loadFile ev path text).runOn env s = (.ok (some m), { s with log := s.log ++ lines })
  refused : ∀ env ev path (text : Option (ByteArray × ParseOutcome)) q m, s.HasModule env path text.isSome q m →
    env.canTrace (reuseEntry q.toString) = false → (loadFile ev path text).runOn env s = (.error .badMarkup, s)

end Session

def Verdict.resolvesOnce : Verdict := fun _ _ s _ s' => s.ResolvesOnce ∧ s'.ResolvesOnce

section Tracing

theorem runOn_trace_of_canTrace (ht : env.canTrace text = true) :
    ∃ lines, ∀ s, (trace text).runOn env s = (.ok (), { s with log := s.log ++ lines }) := by
  rw [Environment.canTrace, Bool.or_eq_true, Bool.not_eq_true', Option.isSome_iff_exists] at ht
  by_cases hshown : env.shownLevel.isShown .debug = true
  · rw [hshown, Bool.true_eq_false, false_or] at ht
    obtain ⟨lines, hlines⟩ := ht
    refine ⟨lines, fun s => ?_⟩
    rw [trace, log, runOn_read_bind, if_pos hshown, hlines]
    rfl
  · refine ⟨[], fun s => ?_⟩
    rw [trace, log, runOn_read_bind, if_neg hshown, List.append_nil]
    rfl

theorem runOn_trace_of_not_canTrace (ht : env.canTrace text = false) :
    (trace text).runOn env s = (.error .badMarkup, s) := by
  rw [Environment.canTrace, Bool.or_eq_false_iff, Bool.not_eq_false', Option.isSome_eq_false_iff,
    Option.isNone_iff_eq_none] at ht
  rw [trace, log, runOn_read_bind, if_pos ht.1, ht.2]
  rfl

end Tracing

namespace Session

theorem Ordered.runOn_moduleAt (ho : s.Ordered) (hq : env.workspace.canonical path = .ok q) : ((moduleAt? path).runOn env s).1 = .ok (some m) ↔ s.Announced (moduleNameOf q.toString) m := by
  have hrun : (moduleAt? path).runOn env s = (cachedModule? q.toString).runOn env s := by
    rw [moduleAt?, runOn_bind, runOn_canonicalPath, hq]
  rw [hrun]
  refine ⟨fun hm => ?_, fun hm => ?_⟩
  · cases hbound : (s.heap.scope moduleTable).bound? (moduleNameOf q.toString) with
    | none =>
      rw [runOn_cachedModule_of_not hbound] at hm
      cases hm
    | some bs =>
      obtain ⟨m', hm'⟩ := ho.announced_of_bound hbound
      rw [runOn_cachedModule_of_announced ho hm'] at hm
      cases hm
      exact hm'
  · rw [runOn_cachedModule_of_announced ho hm]

theorem Ordered.runOn_loadFile (ho : s.Ordered) (hm : s.HasModule env path text.isSome q m) (ev : Evaluator) :
    (loadFile ev path text).runOn env s =
      (do trace (reuseEntry q.toString); return some m : Analysis (Option ModuleId)).runOn env s := by
  have hannounced := (ho.runOn_moduleAt hm.canonical).1 hm.cached
  have hreadable : ¬ (!text.isSome && !env.workspace.isFile (Path.ofString q.toString)) = true := by
    rcases hm.readable with htext | hfile
    · simp [htext]
    · simp [hfile]
  -- None of the reasons to look further applies: the file can be read, is not being loaded and has a module.
  have hneed : (needFor path text.isSome).runOn env s =
      (do trace (reuseEntry q.toString); return .settled (some m) : Analysis Need).runOn env s := by
    rw [needFor, runOn_bind, runOn_canonicalPath, hm.canonical]
    dsimp only
    rw [runOn_read_bind, if_neg hreadable, runOn_get_bind, if_neg hm.free, runOn_bind,
      runOn_cachedModule_of_announced ho hannounced]
    rfl
  rw [loadFile, runOn_bind, hneed, runOn_bind, runOn_bind]
  rcases (trace (reuseEntry q.toString)).runOn env s with ⟨e | u, s'⟩
  · rfl
  · rfl

theorem Ordered.resolvesOnce (ho : s.Ordered) : s.ResolvesOnce where
  nodup := ho.filed.nodup
  once := ho.shelved.once
  loaded p hp := by
    obtain ⟨m, hm, hfile⟩ := ho.filed.known p hp
    refine ⟨m, hfile, fun env => ?_⟩
    -- The path is its own canonical form, from wherever it is seen.
    obtain ⟨q, hq, htext⟩ := ho.filed.canonical p (.inr hp) env.workspace
    rw [moduleAt?, runOn_bind, runOn_canonicalPath, hq]
    dsimp only
    rw [htext, runOn_cachedModule_of_announced ho hm]
  reused env ev path text q m hm ht := by
    obtain ⟨lines, hlines⟩ := runOn_trace_of_canTrace ht
    refine ⟨lines, ?_⟩
    rw [ho.runOn_loadFile hm ev, runOn_bind, hlines]
    rfl
  refused env ev path text q m hm ht := by
    rw [ho.runOn_loadFile hm ev, runOn_bind, runOn_trace_of_not_canTrace ht]

end Session

/-- Files are resolved once. In every session that steps lead to, each in an environment of its own and ending well or
not, no file was loaded twice, every loaded file has the module made from it, and what has a module is not resolved
again. During a further step this holds before and after every task: vetting them makes no difference. -/
theorem files_resolve_once (hs : Reachable s) : s.ResolvesOnce ∧
    ∀ (env : Environment) (step : SessionStep) (alarm : Fault),
      (step.runBy (.vetting .resolvesOnce alarm)).runOn env s = step.run.runOn env s := by
  refine ⟨hs.ordered.resolvesOnce, fun env step alarm => ?_⟩
  have hholds : ∀ final, Verdict.resolvesOnce.Holds final :=
    fun _ _ _ _ _ _ _ ho ho' _ _ => ⟨ho.resolvesOnce, ho'.resolvesOnce⟩
  have htracks : Tracks env (step.run.runOn env s).2 s step.run (step.runBy (.vetting .resolvesOnce alarm)) :=
    step_tracks (hholds _) alarm step
  obtain ⟨_, _, heq⟩ := htracks.run s (.refl s) hs.ordered
  exact heq (.refl _)

theorem circularImports_loaded :
    (Session.after [({ workspace := circularImports, settings := default }, .load "./a.py")]).loading.loaded =
      ["/w/b.py", "/w/a.py"] := by decide +kernel

theorem files_resolve_once_circularImports : ∃ s, Reachable s ∧ s.loading.loaded = ["/w/b.py", "/w/a.py"] ∧
    s.ResolvesOnce :=
  ⟨_, .after _, circularImports_loaded, (files_resolve_once (.after _)).1⟩

/-- Two files of the same qualified name, with brackets in their paths that are right as markup in one of them only;
tracing is shown. -/
def bracketed : Environment where
  workspace := .ofFiles [("[a.b][/a.b].py", ⟨.empty, .tree ⟨some ⟨0, 0⟩, [], by decide, by decide⟩⟩),
    ("[a.b][/a%20b].py", ⟨.empty, .tree ⟨some ⟨0, 0⟩, [], by decide, by decide⟩⟩)] [] none
  settings := default
  shownLevel := .debug

def Session.refusesBracketed (s : Session) : Bool :=
  match ((moduleAt? "[a.b][/a%20b].py").runOn bracketed s).1, ((load "[a.b][/a%20b].py").runOn bracketed s).1 with
  | .ok (some _), .error .badMarkup => s.loading.stack.isEmpty
  | _, _ => false

/-- A file that exists, has a module and is not being loaded may not give its module: after the first file has been
loaded, the second one has its module, by its name, but the entry about it cannot be written. -/
theorem reuse_fails : bracketed.workspace.isFile (Path.ofString "/w/[a.b][/a%20b].py") = true ∧
    (Session.after [(bracketed, .load "[a.b][/a.b].py")]).refusesBracketed = true := by decide +kernel

end Concordance
