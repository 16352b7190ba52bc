import Concordance.Proofs.Session.Step
import Concordance.Proofs.Session.Sweep

/-!
# How steps settle

With means that suffice, every step of a session ends as it would with any more, and moves the session on.
-/

namespace Concordance

variable {env : Environment} {F : Fault → Prop}

section Paths

variable (hI : Invariant env I) (hF : ∀ f, env.Causes f → F f) (hrequest : ∀ f, f.OfRequest → F f)
include hI hF hrequest

theorem addPath_settles (path : String) :
    Settles env step I F s (addPath path) (fun _ => addPath path) fun _ _ => True := by
  have hpath : ∀ f, env.workspace.canonical path = .error f → F f :=
    fun f hf => hrequest f (Fault.ofRequest_of_canonical hf)
  refine (Settles.still hF (canonicalPath_agrees (Regime.still_takes hpath))).bind hI fun canonical s1 _ _ => ?_
  refine (Settles.still hF (Q := fun _ _ => True) ?_).bind hI fun _ s2 _ _ => .change ?_ trivial
  · refine .read_bind ?_
    split
    · exact .pure trivial
    · split
      · exact .throw ((Regime.still env F).allows_of_ne (.inr (hrequest _ ⟨by simp, by simp⟩)) (by simp))
      · exact (trace_agrees _).mono fun _ _ _ _ => trivial
  · dsimp only
    split
    · exact .refl s2
    · rename_i hnew
      exact .searchPath _ (.inr ⟨canonical, hnew, rfl⟩)

theorem startSession_settles (starting : step = .start) : Settles env step I F s startSession (fun _ => startSession) fun _ _ => True := by
  refine .read_bind ?_
  have hset : Settles env step I F s (setPath env.settings.searchPaths) (fun _ => setPath env.settings.searchPaths)
      fun _ _ => True := by
    refine (Settles.change (Q := fun _ _ => True) (.searchPath [] (.inl ⟨starting, rfl⟩)) trivial).bind hI fun _ s1 _ _ => ?_
    exact .forM hI fun path _ s2 => addPath_settles hI hF hrequest path
  refine hset.bind hI fun _ s1 _ _ => ?_
  split
  · exact .forM hI fun path _ s2 => addPath_settles hI hF hrequest path
  · exact .pure trivial

omit hI in
theorem probe_settles (test : Node → Bool) (p : Path) :
    Settles env step I F s (probe test p) (fun _ => probe test p) fun _ _ => True := by
  refine .still hF (.read_bind ?_)
  unfold Workspace.probe
  split
  · exact .pure trivial
  · rename_i f hf
    have hlong : f = .nameTooLong := by
      split at hf <;> cases hf
      rfl
    subst hlong
    exact .throw ((Regime.still env F).allows_of_ne (.inr (hrequest _ ⟨by simp, by simp⟩)) (by simp))

theorem addRoot_settles (root : Path) : Settles env step I F s (addRoot root) (fun _ => addRoot root) fun _ _ => True := by
  refine (addPath_settles hI hF hrequest root.toString).bind hI fun _ s1 _ _ => .read_bind ?_
  split
  · exact addPath_settles hI hF hrequest _
  · exact .pure trivial

end Paths

section Files

/-- Work that asks no evaluator, in the middle of a step. -/
structure Moves {α : Type} (env : Environment) (step : SessionStep) (F : Fault → Prop) (s : Session) (x y : Analysis α)
    (Q : α → Session → Prop) : Prop where
  run : s.IsSound → x.runOn env s = y.runOn env s ∧ Outcome env step F s Q (x.runOn env s)

namespace Moves

theorem pure (hq : Q a s) : Moves env step F s (Pure.pure a) (Pure.pure a) Q := ⟨fun _ => ⟨rfl, .refl s, hq⟩⟩

theorem still (hF : ∀ f, env.Causes f → F f)
    (hx : Agrees (.still env F) 0 (fun _ _ => False) s x y Q) : Moves env step F s x y Q := by
  refine ⟨fun hs => ?_⟩
  obtain ⟨heq, hends⟩ := hx.run hs trivial
  refine ⟨heq, ?_⟩
  rcases hrun : x.runOn env s with ⟨f | a, s'⟩ <;> rw [hrun] at hends
  · exact ⟨.run hends.1, hends.2.1.elim (hF f) id⟩
  · exact ⟨.run hends.1, hends.2⟩

theorem bind (hx : Moves env step F s x y Q)
    (hf : ∀ a s', Q a s' → Moves env step F s' (f a) (g a) S) : Moves env step F s (x >>= f) (y >>= g) S := by
  refine ⟨fun hs => ?_⟩
  obtain ⟨heq, hout⟩ := hx.run hs
  rw [runOn_bind, runOn_bind, ← heq]
  rcases hrun : x.runOn env s with ⟨e | a, s'⟩ <;> rw [hrun] at hout
  · exact ⟨rfl, hout⟩
  · obtain ⟨hm, hq⟩ := hout
    obtain ⟨heq', hout'⟩ := (hf a s' hq).run (hm.isSound hs)
    refine ⟨heq', ?_⟩
    dsimp only
    rcases hrun' : (f a).runOn env s' with ⟨e | b, s''⟩ <;> rw [hrun'] at hout'
    · exact ⟨hm.trans hout'.1, hout'.2⟩
    · exact ⟨hm.trans hout'.1, hout'.2⟩

theorem change {Q : PUnit → Session → Prop} (hm : Move env step true s (g s)) (hq : Q ⟨⟩ (g s)) :
    Moves env step F s (modify g) (modify g) Q := ⟨fun _ => ⟨rfl, hm, hq⟩⟩

theorem withFile (hF : ∀ f, env.Causes f → F f)
    (hx : ∀ s', Moves env step F s' x y fun _ _ => True) :
    Moves env step F s (withFile path x) (withFile path y) fun _ _ => True := by
  refine ⟨fun hs => ?_⟩
  have hwork : Moves env step F (s.enterFile path) (trace ("loading " ++ path) >>= fun _ => x)
      (trace ("loading " ++ path) >>= fun _ => y) fun _ _ => True :=
    (still hF (trace_agrees _)).bind fun _ s' _ => hx s'
  obtain ⟨heq, hout⟩ := hwork.run (hs.enterFile path)
  rw [runOn_withFile, runOn_withFile, heq]
  refine ⟨rfl, ?_⟩
  rw [heq] at hout
  rcases hrun : (trace ("loading " ++ path) >>= fun _ => y).runOn env (s.enterFile path) with ⟨e | a, s'⟩ <;>
    rw [hrun] at hout
  · exact ⟨.within path hout.1, hout.2⟩
  · exact ⟨.within path hout.1, trivial⟩

theorem settles (N : Nat) (hx : ∀ n ≥ N, Moves env step F s x (z n) Q) : Settles env step I F s x z Q :=
  ⟨fun hi _ => ⟨⟨N, fun n hn => ((hx n hn).run hi.sound).1.symm⟩, ((hx N (Nat.le_refl _)).run hi.sound).2⟩⟩

end Moves

/-- A unit that was parsed from a text is in the cache, and the text has a tree. -/
def Session.KeepsText (env : Environment) (path : String) (outcome : ParseOutcome)
    (parsed : Except ParseFailure SourceUnit) (s : Session) : Prop :=
  ∀ unit, parsed = .ok unit → s.loading.cache.units.get? path = some unit ∧ env.shortage = none ∧
    ∃ tree, outcome = .tree tree

section Memory

variable (hF : ∀ f, env.Causes f → F f)
include hF

theorem abandonModule_moves (hpath : F .badMarkup ∨ env.Fails (.memory path)) :
    Moves env step F s (abandonModule path) (abandonModule path) fun _ _ => True := by
  refine (Moves.change (Q := fun _ _ => True) .forget trivial).bind fun _ s1 _ => ?_
  refine .still hF (.bind (.lift (removeName_does _)) fun _ _ _ _ => ?_)
  exact recordParseFailure_agrees (hpath.imp_left .inr)

theorem resolveUnit_moves (hinj : env.injection = some ⟨.resolving, .memory⟩) (ev ev' : Evaluator)
    (cached : s.loading.cache.units.get? unit.path = some unit) :
    Moves env step F s (resolveUnit ev unit) (resolveUnit ev' unit) fun _ _ => False := by
  have hopen : Moves env step F s (openUnit unit) (openUnit unit) fun _ _ => True := by
    refine ⟨fun hs => ⟨rfl, ?_⟩⟩
    obtain ⟨m, s1, hr, opens, hrun⟩ := openUnit_opens env hs cached
    rw [hrun]
    exact ⟨(Move.run hr).trans (.openUnit hinj m unit opens), trivial⟩
  refine hopen.bind fun m s1 _ => ?_
  exact (Moves.still hF (resolveModule_starved hinj ev ev' unit m)).bind fun _ _ h => h.elim

theorem loadUnit_moves (hinj : env.injection = some ⟨.resolving, .memory⟩) (ev ev' : Evaluator)
    (hpath : F .badMarkup ∨ env.Fails (.memory path)) (cached : s.loading.cache.units.get? path = some unit) :
    Moves env step F s (loadUnit ev path unit) (loadUnit ev' path unit) fun _ _ => True := by
  refine ⟨fun hs => ?_⟩
  obtain rfl := hs.cached path unit cached
  have hresolve : Moves env step F s (resolveUnit ev unit) (resolveUnit ev' unit) fun _ _ => False :=
    resolveUnit_moves hF hinj ev ev' cached
  obtain ⟨heq, hout⟩ := hresolve.run hs
  rcases hrun : (resolveUnit ev unit).runOn env s with ⟨f | m, s1⟩ <;> rw [hrun] at hout heq
  · by_cases hf : f = .exhausted .memory
    · subst hf
      rw [runOn_loadUnit_of_memory hrun, runOn_loadUnit_of_memory heq.symm]
      refine ⟨rfl, ?_⟩
      -- The one fault that loading recovers from: what was begun stays, and the module is given up.
      have hmove : Move env step true s s1 := .recover hinj hout.1
      have habandon : Moves env step F s1 (abandonModule unit.path) (abandonModule unit.path) fun _ _ => True :=
        abandonModule_moves hF hpath
      obtain ⟨_, hout'⟩ := habandon.run (hmove.isSound hs)
      rcases hrun' : (abandonModule unit.path).runOn env s1 with ⟨e | a, s2⟩ <;> rw [hrun'] at hout'
      · exact ⟨hmove.trans hout'.1, hout'.2⟩
      · exact ⟨hmove.trans hout'.1, trivial⟩
    · rw [runOn_loadUnit_of_error hf hrun, runOn_loadUnit_of_error hf heq.symm]
      exact ⟨rfl, hout⟩
  · exact hout.2.elim

theorem parseText_moves (hinvalid : F .invalidTree) (path : String) (content : ByteArray) (outcome : ParseOutcome)
    (given : ∀ tree, outcome = .tree tree → step.Gives env path tree) :
    Moves env step F s (parseSource path (some (content, outcome))) (parseSource path (some (content, outcome)))
      (Session.KeepsText env path outcome) := by
  refine ⟨fun hs => ⟨rfl, ?_⟩⟩
  show Outcome env step F s _ ((parsing fun shortage => UnitCache.parse shortage path content outcome).runOn env s)
  rw [runOn_parsing]
  -- A failure is noted and leaves no unit.
  have hfailed : ∀ (f : ParseFailure) (s' : Session), Move env step true s s' →
      Outcome env step F s (Session.KeepsText env path outcome) ((parsingResult (.ok (.error f))).runOn env s') := by
    intro f s' hm
    have hx := parsingResult_agrees (R := .still env F) (n := 0) (D := fun _ _ => False) (s := s') (.error f)
    obtain ⟨_, hout⟩ := (Moves.still hF hx).run (hm.isSound hs)
    rcases hrun : (parsingResult (.ok (.error f))).runOn env s' with ⟨e | r, s''⟩ <;> rw [hrun] at hout
    · exact ⟨hm.trans hout.1, hout.2⟩
    · refine ⟨hm.trans hout.1, fun unit hunit => ?_⟩
      cases hunit.symm.trans hout.2.1
  cases hshortage : env.shortage with
  | some r =>
    cases r with
    | nesting => exact hfailed _ s (.refl s)
    | memory => exact hfailed _ _ .forget
  | none =>
    cases outcome with
    | failure reason line column => exact hfailed _ s (.refl s)
    | invalid => exact ⟨.run (.stop .refl), hinvalid⟩
    | tree tree =>
      refine ⟨.text ⟨s.loading.cache.parses, path, content, tree⟩ rfl (given tree rfl), ?_⟩
      rintro unit ⟨⟩
      exact ⟨Table.get?_insert_self .., hshortage, tree, rfl⟩

theorem loadParsed_moves (hinj : env.injection = some ⟨.resolving, .memory⟩) (ev ev' : Evaluator)
    (hpath : F .badMarkup ∨ env.Fails (.memory path))
    (cached : ∀ unit, parsed = .ok unit → s.loading.cache.units.get? path = some unit)
    (fails : ∀ f, parsed = .error f → F .badMarkup ∨ env.Fails f) :
    Moves env step F s (loadParsed ev path parsed) (loadParsed ev' path parsed) fun _ _ => True := by
  cases parsed with
  | error f =>
    refine .still hF (.bind (recordParseFailure_agrees ((fails f rfl).imp_left .inr)) fun _ _ _ _ => ?_)
    exact .pure trivial
  | ok unit => exact loadUnit_moves hF hinj ev ev' hpath (cached unit rfl)

theorem loadFile_moves (hinj : env.injection = some ⟨.resolving, .memory⟩) (ev ev' : Evaluator) (hpath : ∀ f, env.workspace.canonical path = .error f → F f)
    (hrequest : text.isSome = true → ∀ f, f.OfRequest → F f)
    (given : ∀ content tree, text = some (content, .tree tree) → ∀ p, env.Names path p → step.Gives env p tree) :
    Moves env step F s (loadFile ev path text) (loadFile ev' path text) fun _ _ => True := by
  refine (Moves.still hF (needFor_agrees (Regime.still_takes hpath) _)).bind fun need s1 ⟨_, hneed⟩ => ?_
  cases need with
  | settled m => exact .pure trivial
  | load p =>
    obtain ⟨hnames, _, hfound⟩ := hneed p rfl
    refine .withFile hF fun s2 => ?_
    cases text with
    | none =>
      refine (Moves.still hF (readFile_agrees ⟨path, hnames⟩ (hfound rfl))).bind fun parsed s3 ⟨hcached, hfails⟩ => ?_
      exact loadParsed_moves hF hinj ev ev' (.inr (.memory (hfound rfl) hinj)) hcached fun f hf => .inr (hfails f hf)
    | some text =>
      obtain ⟨content, outcome⟩ := text
      have hplain := fun f (hf : f.OfRequest) => hrequest rfl f hf
      have htext := fun tree (htree : outcome = .tree tree) => given content tree (htree ▸ rfl) p hnames
      refine (parseText_moves hF (hplain _ ⟨by simp, by simp⟩) p content outcome htext).bind fun parsed s3 hparsed => ?_
      have hmarkup : F .badMarkup := hplain _ ⟨by simp, by simp⟩
      exact loadParsed_moves hF hinj ev ev' (.inl hmarkup) (fun unit hunit => (hparsed unit hunit).1)
        fun _ _ => .inl hmarkup

end Memory

section Text

theorem exists_runOn_log (env : Environment) (level : Level) (text : String) :
    ∃ (r : Except Fault Unit) (lines : List String),
    ∀ s : Session, (log level text).runOn env s = (r, { s with log := s.log ++ lines }) := by
  by_cases hshown : env.shownLevel.isShown level = true
  · cases hlines : (LogEntry.signed level text).lines? with
    | some lines =>
      refine ⟨.ok (), lines, fun s => ?_⟩
      show (if env.shownLevel.isShown level = true then _ else _ : Analysis Unit).runOn env s = _
      rw [if_pos hshown, hlines]
      rfl
    | none =>
      refine ⟨.error .badMarkup, [], fun s => ?_⟩
      show (if env.shownLevel.isShown level = true then _ else _ : Analysis Unit).runOn env s = _
      rw [if_pos hshown, hlines, List.append_nil]
      rfl
  · refine ⟨.ok (), [], fun s => ?_⟩
    show (if env.shownLevel.isShown level = true then _ else _ : Analysis Unit).runOn env s = _
    rw [if_neg hshown, List.append_nil]
    rfl

theorem runOn_parseTree (unharmed : env.shortage = none) (content : ByteArray) (tree : Syntax.Module) :
    (parseSource path (some (content, .tree tree))).runOn env s =
      (.ok (.ok ⟨s.loading.cache.parses, path, content, tree⟩),
        { s with loading.cache := s.loading.cache.keep ⟨s.loading.cache.parses, path, content, tree⟩ }) := by
  show (parsing fun shortage => UnitCache.parse shortage path content (.tree tree)).runOn env s = _
  rw [runOn_parsing, unharmed]
  rfl

theorem withTree_moves {R : Regime env} (fits : Fits R ev ev')
    (hR : ∀ f, R.Allows f → F f) (canonical : env.IsCanonical path)
    (outside : path ∉ s.loading.stack) (spared : env.injection ≠ some ⟨.resolving, .memory⟩)
    (unharmed : env.shortage = none) (content : ByteArray) (tree : Syntax.Module) (given : step.Gives env path tree)
    (hready : R.ready n (fun _ _ => False)
      { s with loading.cache := s.loading.cache.keep ⟨s.loading.cache.parses, path, content, tree⟩ }) :
    Moves env step F s (withFile path do loadParsed ev path (← parseSource path (some (content, .tree tree))))
      (withFile path do loadParsed ev' path (← parseSource path (some (content, .tree tree)))) fun _ _ => True := by
  refine ⟨fun hs => ?_⟩
  -- The unit may as well be in the cache before the file is entered.
  obtain ⟨unit, hunit⟩ : ∃ unit : SourceUnit, unit = ⟨s.loading.cache.parses, path, content, tree⟩ := ⟨_, rfl⟩
  obtain ⟨s1, hs1⟩ : ∃ s1 : Session, s1 = { s with loading.cache := s.loading.cache.keep unit } := ⟨_, rfl⟩
  rw [← hunit, ← hs1] at hready
  have hmove : Move env step true s s1 := hs1 ▸ .text unit (hunit ▸ rfl) (hunit ▸ given)
  have hsound : s1.IsSound := hmove.isSound hs
  obtain ⟨r, lines, hlog⟩ := exists_runOn_log env .debug ("loading " ++ path)
  cases r with
  | error e =>
    -- The message cannot be written, so nothing is parsed.
    have htrace := ((trace_agrees (R := .bare env) (n := 0) (D := fun _ _ => False) (s := s.enterFile path)
      ("loading " ++ path)).run (hs.enterFile path) trivial).2
    rw [runOn_withFile, runOn_withFile, runOn_bind, runOn_bind]
    rw [trace, hlog] at htrace ⊢
    exact ⟨rfl, .within path (.run htrace.1), hR e (R.bare_allows htrace.2)⟩
  | ok =>
    obtain ⟨s2, hs2⟩ : ∃ s2 : Session, s2 = { s1.enterFile path with log := s1.log ++ lines } := ⟨_, rfl⟩
    -- Either way the unit is loaded from a session that has it in the cache.
    have hload : ∀ ev, (withFile path do loadParsed ev path (← parseSource path (some (content, .tree tree)))).runOn env s =
        (((loadUnit ev path unit).runOn env s2).1, ((loadUnit ev path unit).runOn env s2).2.leaveFile s1.loading) := by
      intro ev
      rw [runOn_withFile, runOn_bind, trace, hlog]
      dsimp only
      rw [runOn_bind, runOn_parseTree unharmed, hs2, hs1, hunit]
      rfl
    have hr : Run env (fun _ _ => False) true (s1.enterFile path) s2 := hs2 ▸ .change (.log lines)
    have hcached : s2.loading.cache.units.get? path = some unit := by
      rw [hs2, hs1, hunit]
      exact Table.get?_insert_self ..
    have houtside : path ∉ s1.loading.stack := hmove.stack ▸ outside
    obtain ⟨heq, hends⟩ := (loadUnit_leaves fits hready canonical houtside spared hcached).run
      (hr.isSound (hsound.enterFile path)) hr
    rw [hload, hload, ← heq]
    refine ⟨rfl, ?_⟩
    generalize (loadUnit ev path unit).runOn env s2 = out at hends ⊢
    obtain ⟨f | m, s3⟩ := out
    · exact ⟨hmove.trans (.run hends.1), hR f hends.2⟩
    · exact ⟨hmove.trans (.run hends.1), trivial⟩

end Text

end Files

section Equipped

variable (he : Equips env I F m m')
include he

theorem evaluating_settles {work : Evaluator → Analysis α} {work' : Nat → Evaluator → Analysis α}
    {Q : α → Session → Prop} (K : Nat)
    (hwork : s.Idle → ∀ {R : Regime env} {ev ev' : Evaluator} {n : Nat}, K ≤ n → Fits R ev ev' →
      Agrees R 0 (fun _ _ => False) s (work ev) (work' n ev') Q) :
    Settles env step I F s (m.evaluating size work) (fun n => (m' n).evaluating size (work' n)) Q := by
  refine .get_bind (.read_bind ⟨fun hi hs => ?_⟩)
  obtain ⟨R, hready, hR, N, hN⟩ := he.fits _ s hi hs (Nat.le_add_right _ size)
  have hx := fun n (hn : max N K ≤ n) =>
    (hwork hi (Nat.le_trans (Nat.le_max_right N K) hn) (hN n (Nat.le_trans (Nat.le_max_left N K) hn))).run hi.sound hready
  refine ⟨⟨max N K, fun n hn => (hx n hn).1.symm⟩, ?_⟩
  have hends := (hx _ (Nat.le_refl _)).2
  generalize (work (m.evaluator _)).runOn env s = out at hends ⊢
  obtain ⟨f | a, s'⟩ := out
  · exact ⟨.run hends.1, hR f hends.2⟩
  · exact ⟨.run hends.1, hends.2⟩

theorem starved_settles (hinj : env.injection = some ⟨.resolving, .memory⟩) (size : Nat) (hpath : ∀ f, env.workspace.canonical path = .error f → F f)
    (hrequest : text.isSome = true → ∀ f, f.OfRequest → F f)
    (given : ∀ content tree, text = some (content, .tree tree) → ∀ p, env.Names path p → step.Gives env p tree) :
    Settles env step I F s (m.evaluating size fun ev => loadFile ev path text)
      (fun n => (m' n).evaluating size fun ev => loadFile ev path text) fun _ _ => True := by
  exact .get_bind (.read_bind (Moves.settles 0 fun _ _ => loadFile_moves he.faults hinj _ _ hpath hrequest given))

omit he in
theorem runOn_loadFile_of_error (hf : env.workspace.canonical path = .error f)
    (ev : Evaluator) (text : Option (ByteArray × ParseOutcome)) : (loadFile ev path text).runOn env s = (.error f, s) := by
  have hcanonical : (canonicalPath path).runOn env s = (.error f, s) := by
    rw [canonicalPath, runOn_read_bind, hf]
    rfl
  rw [loadFile, runOn_bind, needFor, runOn_bind, hcanonical]

theorem load_settles (hpath : ∀ f, env.workspace.canonical path = .error f → F f) :
    Settles env step I F s (m.load path) (fun n => (m' n).load path) fun _ _ => True := by
  by_cases hinj : env.injection = some ⟨.resolving, .memory⟩
  · exact starved_settles he hinj 0 hpath (fun h => nomatch h) fun _ _ h => nomatch h
  cases hcanonical : env.workspace.canonical path with
  | ok q =>
    refine evaluating_settles he 0 fun _ _ _ _ _ _ fits => loadFile_agrees fits hinj fun f hf => ?_
    cases hf.symm.trans hcanonical
  | error f =>
    refine .get_bind (.read_bind (Moves.settles 0 fun n _ => ⟨fun _ => ?_⟩))
    rw [runOn_loadFile_of_error hcanonical, runOn_loadFile_of_error hcanonical]
    exact ⟨rfl, .run (.stop .refl), hpath f hcanonical⟩

theorem withoutTree_moves (hrequest : ∀ f, f.OfRequest → F f) (path : String) (content : ByteArray) (ev ev' : Evaluator)
    (given : ∀ tree, outcome = .tree tree → step.Gives env path tree)
    (hnone : ¬ (env.shortage = none ∧ ∃ tree, outcome = .tree tree)) :
    Moves env step F s (withFile path do loadParsed ev path (← parseSource path (some (content, outcome))))
      (withFile path do loadParsed ev' path (← parseSource path (some (content, outcome)))) fun _ _ => True := by
  have hinvalid : F .invalidTree := hrequest _ ⟨by simp, by simp⟩
  have hmarkup : F .badMarkup := hrequest _ ⟨by simp, by simp⟩
  refine .withFile he.faults fun s1 => (parseText_moves he.faults hinvalid path content outcome given).bind
    fun parsed s2 hparsed => ?_
  cases parsed with
  | ok unit => exact absurd (hparsed unit rfl).2 hnone
  | error f =>
    exact .still he.faults (.bind (recordParseFailure_agrees (.inl (.inr hmarkup))) fun _ _ _ _ => .pure trivial)

theorem loadText_settles (hrequest : ∀ f, f.OfRequest → F f) (path : String) (content : ByteArray)
    (outcome : ParseOutcome) :
    Settles env (.loadText path content outcome) I F s (m.loadText path content outcome)
      (fun n => (m' n).loadText path content outcome) fun _ _ => True := by
  have hpath : ∀ f, env.workspace.canonical path = .error f → F f :=
    fun f hf => hrequest f (Fault.ofRequest_of_canonical hf)
  by_cases hinj : env.injection = some ⟨.resolving, .memory⟩
  · refine starved_settles he hinj _ hpath (fun _ => hrequest) fun c tree htext p hp => ?_
    cases htext
    exact ⟨path, content, rfl, hp⟩
  refine .get_bind (.read_bind ?_)
  refine (Settles.still he.faults (needFor_agrees (Regime.still_takes hpath) true)).bind he.invariant
    fun need s1 _ ⟨hloading, hneed⟩ => ?_
  cases need with
  | settled r => exact .pure trivial
  | load p =>
    obtain ⟨hnames, houtside, _⟩ := hneed p rfl
    have hgiven : ∀ tree, outcome = .tree tree →
        (SessionStep.loadText path content outcome).Gives env p tree := by
      rintro tree rfl
      exact ⟨path, content, rfl, hnames⟩
    refine ⟨fun hi hs => ?_⟩
    by_cases htree : env.shortage = none ∧ ∃ tree, outcome = .tree tree
    · obtain ⟨unharmed, tree, rfl⟩ := htree
      -- The evaluators have to suffice for the session that holds the new unit.
      have hmove : Move env (.loadText path content (.tree tree)) true s1 _ :=
        .text ⟨s1.loading.cache.parses, p, content, tree⟩ rfl (hgiven tree rfl)
      have hweight : s1.loading.cache.weight + tree.size + env.workspace.top.weight ≤
          s.loading.cache.weight + env.workspace.top.weight + tree.size := by
        rw [hloading]
        omega
      obtain ⟨R, hready, hR, N, hN⟩ := he.fits _ _ (hmove.idle hi) (he.invariant _ s1 _ hi hs hmove) hweight
      refine (Moves.settles N fun n hn => ?_).run hi hs
      exact withTree_moves (hN n hn) hR ⟨path, hnames⟩ houtside hinj unharmed content tree (hgiven tree rfl) hready
    · exact (Moves.settles 0 fun n _ => withoutTree_moves he hrequest p content _ _ hgiven htree).run hi hs

theorem applyUncalled_settles :
    Settles env step I F s m.applyUncalled (fun n => (m' n).applyUncalled) fun _ s' => s'.uncalled = [] := by
  refine .get_bind (.read_bind ?_)
  refine evaluating_settles he (s.loading.cache.weight + env.workspace.top.weight + s.uncalled.length + 2)
    fun hi R ev ev' n hn fits => ?_
  have hlimit := he.sweeps (s.loading.cache.weight + env.workspace.top.weight + s.uncalled.length + 2)
  have hlimit' := he.sweeps_of_le _ n hn
  refine sweep_agrees fits 0 (.start hi.grounded (Nat.le_refl _)) ?_ ?_
  · omega
  · omega

theorem loadBelow_settles (hrequest : ∀ f, f.OfRequest → F f) (path : String) :
    Settles env step I F s (loadBelowBy m.load path) (fun n => loadBelowBy (m' n).load path) fun _ _ => True := by
  have hI := he.invariant
  have hF := he.faults
  have hpath : ∀ path f, env.workspace.canonical path = .error f → F f :=
    fun _ f hf => hrequest f (Fault.ofRequest_of_canonical hf)
  refine (Settles.still hF (canonicalPath_agrees (Regime.still_takes (hpath path)))).bind hI fun canonical s1 _ _ => ?_
  refine (probe_settles hF hrequest _ _).bind hI fun isFile s2 _ _ => ?_
  cases isFile with
  | true => exact ((load_settles he (hpath _)).discard hI).bind hI fun _ _ _ _ => .pure trivial
  | false =>
    refine (probe_settles hF hrequest _ _).bind hI fun isDirectory s3 _ _ => ?_
    cases isDirectory with
    | true =>
      refine (addRoot_settles hI hF hrequest _).bind hI fun _ s4 _ _ => .read_bind ?_
      refine (Settles.forM hI fun f _ s5 => ?_).bind hI fun _ _ _ _ => .pure trivial
      exact (load_settles he (hpath f)).discard hI
    | false =>
      have hmarkup : F .badMarkup := hrequest _ ⟨by simp, by simp⟩
      exact (Settles.still hF (log_agrees fun _ _ => .inr hmarkup)).bind hI fun _ _ _ _ => .pure trivial

omit he in
theorem reportUnusedIfAsked_agrees :
    Agrees R n D s reportUnusedIfAsked reportUnusedIfAsked fun _ s' => ∃ problems, s' = { s with problems } := by
  refine .read_bind ?_
  split
  · refine .theHeap_bind (.forM_keeps _ (fun b _ s1 _ ⟨problems, hs1⟩ => ?_) ⟨s.problems, rfl⟩)
    split
    · exact .pure ⟨problems, hs1⟩
    · refine (reportAt_agrees ..).mono fun _ s2 _ ⟨⟨problems', hs2⟩, _⟩ => ⟨problems', ?_⟩
      rw [hs2, hs1]
  · exact .pure ⟨s.problems, rfl⟩

omit he in
theorem becomes_reclassify (h : Heap) (r : Reference) (bs : List BindingId) : r.Becomes (h.reclassify r bs) := by
  unfold Heap.reclassify
  split
  · rename_i hcall
    exact .inr ⟨of_decide_eq_true (Bool.and_eq_true_iff.1 hcall).1, rfl⟩
  · exact .inl rfl

omit he in
theorem reclassifyCalls_settles :
    Settles env .finish I F s reclassifyCalls (fun _ => reclassifyCalls) fun _ s' => ∃ references,
      s' = { s with heap.references := references } := by
  refine ⟨fun hi _ => ⟨⟨0, fun _ _ => rfl⟩, ?_⟩⟩
  have haligned := hi.sound.mirrored.aligned
  have hsize : (s.heap.references.zipWith s.heap.reclassify s.links).size = s.heap.references.size := by
    rw [Array.size_zipWith, haligned, Nat.min_self]
  refine ⟨.reclassify rfl _ hsize fun i r hr => ?_, _, rfl⟩
  have hlt : i < s.links.size := haligned ▸ (Array.getElem?_eq_some_iff.1 hr).1
  refine ⟨s.heap.reclassify r s.links[i], ?_, becomes_reclassify ..⟩
  rw [Array.getElem?_zipWith, hr, Array.getElem?_eq_getElem hlt]

theorem finish_settles : Settles env .finish I F s (finishBy m.applyUncalled) (fun n => finishBy (m' n).applyUncalled)
    fun _ s' => s'.finished = true ∧ (s.finished = false → s'.uncalled = []) := by
  have hI := he.invariant
  refine .get_bind ?_
  by_cases hfinished : s.finished = true
  · simp only [hfinished, if_true]
    exact .pure ⟨hfinished, by simp⟩
  · simp only [hfinished, Bool.false_eq_true, if_false]
    refine (Settles.change (Q := fun _ s => s.finished = true) (.finish rfl) rfl).bind hI fun _ s1 _ h1 => ?_
    refine (applyUncalled_settles he).bind hI fun sweeps s2 hm2 h2 => ?_
    have hf2 := hm2.finished h1
    -- What follows the sweeps changes neither what waits nor that the analysis is finished.
    refine (Settles.still he.faults reportUnusedIfAsked_agrees).bind hI fun _ s3 _ ⟨_, hs3⟩ => ?_
    refine reclassifyCalls_settles.bind hI fun changed s4 _ ⟨_, hs4⟩ => ?_
    refine (Settles.still he.faults (trace_agrees _)).mono fun _ s5 ⟨_, hs5⟩ => ?_
    rw [hs5, hs4, hs3]
    exact ⟨hf2, fun _ => h2⟩

theorem step_settles (hrequest : ∀ f, f.OfRequest → F f) (step : SessionStep) :
    Settles env step I F s (step.runBy m) (fun n => step.runBy (m' n)) fun _ s' => step.Post s s' := by
  have hI := he.invariant
  cases step with
  | start => exact startSession_settles hI he.faults hrequest rfl
  | load path =>
    exact (load_settles he fun f hf => hrequest f (Fault.ofRequest_of_canonical hf)).discard hI
  | loadText path content outcome => exact (loadText_settles he hrequest path content outcome).discard hI
  | loadBelow path => exact (loadBelow_settles he hrequest path).discard hI
  | applyUncalled => exact (applyUncalled_settles he).map hI fun _ _ h => h
  | finish => exact finish_settles he

end Equipped

end Concordance
