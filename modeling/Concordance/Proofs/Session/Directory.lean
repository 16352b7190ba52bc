import Concordance.Proofs.Files
import Concordance.Proofs.Session.Blame
import Concordance.Proofs.Session.Intake
import Concordance.Proofs.Session.Modules

/-!
# Loading a directory

All source files below a directory are loaded, one after the other. A file that the parser rejects is recorded as such
and the others are loaded none the less.
-/

namespace Concordance

variable {s : Session}

/-- A failure to parse is recorded, with its diagnostic. -/
structure Session.Records (s : Session) (f : ParseFailure) : Prop where
  failed : f.path ∈ s.loading.failed
  problem : ⟨f.path, 0, 0, .parseError, f.describe, .error⟩ ∈ s.parseProblems.reported

theorem Session.Records.later (hf : s.Records f) (hg : s.Gains env b s') : s'.Records f :=
  ⟨hg.failed _ hf.failed, hg.problems _ hf.problem⟩

/-- A session between two steps or two files of a step. -/
structure Session.Calm (s : Session) : Prop where
  idle : s.Idle
  located : s.Located
  ordered : s.Ordered

theorem Reachable.calm (hs : Reachable s) : s.Calm := ⟨hs.idle, hs.located, hs.ordered⟩

section Reading

theorem rejects_of_runOn_parseSource
    (hrun : (parseSource path none).runOn env s = (.ok (.error f), s')) : env.Rejects path f := by
  rw [parseSource, runOn_read_bind] at hrun
  dsimp only at hrun
  rw [runOn_parsing] at hrun
  rcases hread : (UnitCache.read env.shortage env.workspace path).run.run s.loading.cache with ⟨r, c⟩
  rw [hread] at hrun
  -- A unit in the cache would have been given.
  have habsent : s.loading.cache.units.get? path = none := by
    cases hcached : s.loading.cache.units.get? path with
    | none => rfl
    | some unit =>
      rw [UnitCache.run_read, hcached] at hread
      cases hread
      cases hrun
  obtain rfl : r = .ok (.error f) := by
    rcases r with e | g | unit
    · cases hrun
    · simp only [parsingResult] at hrun
      split at hrun
      · rw [runOn_bind] at hrun
        split at hrun <;> cases hrun
        rfl
      · cases hrun
        rfl
    · cases hrun
  exact UnitCache.rejects_of_read habsent hread

theorem exists_log_of_runOn (hrun : (log level text).runOn env s = (.ok (), s')) :
    ∃ lines, s' = { s with log := lines } := by
  obtain ⟨r, lines, hlog⟩ := exists_runOn_log env level text
  rw [hlog] at hrun
  exact ⟨_, (congrArg Prod.snd hrun).symm⟩

theorem records_of_runOn_recordParseFailure
    (hrun : (recordParseFailure f).runOn env s = (.ok (), s')) : s'.Records f := by
  rw [recordParseFailure, runOn_bind] at hrun
  obtain ⟨lines, rfl⟩ := exists_log_of_runOn hrun
  refine ⟨?_, List.mem_append_right _ (List.mem_singleton.2 rfl)⟩
  dsimp only
  split
  · assumption
  · exact List.mem_append_right _ (List.mem_singleton.2 rfl)

theorem records_of_runOn_loadParsed     (hrun : (loadParsed ev path (.error f)).runOn env s = (.ok r, s')) (loading : Loading) :
    (s'.leaveFile loading).Records f := by
  rw [loadParsed, runOn_bind] at hrun
  rcases hrecord : (recordParseFailure f).runOn env s with ⟨e | _, s1⟩ <;> rw [hrecord] at hrun <;> cases hrun
  have hrecords := records_of_runOn_recordParseFailure hrecord
  exact ⟨hrecords.failed, hrecords.problem⟩

end Reading

section Fate

theorem Session.Ordered.runOn_needFor (ho : s.Ordered)
    (hq : env.workspace.canonical path = .ok q) (hfile : env.workspace.isFile (Path.ofString q.toString) = true)
    (hout : q.toString ∉ s.loading.stack) : (∃ m, s.Announced (moduleNameOf q.toString) m) ∨
      (needFor path false).runOn env s = (.ok (.load q.toString), s) := by
  have hneeds := ho.needs env path false
  generalize (needFor path false).runOn env s = x at hneeds ⊢
  cases hneeds with
  | fault canonical => cases hq.symm.trans canonical
  | nothing _ canonical barred =>
    cases hq.symm.trans canonical
    rcases barred with ⟨_, hunreadable⟩ | hin
    · cases hfile.symm.trans hunreadable
    · exact absurd hin hout
  | known _ canonical announced =>
    cases hq.symm.trans canonical
    exact .inl ⟨_, announced⟩
  | load canonical =>
    cases hq.symm.trans canonical
    exact .inr rfl

theorem Session.Calm.withFile_fate (hs : s.Calm) (spared : env.injection ≠ some ⟨.resolving, .memory⟩) {fuel : Nat} (canonical : env.IsCanonical path) (hfile : env.workspace.isFile (Path.ofString path) = true)

    (hrun : (withFile path do loadParsed (.withFuel fuel) path (← parseSource path none)).runOn env s = (.ok r, s')) :
    (∃ f, env.Rejects path f ∧ s'.Records f) ∨ path ∈ s'.loading.loaded := by
  have hout : path ∉ s.loading.stack := by
    rw [hs.idle.files]
    exact List.not_mem_nil
  -- The file is parsed first, which is a run that asks no evaluator.
  have hread : Agrees (.bare env) 0 (fun _ _ => False) (s.enterFile path)
      (do trace ("loading " ++ path); parseSource path none) (do trace ("loading " ++ path); parseSource path none)
      (fun parsed s1 => (∀ unit, parsed = .ok unit → s1.loading.cache.units.get? path = some unit) ∧
        ∀ f, parsed = .error f → env.Fails f) :=
    .bind (trace_agrees _) fun _ _ _ _ => readFile_agrees canonical hfile
  have hends := (hread.run (hs.idle.sound.enterFile path) trivial).2
  have hassoc : (trace ("loading " ++ path) >>= fun _ => do loadParsed (.withFuel fuel) path (← parseSource path none)) =
      ((do trace ("loading " ++ path); parseSource path none) >>= loadParsed (.withFuel fuel) path) := by
    rw [bind_assoc]
  rw [runOn_withFile, hassoc, runOn_bind] at hrun
  rcases hparse : (do trace ("loading " ++ path); parseSource path none : Analysis _).runOn env (s.enterFile path) with
    ⟨e | parsed, s1⟩ <;> rw [hparse] at hends hrun
  · cases hrun
  obtain ⟨hr, hcached, _⟩ := hends
  obtain ⟨hresult, rfl⟩ := Prod.mk.inj hrun
  dsimp only at hresult ⊢
  -- What comes next depends on what the parser gave.
  cases parsed with
  | error f =>
    have hrejects : env.Rejects path f := by
      rw [runOn_bind] at hparse
      split at hparse
      · exact rejects_of_runOn_parseSource hparse
      · cases hparse
    exact .inl ⟨f, hrejects, records_of_runOn_loadParsed (Prod.ext hresult rfl) s.loading⟩
  | ok unit =>
    have hsound : s1.IsSound := hr.isSound (hs.idle.sound.enterFile path)
    obtain rfl := hsound.cached path unit (hcached unit rfl)
    -- Memory does not run out on the statements, so that the module is not taken back.
    obtain ⟨_, hresolved⟩ := resolveUnit_resolved (n := 0) (D := fun _ _ => False) (Fits.caused env fuel) hs.located
      canonical hout hsound (hcached unit rfl) hr
    rcases hresolve : (resolveUnit (.withFuel fuel) unit).runOn env s1 with ⟨e | m, s2⟩ <;> rw [hresolve] at hresolved
    · have hne : e ≠ .exhausted .memory := fun he => spared (hresolved.2.2 _ he)
      rw [loadParsed, runOn_loadUnit_of_error hne hresolve] at hresult
      cases hresult
    · rw [loadParsed, runOn_loadUnit_of_ok hresolve]
      exact .inr (List.mem_append_right _ (List.mem_singleton.2 rfl))

theorem exists_runOn_load (env : Environment) (s : Session) (path : String) :
    ∃ fuel, (load path).runOn env s = (loadFile (.withFuel fuel) path).runOn env s := by
  rw [load, evaluating, runOn_get_bind]
  dsimp only
  rw [runOn_read_bind]
  exact ⟨_, rfl⟩

theorem Session.Calm.load_fate (hs : s.Calm) (spared : env.injection ≠ some ⟨.resolving, .memory⟩)
    (hq : env.workspace.canonical path = .ok q) (hfile : env.workspace.isFile (Path.ofString q.toString) = true)
    (hrun : (load path).runOn env s = (.ok r, s')) :
    (∃ m, s.Announced (moduleNameOf q.toString) m) ∨ q.toString ∈ s'.loading.loaded ∨
      ∃ f, env.Rejects q.toString f ∧ s'.Records f := by
  have hout : q.toString ∉ s.loading.stack := by
    rw [hs.idle.files]
    exact List.not_mem_nil
  rcases hs.ordered.runOn_needFor hq hfile hout with hknown | hneed
  · exact .inl hknown
  · obtain ⟨fuel, hload⟩ := exists_runOn_load env s path
    rw [hload, loadFile, Option.isSome_none, runOn_bind, hneed] at hrun
    exact .inr (hs.withFile_fate spared ⟨path, q, hq, rfl⟩ hfile hrun).symm

end Fate

section Row

def loadAll (files : List String) : Analysis Unit := files.forM fun f => discard (load f)

theorem exists_turn {f : String} (hf : f ∈ files)
    (hrun : (loadAll files).runOn env s = (.ok (), s')) : ∃ before after s1 r s2, files = before ++ f :: after ∧
      (loadAll before).runOn env s = (.ok (), s1) ∧ (load f).runOn env s1 = (.ok r, s2) ∧
      (loadAll after).runOn env s2 = (.ok (), s') := by
  induction files generalizing s with
  | nil => cases hf
  | cons g rest ih =>
    have hcons : (loadAll (g :: rest)).runOn env s = (discard (load g) >>= fun _ => loadAll rest).runOn env s := by
      rw [loadAll, List.forM_eq_forM, List.forM_cons]
      rfl
    rw [hcons, runOn_bind, runOn_discard] at hrun
    rcases hg : (load g).runOn env s with ⟨e | r, s1⟩ <;> rw [hg] at hrun
    · cases hrun
    · rcases List.mem_cons.1 hf with rfl | hf
      · exact ⟨[], rest, s, r, s1, rfl, rfl, hg, hrun⟩
      · obtain ⟨before, after, s2, r', s3, rfl, hbefore, hload, hafter⟩ := ih hf hrun
        refine ⟨g :: before, after, s2, r', s3, rfl, ?_, hload, hafter⟩
        show (discard (load g) >>= fun _ => loadAll before).runOn env s = _
        rw [runOn_bind, runOn_discard, hg]
        exact hbefore

theorem loadAll_settles (step : SessionStep)
    (hfiles : ∀ f ∈ files, ∃ q, env.workspace.canonical f = .ok q) :
    Settles env step Session.Located (fun f => env.Causes f ∨ f = .outOfFuel) s (loadAll files) (fun _ => loadAll files)
      fun _ _ => True := by
  have hplain : Means.plain.load = load := rfl
  have he := caused_equips env
  rw [loadAll, ← hplain]
  refine .forM he.invariant fun f hf s' => (load_settles he fun e herr => ?_).discard he.invariant
  -- A canonical path never lacks a canonical form.
  obtain ⟨q, hq⟩ := hfiles f hf
  cases hq.symm.trans herr

theorem loadAll_tracks (final : Session) (files : List String) :
    Tracks env final s (loadAll files) (loadAll files) := by
  have hplain : Means.plain.load = load := rfl
  have hm : ∀ fuel, Minds env final (Means.plain.evaluator fuel) (Means.plain.evaluator fuel) := .withFuel
  rw [loadAll, ← hplain]
  exact .forM files fun f _ => (load_tracks hm f).discard

theorem Session.Calm.loadAll (hs : s.Calm)
    (hfiles : ∀ f ∈ files, ∃ q, env.workspace.canonical f = .ok q)
    (hrun : (loadAll files).runOn env s = (.ok (), s')) : s'.Calm ∧ s.Onward s' ∧ s.Gains env true s' := by
  obtain ⟨_, hout⟩ := (loadAll_settles .start hfiles).run hs.idle hs.located
  obtain ⟨hon, ho, _⟩ := (loadAll_tracks s files).run s (.refl s) hs.ordered
  rw [hrun] at hout hon ho
  obtain ⟨hm, _⟩ := hout
  refine ⟨⟨hm.idle hs.idle, (caused_equips env).invariant _ s s' hs.idle hs.located hm, ho⟩, hon, hm.gains ?_⟩
  rintro path tree ⟨_, _, hstep, _⟩
  cases hstep

end Row

section Root

theorem Session.Calm.searchPath (hs : s.Calm) (env : Environment) (paths : List String) :
    Session.Calm { s with loading.searchPath := paths } ∧ s.Onward { s with loading.searchPath := paths } ∧
      s.Gains env true { s with loading.searchPath := paths } := by
  have hsound := hs.idle.sound
  have hidle : Session.Idle { s with loading.searchPath := paths } :=
    ⟨⟨hsound.heap, hsound.registered, hsound.mirrored, hsound.cached, hsound.opened, hsound.waiting⟩,
      hs.idle.grounded.congr rfl rfl (fun _ => rfl) rfl, hs.idle.calls, hs.idle.files⟩
  have halike : s.Alike { s with loading.searchPath := paths } := ⟨rfl, rfl, rfl, rfl, rfl, rfl, rfl, .of_eq rfl⟩
  refine ⟨⟨hidle, hs.located, hs.ordered.steady halike (.refl _) hs.ordered.apart⟩,
    hs.ordered.onward halike (.refl _), .of_eq rfl rfl rfl rfl rfl⟩

theorem runOn_addPath (hq : env.workspace.canonical path = .ok q)
    (hdir : env.workspace.isDirectory (Path.ofString q.toString) = true) (s : Session) :
    ∃ paths, (addPath path).runOn env s = (.ok (), { s with loading.searchPath := paths }) := by
  have hcheck : (checkDirectory path q.toString).runOn env s = (.ok (), s) := by
    rw [checkDirectory, runOn_read_bind, if_pos hdir]
    rfl
  rw [addPath, runOn_bind, runOn_canonicalPath, hq]
  dsimp only
  rw [runOn_bind, hcheck]
  by_cases hmem : q.toString ∈ s.loading.searchPath
  · refine ⟨s.loading.searchPath, ?_⟩
    show (Except.ok (), if q.toString ∈ s.loading.searchPath then s else _) = _
    rw [if_pos hmem]
  · refine ⟨s.loading.searchPath ++ [q.toString], ?_⟩
    show (Except.ok (), if q.toString ∈ s.loading.searchPath then s else _) = _
    rw [if_neg hmem]

theorem runOn_addRoot (hroot : env.workspace.canonical path = .ok root)
    (hdir : env.workspace.isDirectory root = true) (s : Session) :
    ∃ paths, (addRoot root).runOn env s = (.ok (), { s with loading.searchPath := paths }) := by
  have hadd := fun s => runOn_addPath (Workspace.canonical_toString hroot)
    ((Workspace.ofString_of_canonical hroot).symm ▸ hdir) s
  have habove := fun s => runOn_addPath (Workspace.canonical_parent hroot)
    ((Workspace.ofString_of_canonical (Workspace.canonical_parent hroot)).symm ▸ Workspace.isDirectory_parent hroot hdir) s
  obtain ⟨paths, hpaths⟩ := hadd s
  rw [addRoot, runOn_bind, hpaths]
  dsimp only
  rw [runOn_read_bind]
  split
  · obtain ⟨paths', hpaths'⟩ := habove { s with loading.searchPath := paths }
    exact ⟨paths', hpaths'⟩
  · exact ⟨paths, rfl⟩

def collectedTexts (env : Environment) (root : Path) : List String :=
  (collectFiles env.workspace env.settings.excludes root).map Path.toString

theorem canonical_of_mem_collectedTexts (hw : env.workspace.top.WellFormed)
    (hroot : env.workspace.canonical path = .ok root) (hp : p ∈ collectedTexts env root) :
    (∃ q, env.workspace.canonical p = .ok q ∧ q.toString = p) ∧ (env.workspace.isFile (Path.ofString p) = true ∨
        env.workspace.lookup (Path.ofString p) = .error .nameTooLong) := by
  obtain ⟨q, hq, rfl⟩ := List.mem_map.1 hp
  obtain ⟨hcanonical, _, hlookup⟩ := Workspace.lookup_of_mem_collectFiles hw hroot hq
  rw [Workspace.ofString_of_canonical hcanonical]
  refine ⟨⟨q, hcanonical, rfl⟩, hlookup.imp_left ?_⟩
  rintro ⟨f, hf⟩
  rw [Workspace.isFile, hf]

theorem exists_runOn_loadBelow (hroot : env.workspace.canonical path = .ok root)
    (hdir : env.workspace.isDirectory root = true) (s : Session) : ∃ paths, (loadBelow path).runOn env s =
      (do loadAll (collectedTexts env root); return collectedTexts env root : Analysis (List String)).runOn env
        { s with loading.searchPath := paths } := by
  obtain ⟨paths, hpaths⟩ := runOn_addRoot hroot hdir s
  refine ⟨paths, ?_⟩
  have hread : Path.ofString root.toString = root := Workspace.ofString_of_canonical hroot
  obtain ⟨entries, hlookup⟩ : ∃ entries, env.workspace.lookup root = .ok (.directory entries) := by
    unfold Workspace.isDirectory at hdir
    split at hdir
    · exact ⟨_, by assumption⟩
    · cases hdir
  have hprobe : ∀ (test : Node → Bool), (probe test root).runOn env s = (.ok (test (.directory entries)), s) := by
    intro test
    rw [probe, runOn_read_bind, Workspace.probe, hlookup]
    rfl
  rw [loadBelow, loadBelowBy, runOn_bind, runOn_canonicalPath, hroot]
  dsimp only
  rw [hread, runOn_bind, hprobe]
  dsimp only
  rw [if_neg (by simp [Node.isFile]), runOn_bind, hprobe]
  dsimp only
  rw [if_pos (by simp [Node.isDirectory, Node.isFile]), loadDirectoryBy, runOn_bind, hpaths]
  rfl

end Root

section Outcome

/-- What has become of a collected file by the end of a step, seen from its beginning. -/
inductive Session.Fate (env : Environment) (s s' : Session) (path : String) : Prop
  | tooLong (long : env.workspace.lookup (Path.ofString path) = .error .nameTooLong)
  | known {m : ModuleId} (before : s.Announced (moduleNameOf path) m)
  | named {other : String} (loaded : other ∈ s'.loading.loaded) (same : moduleNameOf other = moduleNameOf path)
  | recorded {f : ParseFailure} (rejected : env.Rejects path f) (records : s'.Records f)

theorem Session.Calm.fate_of_mem (hs : s.Calm) (spared : env.injection ≠ some ⟨.resolving, .memory⟩)
    (hw : env.workspace.top.WellFormed) (hroot : env.workspace.canonical path = .ok root)
    (hrun : (Concordance.loadAll (collectedTexts env root)).runOn env s = (.ok (), s'))
    (hp : p ∈ collectedTexts env root) : s.Fate env s' p := by
  have hfiles : ∀ f ∈ collectedTexts env root, ∃ q, env.workspace.canonical f = .ok q := fun f hf =>
    (canonical_of_mem_collectedTexts hw hroot hf).1.imp fun _ hq => hq.1
  obtain ⟨before, after, s1, r, s2, hsplit, hbefore, hload, hafter⟩ := exists_turn hp hrun
  obtain ⟨⟨q, hcanonical, rfl⟩, hlookup⟩ := canonical_of_mem_collectedTexts hw hroot hp
  rw [hsplit, List.forall_mem_append, List.forall_mem_cons] at hfiles
  -- Before and after the turn of this file, others have theirs.
  obtain ⟨hs1, hon, hgains⟩ := hs.loadAll hfiles.1 hbefore
  have hturn : (Concordance.loadAll [q.toString]).runOn env s1 = (.ok (), s2) := by
    show (discard (load q.toString) >>= fun _ => pure ()).runOn env s1 = _
    rw [runOn_bind, runOn_discard, hload]
    rfl
  obtain ⟨hs2, _, hgains'⟩ := hs1.loadAll (by simpa using hfiles.2.1) hturn
  obtain ⟨_, _, hgains''⟩ := hs2.loadAll hfiles.2.2 hafter
  rcases hlookup with hfile | hlong
  · rcases hs1.load_fate spared hcanonical hfile hload with ⟨m, hm⟩ | hloaded | ⟨f, hrejected, hrecords⟩
    · rcases hon.fresh _ m hm with hold | hnew
      · exact .known hold
      · -- The module is new, and was made from a file of the same name, which has been loaded.
        obtain ⟨u, hu, hname⟩ := hs1.ordered.shelved.named _ m hm
        rcases hgains.opened rfl spared m u hu with hu' | hloaded
        · cases hnew.symm.trans hu'
        · exact .named (hgains''.loaded _ (hgains'.loaded _ hloaded)) hname
    · exact .named (hgains''.loaded _ hloaded) rfl
    · exact .recorded hrejected (hrecords.later hgains'')
  · exact .tooLong hlong

theorem Reachable.loadBelow_outcome (hs : Reachable s) (hw : env.workspace.top.WellFormed)
    (hroot : env.workspace.canonical path = .ok root) (hdir : env.workspace.isDirectory root = true) :
    (∃ f s', (loadBelow path).runOn env s = (.error f, s') ∧ env.Causes f) ∨
    ∃ s', (loadBelow path).runOn env s = (.ok (collectedTexts env root), s') ∧ s'.Calm ∧ s.Gains env true s' ∧
      (env.injection ≠ some ⟨.resolving, .memory⟩ → ∀ p ∈ collectedTexts env root, s.Fate env s' p) := by
  obtain ⟨paths, hload⟩ := exists_runOn_loadBelow hroot hdir s
  obtain ⟨hcalm, hon, hgains⟩ := hs.calm.searchPath env paths
  have hfiles : ∀ f ∈ collectedTexts env root, ∃ q, env.workspace.canonical f = .ok q := fun f hf =>
    (canonical_of_mem_collectedTexts hw hroot hf).1.imp fun _ hq => hq.1
  rw [hload, runOn_bind]
  rcases hrun : (loadAll (collectedTexts env root)).runOn env { s with loading.searchPath := paths } with ⟨f | _, s'⟩
  · obtain ⟨_, hout⟩ := (loadAll_settles (.loadBelow path) hfiles).run hcalm.idle hcalm.located
    rw [hrun] at hout
    refine .inl ⟨f, s', rfl, hout.2.resolve_right ?_⟩
    rintro rfl
    -- Fuel never runs out.
    refine (step_terminates hs env (.loadBelow path)).1 ?_
    show ((discard (loadBelow path)).runOn env s).1 = _
    rw [runOn_discard, hload, runOn_bind, hrun]
    rfl
  · obtain ⟨hcalm', _, hgains'⟩ := hcalm.loadAll hfiles hrun
    refine .inr ⟨s', rfl, hcalm', hgains.trans hgains', fun spared p hp => ?_⟩
    cases hcalm.fate_of_mem spared hw hroot hrun hp with
    | tooLong long => exact .tooLong long
    | known before =>
      -- The search path does not matter to what is known.
      exact .known before
    | named loaded same => exact .named loaded same
    | recorded rejected records => exact .recorded rejected records

/-- A file goes by a name that no module had before and no other file was loaded by. -/
structure Session.OwnName (s s' : Session) (path : String) : Prop where
  before : ∀ m, ¬ s.Announced (moduleNameOf path) m
  after : ∀ other ∈ s'.loading.loaded, moduleNameOf other = moduleNameOf path → other = path

/-- A file is accounted for: it is loaded if the parser gives a tree for it, and if the parser rejects it, it is not
loaded and this is recorded. -/
structure Session.AccountsFor (env : Environment) (s s' : Session) (path : String) : Prop where
  accepted : env.Accepts path → path ∈ s'.loading.loaded
  rejected : ∀ f, env.Rejects path f → s.loading.cache.units.get? path = none →
    s'.Records f ∧ path ∉ s'.loading.loaded

theorem Session.Fate.accounts (hs : s.Calm) (hfate : s.Fate env s' p) (hgains : s.Gains env true s')
    (hfile : env.workspace.isFile (Path.ofString p) = true) (hname : s.OwnName s' p) : s.AccountsFor env s' p := by
  -- A file that is newly loaded was in the cache or has a tree.
  have hsource : p ∈ s'.loading.loaded → s.loading.cache.units.get? p ≠ none ∨ env.Accepts p := by
    intro hp
    refine (hgains.sources p hp).resolve_left fun hold => ?_
    obtain ⟨m, hm, _⟩ := hs.ordered.filed.known p hold
    exact hname.before m hm
  have hnot : ∀ f, env.Rejects p f → s.loading.cache.units.get? p = none → p ∉ s'.loading.loaded := by
    rintro f hf hfresh hp
    rcases hsource hp with hcached | ⟨unit, haccepts⟩
    · exact hcached hfresh
    · cases hf.symm.trans haccepts
  cases hfate with
  | tooLong long =>
    rw [Workspace.isFile, long] at hfile
    cases hfile
  | known before => exact absurd before (hname.before _)
  | named loaded same =>
    obtain rfl := hname.after _ loaded same
    exact ⟨fun _ => loaded, fun f hf hfresh => absurd loaded (hnot f hf hfresh)⟩
  | recorded rejected records =>
    refine ⟨?_, fun f hf hfresh => ⟨?_, hnot f hf hfresh⟩⟩
    · rintro ⟨unit, haccepts⟩
      cases rejected.symm.trans haccepts
    · cases rejected.symm.trans hf
      exact records

/-- All files below a directory are accounted for, unless there is a cause for a fault. Loading a directory of a
well-formed workspace either ends with a fault that the environment causes, or it gives the source files below the
directory in their order; then every one of them can be opened unless its path is too long, and is accounted for if it
goes by a name of its own: it is loaded if it has a tree, whatever the parser makes of the other files, and its failure is
recorded if it has none. -/
theorem loadBelow_accounts_for_files (hs : Reachable s) (hw : env.workspace.top.WellFormed)
    (hroot : env.workspace.canonical path = .ok root) (hdir : env.workspace.isDirectory root = true) :
    (∃ f s', (loadBelow path).runOn env s = (.error f, s') ∧ env.Causes f) ∨
    ∃ s', (loadBelow path).runOn env s = (.ok (collectedTexts env root), s') ∧
      ∀ p ∈ collectedTexts env root, env.workspace.lookup (Path.ofString p) = .error .nameTooLong ∨
        env.workspace.isFile (Path.ofString p) = true ∧
          (env.injection ≠ some ⟨.resolving, .memory⟩ → s.OwnName s' p → s.AccountsFor env s' p) := by
  rcases hs.loadBelow_outcome hw hroot hdir with hfault | ⟨s', hrun, _, hgains, hfates⟩
  · exact .inl hfault
  · refine .inr ⟨s', hrun, fun p hp => ?_⟩
    rcases (canonical_of_mem_collectedTexts hw hroot hp).2 with hfile | hlong
    · exact .inr ⟨hfile, fun spared hname => (hfates spared p hp).accounts hs.calm hgains hfile hname⟩
    · exact .inl hlong

def oneRejected : Environment where
  workspace := .ofFiles [("a.py", ⟨.empty, .failure "expected an expression" 1 0⟩), ("b.py", ⟨.empty, .tree default⟩)]
    [] none
  settings := default

theorem oneRejected_wellFormed : oneRejected.workspace.top.WellFormed := by
  refine Workspace.wellFormed_ofFiles ?_ (by simp) none
  unfold Text.NullFree
  decide

theorem oneRejected_rejects : oneRejected.Rejects "/w/a.py" ⟨"/w/a.py", "expected an expression", 1, 0, false⟩ := by
  have hread : (oneRejected.reading "/w/a.py").map (Except.map fun _ => ()) =
      .ok (.error ⟨"/w/a.py", "expected an expression", 1, 0, false⟩) := by decide +kernel
  unfold Environment.Rejects
  rcases h : oneRejected.reading "/w/a.py" with _ | _ | _ <;> rw [h] at hread <;> cases hread
  rfl

/-- A file on which the parser breaks down comes before one that has a tree. -/
def oneBroken : Environment where
  workspace := .ofFiles [("a.py", ⟨.empty, .invalid⟩), ("b.py", ⟨.empty, .tree default⟩)] [] none
  settings := default

-- The library is made for each evaluation, so both are done at once.
theorem oneRejected_and_oneBroken_load :
    (((loadBelow "/w").runOn oneRejected .empty).1 = .ok ["/w/a.py", "/w/b.py"] ∧
      ((loadBelow "/w").runOn oneRejected .empty).2.loading.loaded = ["/w/b.py"]) ∧
    ((loadBelow "/w").runOn oneBroken .empty).1 = .error .invalidTree ∧
    ((loadBelow "/w").runOn oneBroken .empty).2.loading.loaded = [] ∧
    ((loadBelow "/w").runOn oneBroken .empty).2.loading.failed = [] := by decide +kernel

theorem not_announced_empty (q : String) (m : ModuleId) : ¬ Session.empty.Announced q m := by
  intro hm
  obtain ⟨u, hu, _⟩ := Reachable.empty.calm.ordered.shelved.named q m hm
  cases hu

theorem loadBelow_accounts_for_files_oneRejected : ∃ s', (loadBelow "/w").runOn oneRejected .empty =
    (.ok ["/w/a.py", "/w/b.py"], s') ∧ "/w/b.py" ∈ s'.loading.loaded ∧
      s'.Records ⟨"/w/a.py", "expected an expression", 1, 0, false⟩ := by
  have hcollected : collectedTexts oneRejected ⟨"/", ["w"]⟩ = ["/w/a.py", "/w/b.py"] := by decide +kernel
  have hnames : moduleNameOf "/w/b.py" ≠ moduleNameOf "/w/a.py" := by decide +kernel
  rcases loadBelow_accounts_for_files Reachable.empty oneRejected_wellFormed
    (show oneRejected.workspace.canonical "/w" = .ok ⟨"/", ["w"]⟩ by decide +kernel) (by decide +kernel)
    with ⟨f, s', hrun, _⟩ | ⟨s', hrun, haccounts⟩
  · have hok := oneRejected_and_oneBroken_load.1.1
    rw [hrun] at hok
    cases hok
  · have hloaded := oneRejected_and_oneBroken_load.1.2
    rw [hrun] at hloaded
    rw [hcollected] at hrun haccounts
    refine ⟨s', hrun, hloaded ▸ List.mem_singleton_self _, ?_⟩
    obtain hlong | ⟨_, hfile⟩ := haccounts "/w/a.py" (by simp)
    · have hfile : oneRejected.workspace.isFile (Path.ofString "/w/a.py") = true := by decide +kernel
      rw [Workspace.isFile, hlong] at hfile
      cases hfile
    · -- The only file that is loaded goes by another name.
      refine ((hfile (by decide) ⟨not_announced_empty _, fun other hother => ?_⟩).rejected _ oneRejected_rejects rfl).1
      cases List.mem_singleton.1 (hloaded ▸ hother)
      exact fun hsame => absurd hsame hnames

/-- Files are not always accounted for: where the parser breaks down on one of them, loading the directory ends with its
fault. Neither is this file recorded, nor is the other one loaded. -/
theorem parser_breakdown_stops_loadBelow : oneBroken.workspace.isDirectory (Path.ofString "/w") = true ∧
    ((loadBelow "/w").runOn oneBroken .empty).1 = .error .invalidTree ∧
    ((loadBelow "/w").runOn oneBroken .empty).2.loading.loaded = [] ∧
    ((loadBelow "/w").runOn oneBroken .empty).2.loading.failed = [] :=
  ⟨by decide +kernel, oneRejected_and_oneBroken_load.2⟩

end Outcome

end Concordance
