import Concordance.Proofs.Inference.Task

/-!
# Loading

Reading a file finds its unit in the cache, adds it or fails. Loading a file opens its unit and evaluates the
statements as a run of their own; the stack of files is put back whatever happens.
-/

namespace Concordance

open Syntax (Item ownItems)
open Text (NullFree)

namespace UnitCache

/-- What reading a path can do to the cache, and what it gives. -/
inductive Reads (shortage : Option Resource) (w : Workspace) (path : String) (c : UnitCache) :
    Except Fault (Except ParseFailure SourceUnit) × UnitCache → Prop
  | kept (unit : SourceUnit) (known : c.units.get? path = some unit) : Reads shortage w path c (.ok (.ok unit), c)
  | parsed (file : File) (tree : Syntax.Module) (unharmed : shortage = none) (absent : c.units.get? path = none)
      (found : w.read (Path.ofString path) = .ok file) (outcome : file.outcome = .tree tree) :
      Reads shortage w path c
        (.ok (.ok ⟨c.parses, path, file.source, tree⟩), c.keep ⟨c.parses, path, file.source, tree⟩)
  | failed (f : ParseFailure) : Reads shortage w path c (.ok (.error f), c)
  | short (f : ParseFailure) (memory : shortage = some .memory) : Reads shortage w path c (.ok (.error f), c.clear)
  | invalid (file : File) (found : w.read (Path.ofString path) = .ok file) (outcome : file.outcome = .invalid) :
      Reads shortage w path c (.error .invalidTree, c)
  | nullCharacter (null : w.read (Path.ofString path) = .error .nullCharacter) :
      Reads shortage w path c (.error .nullCharacter, c)

theorem parse_reads (absent : c.units.get? path = none) (found : w.read (Path.ofString path) = .ok file) :
    Reads shortage w path c ((parse shortage path file.source file.outcome).run.run c) := by
  unfold parse
  split
  · exact .failed _
  · exact .short _ rfl
  · exact .failed _
  · rename_i houtcome
    exact .invalid file found houtcome
  · rename_i tree houtcome
    exact .parsed file tree rfl absent found houtcome

theorem run_get_bind (f : UnitCache → Parsing) (c : UnitCache) :
    (ExceptT.run (get >>= f)).run c = (f c).run.run c := rfl

theorem read_reads (shortage : Option Resource) (w : Workspace) (path : String) (c : UnitCache) :
    Reads shortage w path c ((read shortage w path).run.run c) := by
  rw [read, run_get_bind]
  cases hunit : c.units.get? path with
  | some unit => exact .kept unit hunit
  | none =>
    cases hread : w.read (Path.ofString path) with
    | error e =>
      cases e with
      | nullCharacter => exact .nullCharacter hread
      | _ => exact .failed _
    | ok file =>
      dsimp only
      split
      · exact parse_reads hunit hread
      · split
        · exact .failed _
        · exact .failed _

def readFresh (shortage : Option Resource) (w : Workspace) (path : String) : Parsing :=
  match w.read (Path.ofString path) with
  | .error .nullCharacter => throw .nullCharacter
  | .error e => return .error ⟨path, "cannot read file: " ++ e.message (Path.ofString path), 0, 0, false⟩
  | .ok file =>
    if file.source.validateUTF8 then parse shortage path file.source file.outcome
    else match file.outcome with
      | .failure reason line column => return .error ⟨path, reason, line, column, false⟩
      | _ => return .error ⟨path, "cannot read file: no text", 0, 0, false⟩

theorem run_read (shortage : Option Resource) (w : Workspace) (path : String) (c : UnitCache) :
    (read shortage w path).run.run c = match c.units.get? path with
      | some unit => (.ok (.ok unit), c)
      | none => (readFresh shortage w path).run.run c := by
  show (match c.units.get? path with
    | some unit => (return .ok unit : Parsing)
    | none => readFresh shortage w path).run.run c = _
  cases c.units.get? path <;> rfl

theorem readFresh_alike (shortage : Option Resource) (w : Workspace) (path : String) (c c' : UnitCache) :
    ((readFresh shortage w path).run.run c).1.map (Except.map fun _ => ()) =
      ((readFresh shortage w path).run.run c').1.map (Except.map fun _ => ()) := by
  unfold readFresh
  split
  · rfl
  · rfl
  · split
    · unfold parse
      split <;> rfl
    · split <;> rfl

theorem read_alike (env : Environment) (absent : c.units.get? path = none) :
    ((read env.shortage env.workspace path).run.run c).1.map (Except.map fun _ => ()) =
      (env.reading path).map (Except.map fun _ => ()) := by
  rw [Environment.reading, run_read, run_read, absent]
  exact readFresh_alike ..

theorem accepts_of_read {env : Environment} (absent : c.units.get? path = none)
    (hread : (read env.shortage env.workspace path).run.run c = (.ok (.ok unit), c')) : env.Accepts path := by
  have halike := read_alike env absent
  rw [hread] at halike
  rw [Environment.Accepts]
  generalize env.reading path = result at halike ⊢
  rcases result with e | f | unit'
  · cases halike
  · cases halike
  · exact ⟨unit', rfl⟩

theorem rejects_of_read {env : Environment} (absent : c.units.get? path = none)
    (hread : (read env.shortage env.workspace path).run.run c = (.ok (.error f), c')) : env.Rejects path f := by
  have halike := read_alike env absent
  rw [hread] at halike
  rw [Environment.Rejects]
  generalize env.reading path = result at halike ⊢
  rcases result with e | g | unit
  · cases halike
  · cases halike
    rfl
  · cases halike

end UnitCache

namespace Regime

/-- Work that asks no evaluator may always be done. Apart from what the environment causes, the given faults may
end it. -/
def still (env : Environment) (F : Fault → Prop) : Regime env where
  ready _ _ _ := True
  faults f := env.Causes f ∨ F f
  faults_of_cause _ hf := .inl hf
  params _ _ := trivial
  run _ _ := trivial
  addClass _ _ _ := trivial
  enter _ _ _ _ _ _ := trivial
  enterFile _ _ _ _ _ := trivial

/-- Work that asks no evaluator ends with faults that the environment causes. -/
abbrev bare (env : Environment) : Regime env := still env fun _ => False

theorem bare_allows (R : Regime env) (hf : (bare env).Allows f) : R.Allows f :=
  ⟨R.faults_of_cause f (hf.1.resolve_right id), hf.2⟩

end Regime

variable {env : Environment} {R : Regime env}

section Files

def Regime.Takes (R : Regime env) (path : String) : Prop := ∀ f, env.workspace.canonical path = .error f → R.faults f

theorem Regime.takes_of_nullFree (R : Regime env) (hp : NullFree path) : R.Takes path :=
  fun f hf => R.faults_of_cause f (Environment.causes_of_canonical hp hf)

theorem Regime.still_takes (hp : ∀ f, env.workspace.canonical path = .error f → F f) :
    (still env F).Takes path := fun f hf => .inr (hp f hf)

theorem canonicalPath_agrees (hpath : R.Takes path) :
    Agrees R n D s (canonicalPath path) (canonicalPath path) fun p s' => env.Names path p ∧ s' = s := by
  refine .read_bind ?_
  split
  · rename_i p hp
    exact .pure ⟨⟨p, hp, rfl⟩, rfl⟩
  · rename_i f hf
    refine .throw (R.allows_of_ne (hpath f hf) fun r hr => ?_)
    simp only [Workspace.canonical] at hf
    split at hf <;> cases hf
    cases hr

theorem cachedModule_agrees (path : String) :
    Agrees R n D s (cachedModule? path) (cachedModule? path) fun _ s' => s'.loading = s.loading := by
  refine .theHeap_bind ?_
  split
  · exact .pure rfl
  · refine .bind (.lift_frame (typeOfBindings_value _)) ?_
    rintro _ s1 _ ⟨_, hframe⟩
    refine .theHeap_bind (.pure ?_)
    rw [hframe]
    rfl

theorem recordParseFailure_agrees (hf : R.faults .badMarkup ∨ env.Fails f) :
    Agrees R n D s (recordParseFailure f) (recordParseFailure f) fun _ _ => True := by
  refine .bind (Q := fun _ _ => True) (.change (.parseFailure f) trivial) fun _ _ _ _ => ?_
  refine (log_agrees fun shown wrong => ?_).mono fun _ _ _ _ => trivial
  rcases hf with hallowed | hfails
  · exact hallowed
  · exact R.faults_of_cause _ (.warning hfails shown wrong)

theorem runOn_parsing (work : Option Resource → Parsing) :
    (parsing work).runOn env s = (parsingResult ((work env.shortage).run.run s.loading.cache).1).runOn env
      { s with loading.cache := ((work env.shortage).run.run s.loading.cache).2 } := rfl

theorem parsingResult_agrees (r : Except ParseFailure SourceUnit) :
    Agrees R n D s (parsingResult (.ok r)) (parsingResult (.ok r)) fun r' s' => r' = r ∧ s'.loading = s.loading := by
  cases r with
  | ok unit => exact .pure ⟨rfl, rfl⟩
  | error f =>
    simp only [parsingResult]
    split
    · refine .bind (trace_agrees _) ?_
      rintro _ s' _ ⟨_, hs'⟩
      exact .pure ⟨rfl, by rw [hs']⟩
    · exact .pure ⟨rfl, rfl⟩

theorem readFile_agrees (canonical : env.IsCanonical path)
    (found : env.workspace.isFile (Path.ofString path) = true) :
    Agrees R n D s (parseSource path none) (parseSource path none)
      fun r s' => (∀ unit, r = .ok unit → s'.loading.cache.units.get? path = some unit) ∧
        ∀ f, r = .error f → env.Fails f := by
  refine .read_bind ⟨fun hs hready => ⟨rfl, ?_⟩⟩
  rw [runOn_parsing]
  rcases hread : (UnitCache.read env.shortage env.workspace path).run.run s.loading.cache with ⟨r, c⟩
  have hreads := UnitCache.read_reads env.shortage env.workspace path s.loading.cache
  rw [hread] at hreads
  -- However the reading went, its result is passed on from the session that it left.
  have hrest : ∀ (r : Except ParseFailure SourceUnit) (s' : Session), Run env D true s s' → s'.IsSound →
      (∀ unit, r = .ok unit → s'.loading.cache.units.get? path = some unit) → (∀ f, r = .error f → env.Fails f) →
      Ends R D s (fun r s' => (∀ unit, r = .ok unit → s'.loading.cache.units.get? path = some unit) ∧
        ∀ f, r = .error f → env.Fails f) ((parsingResult (.ok r)).runOn env s') := by
    intro r s' hr hs' hcached hfails
    refine Ends.after hr (((parsingResult_agrees r).mono ?_).run hs' (R.run hready hr)).2
    rintro _ s'' _ ⟨rfl, hloading⟩
    refine ⟨fun unit hunit => ?_, hfails⟩
    rw [hloading]
    exact hcached unit hunit
  cases hreads with
  | kept unit known => exact hrest (.ok unit) s .refl hs (by simpa using known) (by simp)
  | parsed file tree unharmed absent found outcome =>
    have hr : Run env D true s { s with loading.cache := s.loading.cache.keep ⟨_, path, file.source, tree⟩ } :=
      .change (.parse _ ⟨canonical, absent, ⟨file, found, outcome⟩, rfl, unharmed, UnitCache.accepts_of_read absent hread⟩)
    refine hrest (.ok _) _ hr (hr.isSound hs) ?_ (by simp)
    rintro unit ⟨⟩
    exact Table.get?_insert_self ..
  | failed f =>
    refine hrest (.error f) s .refl hs (by simp) ?_
    rintro _ ⟨⟩
    exact .read found hread
  | short f memory =>
    have hr : Run env D true s { s with loading.cache := s.loading.cache.clear } := .change (.forget memory)
    refine hrest (.error f) _ hr (hr.isSound hs) (by simp) ?_
    rintro _ ⟨⟩
    exact .read found hread
  | invalid file found outcome => exact ⟨.stop .refl, R.allows_of_cause (.invalidTree found outcome)⟩
  | nullCharacter null =>
    -- A path that leads to a file has no null characters.
    simp only [Workspace.read, Workspace.isFile] at null found
    split at found
    · rename_i hlookup
      rw [hlookup] at null
      cases null
    · cases found

theorem announceUnit_agrees (unit : SourceUnit) (m : ModuleId) :
    Agrees R n D s (announceUnit unit m) (announceUnit unit m) fun _ _ => True := by
  refine .of_sound fun hs => .theHeap_bind ?_
  refine .bind (Q := fun _ _ => True) ((bindIn_agrees (hs.heap.modules m)).discard fun _ _ _ h => h) fun _ _ _ _ => ?_
  exact (trace_agrees _).mono fun _ _ _ _ => trivial

theorem openUnit_opens (env : Environment) (hs : s.IsSound)
    (cached : s.loading.cache.units.get? unit.path = some unit) :
    ∃ m s1, Run env (fun _ _ => False) true s s1 ∧ s1.Opens m unit ∧
      (openUnit unit).runOn env s = (.ok m, s1.addUnit m unit) := by
  generalize hmodule : newModule (Path.ofString unit.path).moduleName (some unit.path) (some Session.globals)
    (Path.ofString unit.path).qualifiedName = work
  have hwork : Does s.heap work fun m h => m.index = s.heap.modules.size ∧ m.index < h.modules.size :=
    hmodule ▸ newModule_does ..
  obtain ⟨he, hindex, hmade⟩ := hwork.run hs.heap
  refine ⟨(work.run s.heap).1, s.withHeap (work.run s.heap).2, .of_evolves he, ⟨cached, hmade, fun hm => ?_⟩, ?_⟩
  · -- Modules are numbered in order, and the units are those of modules that exist.
    have hlt := hs.opened _ hm
    rw [hindex] at hlt
    exact Nat.lt_irrefl _ hlt
  · rw [← hmodule]
    rfl

/-- A path has to be loaded: it is not being loaded, and unless a text is given for it, it is that of a file. -/
structure Session.Lacks (s : Session) (env : Environment) (path : String) (isText : Bool) (p : String) : Prop where
  names : env.Names path p
  outside : p ∉ s.loading.stack
  found : isText = false → env.workspace.isFile (Path.ofString p) = true

theorem needFor_agrees (hpath : R.Takes path) (isText : Bool) :
    Agrees R n D s (needFor path isText) (needFor path isText) fun need s' =>
      s'.loading = s.loading ∧ ∀ p, need = .load p → s'.Lacks env path isText p := by
  refine .bind (canonicalPath_agrees hpath) ?_
  rintro p s1 _ ⟨hcanonical, hs1⟩
  refine .read_bind ?_
  subst hs1
  -- A file that need not be loaded is mentioned in the log.
  have hsettled : ∀ (text : String) (m : Option ModuleId) (s2 : Session), s2.loading = s1.loading →
      Agrees R n D s2 (do trace text; return Need.settled m) (do trace text; return Need.settled m)
        fun need s' => s'.loading = s1.loading ∧ ∀ p, need = .load p → s'.Lacks env path isText p := by
    intro text m s2 hloading
    refine .bind (trace_agrees text) ?_
    rintro _ s3 _ ⟨lines, hs3⟩
    refine .pure ⟨?_, by simp⟩
    rw [hs3]
    exact hloading
  split
  · exact hsettled _ _ _ rfl
  · rename_i hfile
    refine .get_bind ?_
    split
    · exact hsettled _ _ _ rfl
    · rename_i hnot
      refine .bind (cachedModule_agrees p) fun m s2 _ hloading => ?_
      cases m with
      | some m => exact hsettled _ _ _ hloading
      | none =>
        refine .pure ⟨hloading, fun q hq => ?_⟩
        cases hq
        refine ⟨hcanonical, hloading ▸ hnot, ?_⟩
        rintro rfl
        simpa using hfile

end Files

/-- What may be said of how work ends, if it can be said of every run. -/
structure Admits {α : Type} (env : Environment) (s : Session) (E : Except Fault α × Session → Prop) : Prop where
  ok : ∀ a s', Run env (fun _ _ => False) true s s' → E (.ok a, s')
  error : ∀ f s', Run env (fun _ _ => False) false s s' → (Regime.bare env).Allows f → E (.error f, s')

theorem Admits.ends (R : Regime env) (D : UnitRef → Item → Prop) (s : Session) :
    Admits (α := α) env s (Ends R D s fun _ _ => True) where
  ok _ _ hr := ⟨hr.mono fun _ _ h => h.elim, trivial⟩
  error _ _ hr hf := ⟨hr.mono fun _ _ h => h.elim, R.bare_allows hf⟩

/-- Work that goes on while a file is being loaded, and what can be said of the session before the loading and
the one after it, when the file is off the stack. -/
structure Leaves {α : Type} (env : Environment) (E : Except Fault α × Session → Prop) (s : Session) (path : String)
    (s1 : Session) (x y : Analysis α) : Prop where
  run : s1.IsSound → Run env (fun _ _ => False) true (s.enterFile path) s1 →
    x.runOn env s1 = y.runOn env s1 ∧ E ((x.runOn env s1).1, (x.runOn env s1).2.leaveFile s.loading)

section Loads

variable (canonical : env.IsCanonical path) (outside : path ∉ s.loading.stack) {β : Type}
  {E : Except Fault β × Session → Prop} (hE : Admits env s E)
include canonical outside hE

theorem Leaves.pure (b : β) : Leaves env E s path s1 (Pure.pure b : Analysis β) (Pure.pure b) :=
  ⟨fun _ hr => ⟨rfl, hE.ok b _ (.loadFailed path canonical outside hr)⟩⟩

theorem Leaves.bind (hx : Agrees (.bare env) 0 (fun _ _ => False) s1 x x Q)
    (hf : ∀ a s2, s1.Later s2 → Q a s2 → Leaves env E s path s2 (f a) (g a)) :
    Leaves env E s path s1 (x >>= f) (x >>= g) := by
  refine ⟨fun hs1 hr => ?_⟩
  have hends := (hx.run hs1 trivial).2
  rw [runOn_bind, runOn_bind]
  rcases hrun : x.runOn env s1 with ⟨e | a, s2⟩ <;> rw [hrun] at hends
  · exact ⟨rfl, hE.error _ _ (.loadFailed path canonical outside (hr.trans hends.1)) hends.2⟩
  · exact (hf a s2 hends.1.later hends.2).run (hends.1.isSound hs1) (hr.trans hends.1)

end Loads

theorem runOn_withFile (path : String) (work : Analysis α) : (withFile path work).runOn env s =
    ((trace ("loading " ++ path) >>= fun _ => work).runOn env (s.enterFile path) |>.1,
      ((trace ("loading " ++ path) >>= fun _ => work).runOn env (s.enterFile path)).2.leaveFile s.loading) := rfl

section Resolution

theorem runOn_block_of_starved (hr : env.injection = some ⟨.resolving, r⟩) (ev : Evaluator)
    (place : Place) (b : List Syntax.Stmt) : (block ev place b).runOn env s = (.error (.exhausted r), s) := by
  have hcheck : checkShortage.runOn env s = (.error (.exhausted r), s) := by
    rw [checkShortage, runOn_read_bind, hr]
    rfl
  unfold block
  rw [runOn_bind, hcheck]

/-- How the resolution of a unit ends, seen from the session before its file was entered. -/
def Resolved (R : Regime env) (D : UnitRef → Item → Prop) (s : Session) (path : String) :
    Except Fault ModuleId × Session → Prop
  | (.ok _, s') => Run env D true s ((s'.addLoaded path).leaveFile s.loading)
  | (.error f, s') => Run env D false s (s'.leaveFile s.loading) ∧ R.Allows f

theorem resolveModule_starved (hinj : env.injection = some ⟨.resolving, r⟩) (ev ev' : Evaluator)
    (unit : SourceUnit) (m : ModuleId) :
    Agrees R n D s (resolveModule ev unit m) (resolveModule ev' unit m) fun _ _ => False := by
  refine .bind (announceUnit_agrees unit m) fun _ s1 _ _ => .theHeap_bind ⟨fun _ _ => ?_⟩
  rw [runOn_bind, runOn_bind, runOn_block_of_starved hinj, runOn_block_of_starved hinj]
  exact ⟨rfl, .stop .refl, R.allows_of_cause (.exhausted hinj)⟩

theorem resolveModule_agrees (fits : Fits R ev ev') (unit : SourceUnit) (m : ModuleId) :
    Agrees R unit.tree.size unit.Owns s (resolveModule ev unit m) (resolveModule ev' unit m)
      fun _ s' => s'.Did unit.ref (ownItems.block unit.tree.body) := by
  refine .bind (announceUnit_agrees unit m) fun _ s1 _ _ => .theHeap_bind ?_
  obtain ⟨place, hplace⟩ : ∃ place : Place, place = ⟨unit.ref, (s1.heap.module m).table⟩ := ⟨_, rfl⟩
  have hunit : place.unit = unit.ref := hplace ▸ rfl
  have hbody : Agrees R unit.tree.size unit.Owns s1 (block ev place unit.tree.body) (block ev' place unit.tree.body)
      fun _ s' => s'.Did unit.ref (ownItems.block unit.tree.body) := by
    refine (block_agrees fits unit.tree.body (Nat.lt_succ_self _) fun x hx => ⟨hunit, hx⟩).mono fun _ _ _ h => ?_
    exact hunit ▸ h.2
  rw [hplace] at hbody
  exact .bind hbody fun _ _ _ hdid => .pure hdid

theorem resolveUnit_resolved (fits : Fits R ev ev') (hready : R.ready n D s)
    (canonical : env.IsCanonical unit.path) (outside : unit.path ∉ s.loading.stack) (hs1 : s1.IsSound)
    (cached : s1.loading.cache.units.get? unit.path = some unit)
    (hr : Run env (fun _ _ => False) true (s.enterFile unit.path) s1) :
    (resolveUnit ev unit).runOn env s1 = (resolveUnit ev' unit).runOn env s1 ∧
      Resolved R D s unit.path ((resolveUnit ev unit).runOn env s1) := by
  obtain ⟨m, s2, hr2, opens, hopen⟩ := openUnit_opens env hs1 cached
  have hparsing : Run env (fun _ _ => False) true (s.enterFile unit.path) s2 := hr.trans hr2
  obtain ⟨heq, hends⟩ := (resolveModule_agrees fits unit m).run ((hr2.isSound hs1).addUnit unit opens.made)
    (R.enterFile hready canonical outside hparsing opens)
  unfold resolveUnit
  rw [runOn_bind, runOn_bind, hopen]
  dsimp only
  rw [runOn_bind, runOn_bind, ← heq]
  rcases hrun : (resolveModule ev unit m).runOn env (s2.addUnit m unit) with ⟨e | _, s3⟩ <;> rw [hrun] at hends
  · exact ⟨rfl, .loadBroken m unit canonical outside hparsing opens hends.1, hends.2⟩
  · exact ⟨rfl, .load m unit canonical outside hparsing opens hends.1 hends.2⟩

theorem runOn_loadUnit_of_ok (hrun : (resolveUnit ev unit).runOn env s1 = (.ok m, s2)) :
    (loadUnit ev path unit).runOn env s1 = (.ok (some m), s2.addLoaded path) := by
  unfold loadUnit
  rw [runOn_bind, runOn_tryCatch, map_eq_pure_bind, runOn_bind, hrun]
  rfl

theorem runOn_loadUnit_of_error (hf : f ≠ .exhausted .memory)
    (hrun : (resolveUnit ev unit).runOn env s1 = (.error f, s2)) :
    (loadUnit ev path unit).runOn env s1 = (.error f, s2) := by
  unfold loadUnit
  rw [runOn_bind, runOn_tryCatch, map_eq_pure_bind, runOn_bind, hrun]
  dsimp only
  rw [if_neg hf]
  rfl

theorem runOn_loadUnit_of_memory (hrun : (resolveUnit ev unit).runOn env s1 = (.error (.exhausted .memory), s2)) :
    (loadUnit ev path unit).runOn env s1 =
      (((abandonModule path).runOn env s2).1.map fun _ => none, ((abandonModule path).runOn env s2).2) := by
  unfold loadUnit
  rw [runOn_bind, runOn_tryCatch, map_eq_pure_bind, runOn_bind, hrun]
  dsimp only
  rw [if_pos rfl, runOn_bind]
  rcases (abandonModule path).runOn env s2 with ⟨e | _, s3⟩ <;> rfl

theorem loadUnit_leaves (fits : Fits R ev ev') (hready : R.ready n D s)
    (canonical : env.IsCanonical path) (outside : path ∉ s.loading.stack)
    (spared : env.injection ≠ some ⟨.resolving, .memory⟩) (cached : s1.loading.cache.units.get? path = some unit) :
    Leaves env (Ends R D s fun _ _ => True) s path s1 (loadUnit ev path unit) (loadUnit ev' path unit) := by
  refine ⟨fun hs1 hr => ?_⟩
  obtain rfl := hs1.cached path unit cached
  obtain ⟨heq, hresolved⟩ := resolveUnit_resolved fits hready canonical outside hs1 cached hr
  rcases hrun : (resolveUnit ev unit).runOn env s1 with ⟨f | m, s2⟩ <;> rw [hrun] at heq hresolved
  · have hf : f ≠ .exhausted .memory := fun hf => spared (hresolved.2.2 _ hf)
    rw [runOn_loadUnit_of_error hf hrun, runOn_loadUnit_of_error hf heq.symm]
    exact ⟨rfl, hresolved⟩
  · rw [runOn_loadUnit_of_ok hrun, runOn_loadUnit_of_ok heq.symm]
    exact ⟨rfl, hresolved, trivial⟩

theorem loadParsed_leaves (fits : Fits R ev ev') (hready : R.ready n D s)
    (canonical : env.IsCanonical path) (outside : path ∉ s.loading.stack)
    (spared : env.injection ≠ some ⟨.resolving, .memory⟩)
    (cached : ∀ unit, parsed = .ok unit → s1.loading.cache.units.get? path = some unit)
    (fails : ∀ f, parsed = .error f → env.Fails f) :
    Leaves env (Ends R D s fun _ _ => True) s path s1 (loadParsed ev path parsed) (loadParsed ev' path parsed) := by
  have hE := Admits.ends (α := Option ModuleId) R D s
  cases parsed with
  | error f =>
    refine .bind canonical outside hE (recordParseFailure_agrees (.inr (fails f rfl))) fun _ _ _ _ => ?_
    exact .pure canonical outside hE none
  | ok unit => exact loadUnit_leaves fits hready canonical outside spared (cached unit rfl)

theorem loadFile_agrees (fits : Fits R ev ev') (spared : env.injection ≠ some ⟨.resolving, .memory⟩) (hpath : R.Takes path) :
    Agrees R n D s (loadFile ev path) (loadFile ev' path) fun _ _ => True := by
  refine .bind (needFor_agrees hpath _) ?_
  rintro need s1 _ ⟨_, hneed⟩
  cases need with
  | settled m => exact .pure trivial
  | load p =>
    obtain ⟨hnames, hout, hfound⟩ := hneed p rfl
    have hcanonical : env.IsCanonical p := ⟨path, hnames⟩
    refine ⟨fun hs hready => ?_⟩
    have hE := Admits.ends (α := Option ModuleId) R D s1
    have hleaves : Leaves env (Ends R D s1 fun _ _ => True) s1 p (s1.enterFile p)
        (do trace ("loading " ++ p); loadParsed ev p (← parseSource p none))
        (do trace ("loading " ++ p); loadParsed ev' p (← parseSource p none)) := by
      refine .bind hcanonical hout hE (trace_agrees _) fun _ s2 _ _ => ?_
      refine .bind hcanonical hout hE (readFile_agrees hcanonical (hfound rfl)) fun parsed s3 _ hparsed => ?_
      exact loadParsed_leaves fits hready hcanonical hout spared hparsed.1 hparsed.2
    have hs2 : (s1.enterFile p).IsSound := hs.enterFile p
    obtain ⟨heq, hends⟩ := hleaves.run hs2 .refl
    dsimp only
    rw [runOn_withFile, runOn_withFile]
    exact ⟨by rw [heq], hends⟩

end Resolution

end Concordance
