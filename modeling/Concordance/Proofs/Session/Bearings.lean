import Concordance.Proofs.Session.Modules

/-!
# Where imports look

A relative import starts from the current directory, and others search it among the directories of the search path. The
current directory is that of the file whose loading began last, of those that are being loaded.
-/

namespace Concordance

open Syntax (Piece Enclosed piecesOf)

variable {env : Environment} {s s' : Session}

/-- Imports look in a directory, if there is one: relative imports start from it and go up by their level, and others
search it before the search path, unless it is on that path. -/
structure Session.LooksIn (s : Session) (directory : Option String) : Prop where
  base : ∀ (env : Environment) (level : Nat), (relativeBase level).runOn env s =
    (.ok (directory.map fun d => (List.range (level - 1)).foldl (fun d _ => directoryOf d) d), s)
  search : ∀ env : Environment, searchOrder.runOn env s =
    (.ok (directory.elim s.loading.searchPath fun d =>
      if d ∈ s.loading.searchPath then s.loading.searchPath else d :: s.loading.searchPath), s)

theorem Session.looksIn_directory (s : Session) : s.LooksIn s.loading.directory where
  base env level := by
    rw [relativeBase, runOn_get_bind]
    cases s.loading.directory <;> rfl
  search env := by
    rw [searchOrder, runOn_get_bind]
    dsimp only
    cases s.loading.directory <;> rfl

theorem Session.Ordered.looksIn (ho : s.Ordered) : s.LooksIn (s.loading.stack.head?.map directoryOf) :=
  ho.filed.directory ▸ s.looksIn_directory

theorem Session.Ordered.looksIn_loadFile (ho : s.Ordered) (env : Environment) (fuel : Nat) (path : String)
    (text : Option (ByteArray × ParseOutcome)) :
    ((loadFile (.withFuel fuel) path text).runOn env s).2.LooksIn (s.loading.stack.head?.map directoryOf) := by
  have htracks : Tracks env s s (loadFile (.withFuel fuel) path text) (loadFile (.withFuel fuel) path text) :=
    loadFile_tracks (.withFuel fuel) path text
  obtain ⟨hon, ho', _⟩ := htracks.run s (.refl s) ho
  exact hon.stack ▸ ho'.looksIn

/-- Where imports in a piece of code look: in the directory of the file whose loading began last, also after a file has
been loaded in between, and this is the file of the code unless the code is somewhere in the body of a function. -/
structure Session.Oriented (s : Session) (place : Place) (p : Piece) : Prop where
  stands : s.Stands place p
  latest : s.LooksIn (s.loading.stack.head?.map directoryOf)
  kept : ∀ (env : Environment) (fuel : Nat) (path : String) (text : Option (ByteArray × ParseOutcome)),
    ((loadFile (.withFuel fuel) path text).runOn env s).2.LooksIn (s.loading.stack.head?.map directoryOf)
  own : ∀ m unit, s.loading.units.get? m = some unit → place.unit = unit.ref →
    (∀ region, (region, p) ∈ piecesOf unit.tree.body → ¬ Enclosed unit.tree.body region) →
      s.LooksIn (some (directoryOf unit.path))

theorem Session.Due.oriented (hp : s.Due place p) (ho : s.Ordered) : s.Oriented place p where
  stands := hp.stands
  latest := ho.looksIn
  kept := ho.looksIn_loadFile
  own m unit hunit hplace hnot := by
    obtain ⟨m', unit', region, hunit', hplace', _, hmem, hdue⟩ := hp
    -- Only one module was made from the unit.
    have hnumber : unit.number = unit'.number := congrArg UnitRef.number (hplace.symm.trans hplace')
    rw [ho.shelved.once m m' unit unit' hunit hunit' hnumber, hunit'] at hunit
    cases hunit
    have hhead := hdue.resolve_left (hnot region hmem)
    have hlooks := ho.looksIn
    rw [hhead] at hlooks
    exact hlooks

/-- Imports look where they should when a task is begun and when it is ended, and the same files are being loaded. -/
def Verdict.oriented : Verdict := fun _ task s _ s' =>
  s.Oriented task.place task.piece ∧ s'.Oriented task.place task.piece ∧ s'.loading.stack = s.loading.stack

/-- Imports look beside their file unless they are in a function. Between steps there is no directory that imports look
in. All through a step this is the directory of the file whose loading began last, before and after each task, and unless
the code of the task is in the body of a function, it is the directory of the file of the code: vetting the tasks makes no
difference. -/
theorem imports_look_beside_file_unless_in_function (hs : Reachable s) : s.LooksIn none ∧
    ∀ (env : Environment) (step : SessionStep) (alarm : Fault),
      (step.runBy (.vetting .oriented alarm)).runOn env s = step.run.runOn env s := by
  refine ⟨?_, hs.runOn_vetting ?_⟩
  · have hlooks := hs.ordered.looksIn
    rw [hs.idle.files] at hlooks
    exact hlooks
  · exact fun final _ task s r s' ht ho ho' hon _ => ⟨ht.oriented ho, (ht.later hon.leads).oriented ho', hon.stack⟩

/-- The statement that imports a module with a name of one letter, given its number and place. -/
def importStmt (node start : Nat) (name : String) : Syntax.Stmt :=
  .importModules [⟨[⟨node, name, some ⟨start, start + 1⟩⟩], none⟩]

/-- The statements of a file that imports one beside it at once, and another one in a function. -/
def deferredBody : List Syntax.Stmt :=
  [.line [importStmt 0 7 "b"],
    .functionDef (some ⟨9, 30⟩) 1 ⟨2, "f", some ⟨13, 14⟩⟩ ⟨[], [], none, [], none⟩ [.line [importStmt 3 29 "c"]] []]

def deferredImport : Environment where
  workspace := .ofFiles [("pkg/a.py", ⟨.empty, .tree ⟨some ⟨0, 31⟩, deferredBody, by decide, by decide⟩⟩),
    ("pkg/b.py", ⟨.empty, .tree default⟩), ("pkg/c.py", ⟨.empty, .tree default⟩)] [] none
  settings := default

open Syntax (Expr Stmt Part) in
theorem deferredBody_first (h : (region, .stmt (importStmt 0 7 "b")) ∈ piecesOf deferredBody) : region = .file := by
  simpa [piecesOf, deferredBody, importStmt, Stmt.sizeOfBlock, Stmt.size, Expr.sizeOfParams, Expr.sizeOfParamList,
    Expr.sizeOfParamOption, Expr.sizeOfList, Piece.below, Piece.parts, Stmt.parts, Expr.parts, Part.block, Part.ofAlias,
    Part.names, Part.exprs, Part.ofParams] using h

def Session.beforeSweep : Session := .after [(deferredImport, .load "/w/pkg/a.py")]

theorem beforeSweep_loaded : Session.beforeSweep.loading.loaded = ["/w/pkg/b.py", "/w/pkg/a.py"] ∧
    Session.beforeSweep.uncalled.length = 1 ∧
    (SessionStep.finish.run.runOn deferredImport .beforeSweep).1 = .ok () ∧
    (SessionStep.finish.run.runOn deferredImport .beforeSweep).2.loading.loaded = ["/w/pkg/b.py", "/w/pkg/a.py"] ∧
    (SessionStep.finish.run.runOn deferredImport .beforeSweep).2.uncalled = [] := by decide +kernel

/-- While the function is applied, imports look in no directory, as the tasks confirm. The import outside the function
was not in one. -/
theorem imports_look_beside_file_unless_in_function_beforeSweep : Reachable .beforeSweep ∧
    (∀ region, (region, .stmt (importStmt 0 7 "b")) ∈ piecesOf deferredBody → ¬ Enclosed deferredBody region) ∧
    Session.beforeSweep.uncalled.length = 1 ∧ Session.beforeSweep.LooksIn none ∧
    (SessionStep.finish.runBy (.vetting .oriented .outOfFuel)).runOn deferredImport .beforeSweep =
      SessionStep.finish.run.runOn deferredImport .beforeSweep := by
  obtain ⟨hlooks, hvetting⟩ := imports_look_beside_file_unless_in_function (Reachable.after _)
  refine ⟨.after _, fun region hregion => ?_, beforeSweep_loaded.2.1, hlooks, hvetting deferredImport .finish .outOfFuel⟩
  rw [deferredBody_first hregion]
  exact Syntax.not_enclosed_file deferredBody

/-- Imports do not always look in the directory of their file: an import in a function, when the function is applied in
the end, does not find the module beside its file, and the one outside the function has found its module there. -/
theorem deferred_import_finds_nothing : ∃ s s', Reachable s ∧
    SessionStep.finish.run.runOn deferredImport s = (.ok (), s') ∧ s.uncalled ≠ [] ∧ s'.uncalled = [] ∧
    (∀ name ∈ ["b", "c"], deferredImport.workspace.hasModule name (directoryOf "/w/pkg/a.py") = true) ∧
    s'.loading.loaded = ["/w/pkg/b.py", "/w/pkg/a.py"] := by
  obtain ⟨_, hwaits, hok, hloaded, hnone⟩ := beforeSweep_loaded
  rcases hrun : SessionStep.finish.run.runOn deferredImport .beforeSweep with ⟨r, s'⟩
  rw [hrun] at hok hloaded hnone
  cases hok
  refine ⟨.beforeSweep, s', .after _, hrun, fun hempty => ?_, hnone, by decide +kernel, hloaded⟩
  rw [hempty] at hwaits
  cases hwaits

end Concordance
