import Concordance.Proofs.ModuleName
import Concordance.Proofs.Session.Directory

/-!
# The modules of files

Modules are looked up by qualified names. A file gets a module whose name is its own, but this may be the module of
another file that goes by the same name: then the file itself is never resolved.
-/

namespace Concordance

variable {path p : String} {fuel : Nat}

variable {env : Environment} {s s' : Session} {m : ModuleId}

section Loading

theorem Session.Announced.of_heap_eq (hm : s.Announced q m) (heap : s'.heap = s.heap) : s'.Announced q m := by
  rw [Session.Announced, heap]
  exact hm

theorem Session.Ordered.need_named (ho : s.Ordered)
    (hrun : (needFor path isText).runOn env s = (.ok need, s')) : ∃ q, env.workspace.canonical path = .ok q ∧
      (∀ m, need = .settled (some m) → s'.Announced (moduleNameOf q.toString) m) ∧
      ∀ p, need = .load p → p = q.toString := by
  have hneeds := ho.needs env path isText
  generalize (needFor path isText).runOn env s = x at hrun hneeds
  cases hneeds with
  | fault => cases hrun
  | nothing _ canonical =>
    cases eq_settled_of_runOn hrun
    exact ⟨_, canonical, by simp, by simp⟩
  | known text canonical announced =>
    cases eq_settled_of_runOn hrun
    refine ⟨_, canonical, ?_, by simp⟩
    rintro _ ⟨⟩
    -- What is settled is traced, which leaves the heap alone.
    have hheap := heap_runOn_log env .debug text s
    rw [← trace] at hheap
    rw [runOn_bind] at hrun
    rcases htrace : (trace text).runOn env s with ⟨e | _, s1⟩ <;> rw [htrace] at hrun hheap <;> cases hrun
    exact announced.of_heap_eq hheap
  | load canonical =>
    cases hrun
    refine ⟨_, canonical, by simp, ?_⟩
    rintro _ ⟨⟩
    rfl

theorem eq_of_runOn_resolveOpened (hrun : (resolveOpened ev unit m).runOn env s = (.ok m', s')) : m' = m := by
  unfold resolveOpened at hrun
  rw [runOn_bind] at hrun
  split at hrun
  · rw [runOn_theHeap_bind, runOn_bind] at hrun
    split at hrun
    · cases hrun
      rfl
    · cases hrun
  · cases hrun

theorem Session.Ordered.announced_of_loadUnit (ho : s.Ordered)
    (hhead : s.loading.stack.head? = some path) (cached : s.loading.cache.units.get? path = some unit)
    (hnew : ∀ m, ¬ s.Announced (moduleNameOf path) m)
    (hrun : (loadUnit (.withFuel fuel) path unit).runOn env s = (.ok (some m), s')) :
    s'.Announced (moduleNameOf path) m := by
  obtain rfl := (ho.shelved.cached path unit cached).1
  obtain ⟨m', s1, hopen, ho1, hm, hunit, hresolve⟩ := exists_opened env ho cached hnew
  have htracks : Tracks env s1 s1 (resolveOpened (.withFuel fuel) unit m') (resolveOpened (.withFuel fuel) unit m') :=
    resolveOpened_tracks (.withFuel fuel) hunit (hopen.stack ▸ hhead)
  obtain ⟨hon, _, _⟩ := htracks.run s1 (.refl s1) ho1
  rcases hopened : (resolveOpened (.withFuel fuel) unit m').runOn env s1 with ⟨f | m'', s2⟩ <;> rw [hopened] at hon
  · -- No module is given where resolving the unit fails.
    by_cases hf : f = .exhausted .memory
    · rw [hf] at hopened
      rw [runOn_loadUnit_of_memory ((hresolve _).trans hopened)] at hrun
      have hnone := (Prod.mk.inj hrun).1
      cases hresult : ((abandonModule unit.path).runOn env s2).1 <;> rw [hresult] at hnone <;> cases hnone
    · rw [runOn_loadUnit_of_error hf ((hresolve _).trans hopened)] at hrun
      cases hrun
  · rw [runOn_loadUnit_of_ok ((hresolve _).trans hopened)] at hrun
    cases hrun
    rw [eq_of_runOn_resolveOpened hopened]
    exact (hon.announced _ m' hm).of_heap_eq rfl

theorem Session.Ordered.announced_of_parsing (ho : s.Ordered) (hhead : s.loading.stack.head? = some path)
    (hnew : ∀ m, ¬ s.Announced (moduleNameOf path) m) (hrun : (trace ("loading " ++ path) >>= fun _ => do
      loadParsed (.withFuel fuel) path (← parseSource path text)).runOn env s = (.ok (some m), s')) :
    s'.Announced (moduleNameOf path) m := by
  have htrace : Tracks env s s (trace ("loading " ++ path)) (trace ("loading " ++ path)) := trace_tracks _
  obtain ⟨hon1, ho1, _⟩ := htrace.run s (.refl s) ho
  have heap1 := heap_runOn_log env .debug ("loading " ++ path) s
  rw [← trace] at heap1
  rw [runOn_bind] at hrun
  rcases h1 : (trace ("loading " ++ path)).runOn env s with ⟨e | _, s1⟩ <;> rw [h1] at hrun hon1 ho1 heap1
  · cases hrun
  · have hparse : Tracks env s s1 (parseSource path text) (parseSource path text) := parseSource_tracks path text
    obtain ⟨hon2, ho2, _⟩ := hparse.run s1 (.refl s1) ho1
    have heap2 := heap_runOn_parseSource env path text s1
    dsimp only at hrun
    rw [runOn_bind] at hrun
    rcases h2 : (parseSource path text).runOn env s1 with ⟨e | f | unit, s2⟩ <;> rw [h2] at hrun hon2 ho2 heap2
    · cases hrun
    · -- A file that has no tree gets no module.
      dsimp only [loadParsed] at hrun
      rw [runOn_bind] at hrun
      split at hrun <;> cases hrun
    · have hhead2 : s2.loading.stack.head? = some path := (hon1.trans hon2).stack ▸ hhead
      refine ho2.announced_of_loadUnit hhead2 (cached_of_runOn_parseSource h2) (fun m' hm' => hnew m' ?_) hrun
      exact hm'.of_heap_eq (heap2.trans heap1).symm

theorem Session.Ordered.announced_of_loadFile (ho : s.Ordered)
    (hrun : (loadFile (.withFuel fuel) path text).runOn env s = (.ok (some m), s')) :
    ∃ q, env.workspace.canonical path = .ok q ∧ s'.Announced (moduleNameOf q.toString) m := by
  unfold loadFile at hrun
  rw [runOn_bind] at hrun
  rcases hneed : (needFor path text.isSome).runOn env s with ⟨e | need, s1⟩ <;> rw [hneed] at hrun
  · cases hrun
  · obtain ⟨q, hq, hsettled, hload⟩ := ho.need_named hneed
    refine ⟨q, hq, ?_⟩
    cases need with
    | settled r =>
      cases hrun
      exact hsettled m rfl
    | load p =>
      obtain ⟨rfl, hcan, hout, hnew⟩ := runOn_needFor_load ho hneed
      cases hload p rfl
      dsimp only at hrun
      rw [runOn_withFile] at hrun
      obtain ⟨hresult, rfl⟩ := Prod.mk.inj hrun
      have hinner := (ho.enterFile hcan hnew).ordered.announced_of_parsing rfl hnew (Prod.ext hresult rfl)
      exact hinner.of_heap_eq rfl

end Loading

section Identity

theorem confusable_of_moduleNameOf_eq (h : moduleNameOf p = moduleNameOf f) :
    (Path.ofString p).Confusable (Path.ofString f) :=
  (Path.qualifiedName_eq_iff (Path.isClean_ofString p) (Path.isClean_ofString f)).1 h

theorem Session.Ordered.confusable (ho : s.Ordered) (hm : s.Announced (moduleNameOf p) m) :
    ∃ f, (s.heap.module m).file = some f ∧ (Path.ofString p).Confusable (Path.ofString f) := by
  obtain ⟨u, hu, hname⟩ := ho.shelved.named _ m hm
  exact ⟨u.path, (ho.shelved.opened m u hu).2.2, confusable_of_moduleNameOf_eq hname.symm⟩

/-- Files are identified by their names: no two files that may be confused are loaded, and the module that a file gets,
from its content or from a text in its place, was made from a file that it may be confused with. -/
structure Session.Identifies (s : Session) : Prop where
  distinct : s.loading.loaded.Pairwise fun f g => ¬ (Path.ofString f).Confusable (Path.ofString g)
  loads : ∀ (env : Environment) (fuel : Nat) (path : String) (text : Option (ByteArray × ParseOutcome)) (m : ModuleId)
    (s' : Session), (loadFile (.withFuel fuel) path text).runOn env s = (.ok (some m), s') →
      ∃ q f, env.workspace.canonical path = .ok q ∧ (s'.heap.module m).file = some f ∧ q.Confusable (Path.ofString f)

def Verdict.identifies : Verdict := fun _ _ s _ s' => s.Identifies ∧ s'.Identifies

theorem Session.Ordered.identifies (ho : s.Ordered) : s.Identifies where
  distinct := by
    refine ho.filed.nodup.imp_of_mem fun {f g} hf hg hne hsame => hne ?_
    -- The module that is known by the common name was made from both files.
    have hname : moduleNameOf f = moduleNameOf g :=
      (Path.qualifiedName_eq_iff (Path.isClean_ofString f) (Path.isClean_ofString g)).2 hsame
    obtain ⟨m, hm, hfile⟩ := ho.filed.known f hf
    obtain ⟨m', hm', hfile'⟩ := ho.filed.known g hg
    rw [hname] at hm
    rw [hm.unique hm', hfile'] at hfile
    exact (Option.some.inj hfile).symm
  loads env fuel path text m s' hrun := by
    obtain ⟨q, hq, hm⟩ := ho.announced_of_loadFile hrun
    have htracks : Tracks env s s (loadFile (.withFuel fuel) path text) (loadFile (.withFuel fuel) path text) :=
      loadFile_tracks (.withFuel fuel) path text
    obtain ⟨_, ho', _⟩ := htracks.run s (.refl s) ho
    rw [hrun] at ho'
    obtain ⟨f, hfile, hsame⟩ := ho'.confusable hm
    rw [Workspace.ofString_of_canonical hq] at hsame
    exact ⟨q, f, hq, hfile, hsame⟩

/-- What stands for a file after a step: a module that was known by its name before the step, or a file that has been
loaded just once, either of which it may be confused with. -/
inductive Session.Represents (s s' : Session) (p : String) : Prop
  | known {m : ModuleId} {f : String} (announced : s.Announced (moduleNameOf p) m)
      (file : (s.heap.module m).file = some f) (same : (Path.ofString p).Confusable (Path.ofString f))
  | loaded {f : String} (once : s'.loading.loaded.count f = 1) (same : (Path.ofString p).Confusable (Path.ofString f))

theorem Environment.Accepts.lookup_ne (hp : env.Accepts p) : env.workspace.lookup (Path.ofString p) ≠ .error e := by
  intro hlookup
  obtain ⟨unit, hread⟩ := hp
  rw [Environment.reading, UnitCache.run_read] at hread
  dsimp only [Table.get?] at hread
  rw [UnitCache.readFresh, Workspace.read, hlookup] at hread
  cases e <;> cases hread

theorem Session.Fate.represents (hs : s.Calm) (hs' : s'.Calm) (hfate : s.Fate env s' p)
    (haccepts : env.Accepts p) : s.Represents s' p := by
  cases hfate with
  | tooLong long => exact absurd long haccepts.lookup_ne
  | known before =>
    obtain ⟨f, hfile, hsame⟩ := hs.ordered.confusable before
    exact .known before hfile hsame
  | named loaded same =>
    exact .loaded (List.count_eq_one_of_mem hs'.ordered.filed.nodup loaded) (confusable_of_moduleNameOf_eq same.symm)
  | recorded rejected _ =>
    obtain ⟨unit, hread⟩ := haccepts
    cases rejected.symm.trans hread

theorem isSource_of_canonical {w : Workspace} (hq : w.canonical path = .ok q)
    (hsuffix : q.suffix = ".py") : q.IsSource := by
  obtain ⟨habsolute, hnames⟩ := Workspace.exists_names_of_canonical hq
  exact ⟨by rw [habsolute], hnames, hsuffix⟩

theorem isSource_of_mem_collectedTexts (hw : env.workspace.top.WellFormed)
    (hroot : env.workspace.canonical path = .ok root) (hp : p ∈ collectedTexts env root) :
    (Path.ofString p).IsSource := by
  obtain ⟨q, hq, rfl⟩ := List.mem_map.1 hp
  obtain ⟨hcanonical, hsuffix, _⟩ := Workspace.lookup_of_mem_collectFiles hw hroot hq
  rw [Workspace.ofString_of_canonical hcanonical]
  exact isSource_of_canonical hcanonical hsuffix

/-- Files are told apart by their names as far as these differ. Two source files have one qualified name just if they may
be confused: if their paths hold no `%20`, one of them is the package file of the directory beside the other. In a
reachable session, and all through a step before and after each task, no two such files are loaded, and the module that a
file gets was made from itself or from a file that it may be confused with. Loading a directory ends with a fault that has
a cause, or each of its files that has a tree is loaded just once or is represented by one that it may be confused
with. -/
theorem files_resolved_up_to_confusion (hs : Reachable s) :
    (∀ p q : Path, p.IsSource → q.IsSource → (p.qualifiedName = q.qualifiedName ↔ p.Confusable q) ∧
      (p.Unescaped → q.Unescaped → (p.Confusable q ↔ p = q ∨ p.Twins q ∨ q.Twins p))) ∧
    s.Identifies ∧
    (∀ (env : Environment) (step : SessionStep) (alarm : Fault),
      (step.runBy (.vetting .identifies alarm)).runOn env s = step.run.runOn env s) ∧
    ∀ (env : Environment) (path : String) (root : Path), env.workspace.top.WellFormed →
      env.workspace.canonical path = .ok root → env.workspace.isDirectory root = true →
      env.injection ≠ some ⟨.resolving, .memory⟩ →
      (∃ f s', (loadBelow path).runOn env s = (.error f, s') ∧ env.Causes f) ∨
      ∃ s', (loadBelow path).runOn env s = (.ok (collectedTexts env root), s') ∧
        ∀ p ∈ collectedTexts env root, (Path.ofString p).IsSource ∧ (env.Accepts p → s.Represents s' p) := by
  refine ⟨fun p q hp hq => ?_, hs.ordered.identifies, hs.runOn_vetting ?_, fun env path root hw hroot hdir spared => ?_⟩
  · have hlaw := Path.qualifiedName_eq_iff hp.isClean hq.isClean
    exact ⟨hlaw, fun hpu hqu => hlaw.symm.trans (Path.qualifiedName_eq_iff_of_unescaped hp hq hpu hqu)⟩
  · exact fun _ _ _ _ _ _ _ ho ho' _ _ => ⟨ho.identifies, ho'.identifies⟩
  · refine (hs.loadBelow_outcome hw hroot hdir).imp_right ?_
    rintro ⟨s', hrun, hs', _, hfates⟩
    exact ⟨s', hrun, fun p hp =>
      ⟨isSource_of_mem_collectedTexts hw hroot hp, (hfates spared p hp).represents hs.calm hs'⟩⟩

/-- A source file beside a directory of the same name that is a package. -/
def packageBeside : Environment where
  workspace := .ofFiles [("a.py", ⟨.empty, .tree default⟩), ("a/__init__.py", ⟨.empty, .tree default⟩)] [] none
  settings := default

theorem packageBeside_wellFormed : packageBeside.workspace.top.WellFormed := by
  refine Workspace.wellFormed_ofFiles ?_ (by simp) none
  unfold Text.NullFree
  decide

/-- The file of the module that a file gets once the directory has been loaded. -/
def packageBesideFile (path : String) : Except Fault (Option (Option String)) :=
  let s := ((loadBelow "/w").runOn packageBeside .empty).2
  let out := (load path).runOn packageBeside s
  out.1.map fun r => r.map fun m => (out.2.heap.module m).file

theorem packageBeside_loads : ((loadBelow "/w").runOn packageBeside .empty).1 = .ok ["/w/a.py", "/w/a/__init__.py"] ∧
    ((loadBelow "/w").runOn packageBeside .empty).2.loading.loaded = ["/w/a.py"] ∧
    packageBesideFile "/w/a/__init__.py" = .ok (some (some "/w/a.py")) := by decide +kernel

theorem files_resolved_up_to_confusion_packageBeside : ∃ s' f,
    (loadBelow "/w").runOn packageBeside .empty = (.ok ["/w/a.py", "/w/a/__init__.py"], s') ∧
      s'.loading.loaded.count f = 1 ∧ (Path.ofString "/w/a/__init__.py").Confusable (Path.ofString f) := by
  have hcollected : collectedTexts packageBeside ⟨"/", ["w"]⟩ = ["/w/a.py", "/w/a/__init__.py"] := by decide +kernel
  have haccepts : packageBeside.Accepts "/w/a/__init__.py" := by
    have hread : (packageBeside.reading "/w/a/__init__.py").map (Except.map fun _ => ()) = .ok (.ok ()) := by
      decide +kernel
    unfold Environment.Accepts
    rcases h : packageBeside.reading "/w/a/__init__.py" with _ | _ | unit <;> rw [h] at hread <;> cases hread
    exact ⟨unit, rfl⟩
  rcases (files_resolved_up_to_confusion Reachable.empty).2.2.2 packageBeside "/w" ⟨"/", ["w"]⟩ packageBeside_wellFormed
    (by decide +kernel) (by decide +kernel) (by decide) with ⟨f, s', hrun, _⟩ | ⟨s', hrun, hfiles⟩
  · have hok := packageBeside_loads.1
    rw [hrun] at hok
    cases hok
  · rw [hcollected] at hrun hfiles
    obtain ⟨hm, _, _⟩ | ⟨honce, hsame⟩ := (hfiles "/w/a/__init__.py" (by simp)).2 haccepts
    · exact absurd hm (not_announced_empty _ _)
    · exact ⟨s', _, hrun, honce, hsame⟩

/-- Names do not tell all files apart: a package has the name of the source file beside its directory. Loading the
directory around both leaves the package out, and loading the package gives the module of the other file. -/
theorem package_beside_file_is_not_loaded : Path.IsSource ⟨"/", ["w", "a.py"]⟩ ∧
    Path.IsSource ⟨"/", ["w", "a", "__init__.py"]⟩ ∧
    (Path.mk "/" ["w", "a.py"]).qualifiedName = (Path.mk "/" ["w", "a", "__init__.py"]).qualifiedName ∧
    ((loadBelow "/w").runOn packageBeside .empty).1 = .ok ["/w/a.py", "/w/a/__init__.py"] ∧
    ((loadBelow "/w").runOn packageBeside .empty).2.loading.loaded = ["/w/a.py"] ∧
    packageBesideFile "/w/a/__init__.py" = .ok (some (some "/w/a.py")) := by
  have hcanonical : packageBeside.workspace.canonical "/w/a.py" = .ok ⟨"/", ["w", "a.py"]⟩ ∧
      packageBeside.workspace.canonical "/w/a/__init__.py" = .ok ⟨"/", ["w", "a", "__init__.py"]⟩ := by decide +kernel
  exact ⟨isSource_of_canonical hcanonical.1 (by decide), isSource_of_canonical hcanonical.2 (by decide), by decide,
    packageBeside_loads⟩

end Identity

end Concordance
