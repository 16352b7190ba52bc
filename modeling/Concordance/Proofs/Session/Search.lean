import Concordance.Proofs.Session.Bearings
import Concordance.Proofs.Session.Vetting
import Mathlib.Data.List.TakeWhile

/-!
# Where a module is found

While a file is being loaded, a module is looked for in the directory of the file and in those of the search path.
-/

namespace Concordance

/-- The directory of a module if the current one is looked at first, then those of a search path. -/
def nearest (w : Workspace) (name d : String) (path : List String) : Option String :=
  if w.hasModule name d then some d else path.find? (w.hasModule name)

/-- The current directory has a module, but it is on the search path, and one before it has a module of the same name. -/
structure Overtaken (w : Workspace) (name d : String) (path : List String) : Prop where
  has : w.hasModule name d = true
  onPath : d ∈ path
  before : ∃ e ∈ path.takeWhile (· != d), w.hasModule name e = true

section Order

variable {w : Workspace} {path : List String}

theorem exists_eq_takeWhile_append (hd : d ∈ path) : ∃ rest, path = path.takeWhile (· != d) ++ d :: rest := by
  induction path with
  | nil => cases hd
  | cons e path ih =>
    by_cases heq : e = d
    · exact ⟨path, by simp [heq]⟩
    · obtain ⟨rest, hrest⟩ := ih ((List.mem_cons.1 hd).resolve_left (Ne.symm heq))
      refine ⟨rest, ?_⟩
      rw [List.takeWhile_cons_of_pos (by simpa using heq), List.cons_append, ← hrest]

theorem not_mem_takeWhile : d ∉ path.takeWhile (· != d) := fun h => by simpa using List.mem_takeWhile_imp h

theorem find?_hasModule (hd : d ∈ path) (has : w.hasModule name d = true) :
    path.find? (w.hasModule name) = ((path.takeWhile (· != d)).find? (w.hasModule name)).or (some d) := by
  obtain ⟨rest, hrest⟩ := exists_eq_takeWhile_append hd
  conv_lhs => rw [hrest, List.find?_append, List.find?_cons_of_pos has]

theorem Overtaken.grow (h : Overtaken w name d path) (grows : path <+: path') : Overtaken w name d path' := by
  obtain ⟨more, rfl⟩ := grows
  obtain ⟨rest, hrest⟩ := exists_eq_takeWhile_append h.onPath
  have hsame : (path ++ more).takeWhile (· != d) = path.takeWhile (· != d) := by
    conv_lhs => rw [hrest, List.append_assoc, List.takeWhile_append_of_pos fun e he => List.mem_takeWhile_imp (p := (· != d)) he]
    simp
  exact ⟨h.has, List.mem_append_left _ h.onPath, hsame ▸ h.before⟩

end Order

section Location

theorem runOn_locateModule (env : Environment) (s : Session) (name : String) : (locateModule name).runOn env s =
    (.ok ((s.loading.directory.elim s.loading.searchPath fun d =>
      if d ∈ s.loading.searchPath then s.loading.searchPath else d :: s.loading.searchPath).find?
        (env.workspace.hasModule name)), s) := by
  rw [locateModule, runOn_bind, s.looksIn_directory.search env]
  rfl

theorem find?_eq_nearest (w : Workspace) (name d : String) (path : List String) (h : ¬Overtaken w name d path) :
    (if d ∈ path then path else d :: path).find? (w.hasModule name) = nearest w name d path := by
  by_cases has : w.hasModule name d = true
  · rw [nearest, if_pos has]
    split
    · rename_i hd
      have hnone : (path.takeWhile (· != d)).find? (w.hasModule name) = none := by
        refine List.find?_eq_none.2 fun e he hhas => h ⟨has, hd, e, he, hhas⟩
      rw [find?_hasModule hd has, hnone]
      rfl
    · rw [List.find?_cons_of_pos has]
  · rw [nearest, if_neg has]
    split
    · rfl
    · rw [List.find?_cons_of_neg has]

theorem Overtaken.find? (h : Overtaken w name d path) : ∃ e ∈ path.takeWhile (· != d), w.hasModule name e = true ∧
      (if d ∈ path then path else d :: path).find? (w.hasModule name) = some e := by
  obtain ⟨e, he, hhas⟩ := h.before
  obtain ⟨first, hfirst⟩ := Option.isSome_iff_exists.1 (List.find?_isSome.2 ⟨e, he, hhas⟩)
  refine ⟨first, List.mem_of_find?_eq_some hfirst, List.find?_some hfirst, ?_⟩
  rw [if_pos h.onPath, find?_hasModule h.onPath h.has, hfirst]
  rfl

end Location

section History

theorem Move.searchPath_prefix (hm : Move env step b s s') (hstep : step ≠ .start) :
    s.loading.searchPath <+: s'.loading.searchPath := by
  induction hm with
  | run hr => exact hr.searchPath ▸ List.prefix_rfl
  | trans _ _ ih ih' => exact ih.trans ih'
  | searchPath paths law =>
    rcases law with ⟨hstart, _⟩ | ⟨d, _, rfl⟩
    · exact absurd hstart hstep
    · exact List.prefix_append ..
  | recover _ _ ih => exact ih
  | within _ _ ih => exact ih
  | _ => exact List.prefix_rfl

theorem Move.nodup_searchPath (hm : Move env step b s s') (hs : s.loading.searchPath.Nodup) :
    s'.loading.searchPath.Nodup := by
  induction hm with
  | run hr => exact hr.searchPath ▸ hs
  | trans _ _ ih ih' => exact ih' (ih hs)
  | searchPath paths law =>
    rcases law with ⟨_, rfl⟩ | ⟨d, hd, rfl⟩
    · exact List.nodup_nil
    · exact List.nodup_append.2 ⟨hs, List.nodup_singleton d, fun e he e' he' heq => hd (by simp_all)⟩
  | recover _ _ ih => exact ih hs
  | within _ _ ih => exact ih hs
  | _ => exact hs

theorem Session.nodup_searchPath_after (steps : List (Environment × SessionStep)) :
    (Session.after steps).loading.searchPath.Nodup := by
  induction steps using List.reverseRecOn with
  | nil => exact List.nodup_nil
  | append_singleton steps x ih =>
    obtain ⟨_, hm⟩ := (Reachable.after steps).moves x.1 x.2
    exact Session.after_concat steps x.1 x.2 ▸ hm.nodup_searchPath ih

theorem Session.searchPath_prefix_after (steps : List (Environment × SessionStep))
    (hmore : ∀ x ∈ more, x.2 ≠ .start) :
    (Session.after steps).loading.searchPath <+: (Session.after (steps ++ more)).loading.searchPath := by
  induction more using List.reverseRecOn with
  | nil => exact (List.append_nil steps).symm ▸ List.prefix_rfl
  | append_singleton more x ih =>
    rw [List.forall_mem_append, List.forall_mem_singleton] at hmore
    obtain ⟨_, hm⟩ := (Reachable.after (steps ++ more)).moves x.1 x.2
    rw [← List.append_assoc, Session.after_concat]
    exact (ih hmore.1).trans (hm.searchPath_prefix hmore.2)

end History

/-- A module is not always looked for in the current directory first. In every session, what is found is the nearest
directory if and only if the current one is not overtaken, and otherwise one that comes before it on the search path.
After all steps from the empty session no directory is on the search path twice, and one that is overtaken stays so
whatever further steps are taken, until the session is started again. -/
theorem modules_located_here_unless_overtaken (env : Environment) (s : Session) (name : String)
    (steps : List (Environment × SessionStep)) :
    (∃ r, (locateModule name).runOn env s = (.ok r, s) ∧
      (s.loading.directory = none → r = s.loading.searchPath.find? (env.workspace.hasModule name)) ∧
      ∀ d, s.loading.directory = some d →
        (r = nearest env.workspace name d s.loading.searchPath ↔ ¬Overtaken env.workspace name d s.loading.searchPath) ∧
        (Overtaken env.workspace name d s.loading.searchPath →
          ∃ e ∈ s.loading.searchPath.takeWhile (· != d), env.workspace.hasModule name e = true ∧ r = some e)) ∧
    (Session.after steps).loading.searchPath.Nodup ∧
    ∀ more : List (Environment × SessionStep), (∀ x ∈ more, x.2 ≠ .start) → ∀ w d,
      Overtaken w name d (Session.after steps).loading.searchPath →
      Overtaken w name d (Session.after (steps ++ more)).loading.searchPath := by
  refine ⟨⟨_, runOn_locateModule env s name, fun hnone => ?_, fun d hd => ?_⟩, Session.nodup_searchPath_after steps,
    fun more hmore w d h => h.grow (Session.searchPath_prefix_after steps hmore)⟩
  · rw [hnone]
    rfl
  · rw [hd]
    refine ⟨⟨fun heq h => ?_, find?_eq_nearest _ _ _ _⟩, Overtaken.find?⟩
    obtain ⟨e, he, _, hfind⟩ := h.find?
    have hhere := hfind.symm.trans heq
    rw [nearest, if_pos h.has] at hhere
    cases hhere
    exact not_mem_takeWhile he

/-- Two directories have a module of the same name, and both are on the search path. -/
def twoHomes : Environment where
  workspace := .ofFiles (["a/h.py", "b/h.py", "b/m.py"].map fun name => (name, ⟨.empty, .tree default⟩)) [] none
  settings := { (default : Settings) with searchPaths := ["/w/a", "/w/b"] }

/-- The session while a file of the second directory is being loaded. -/
def besideSecond : Session :=
  { Session.empty with loading.directory := some "/w/b", loading.searchPath := ["/w/a", "/w/b"] }

theorem modules_located_here_unless_overtaken_twoHomes :
    Overtaken twoHomes.workspace "h" "/w/b" ["/w/a", "/w/b"] ∧ ¬Overtaken twoHomes.workspace "m" "/w/b" ["/w/a", "/w/b"] ∧
    (locateModule "h").runOn twoHomes besideSecond = (.ok (some "/w/a"), besideSecond) ∧
    (locateModule "m").runOn twoHomes besideSecond = (.ok (some "/w/b"), besideSecond) := by
  have hovertaken : Overtaken twoHomes.workspace "h" "/w/b" ["/w/a", "/w/b"] :=
    ⟨by decide +kernel, by decide, "/w/a", by decide, by decide +kernel⟩
  have hnot : ¬Overtaken twoHomes.workspace "m" "/w/b" ["/w/a", "/w/b"] := by
    rintro ⟨_, _, e, he, hhas⟩
    obtain rfl : e = "/w/a" := List.mem_singleton.1 he
    exact absurd hhas (by decide +kernel)
  refine ⟨hovertaken, hnot, ?_, ?_⟩
  · obtain ⟨r, hrun, _, hlaw⟩ := (modules_located_here_unless_overtaken twoHomes besideSecond "h" []).1
    obtain ⟨e, he, _, rfl⟩ := (hlaw "/w/b" rfl).2 hovertaken
    obtain rfl : e = "/w/a" := List.mem_singleton.1 he
    exact hrun
  · obtain ⟨r, hrun, _, hlaw⟩ := (modules_located_here_unless_overtaken twoHomes besideSecond "m" []).1
    have hnearest : nearest twoHomes.workspace "m" "/w/b" ["/w/a", "/w/b"] = some "/w/b" := by decide +kernel
    rw [hrun, (hlaw "/w/b" rfl).1.2 hnot]
    exact Prod.ext (congrArg Except.ok hnearest) rfl

/-- The current directory does not always come first: beside a file, the module of its own directory is passed over. -/
theorem module_located_elsewhere : nearest twoHomes.workspace "h" "/w/b" ["/w/a", "/w/b"] = some "/w/b" ∧
    ((do startSession; withFile "/w/b/m.py" (locateModule "h") : Analysis (Option String)).runOn twoHomes .empty).1 =
      .ok (some "/w/a") := by decide +kernel

end Concordance
