import Mathlib.Algebra.Ring.Nat
import Mathlib.Data.List.Nodup
import Concordance.Workspace

/-!
# Files by their canonical paths

A canonical path can be read back from its text, so files with different canonical texts are different files of
the workspace, and their trees taken together are no larger than the workspace.
-/

namespace Concordance

namespace Text

theorem not_mem_of_mem_split (hp : piece ∈ split sep cs) : sep ∉ piece := by
  induction cs generalizing piece with
  | nil =>
    rw [split, List.mem_singleton] at hp
    simp [hp]
  | cons c rest ih =>
    rw [split] at hp
    split at hp
    · rcases List.mem_cons.1 hp with rfl | hp
      · simp
      · exact ih hp
    · rename_i hc
      obtain ⟨p, ps, heq⟩ := List.exists_cons_of_ne_nil (split_ne_nil sep rest)
      rw [heq] at hp ih
      rcases List.mem_cons.1 hp with rfl | hp
      · have := ih (.head _)
        simp [this, Ne.symm hc]
      · exact ih (.tail _ hp)

theorem split_append (hcs : sep ∉ cs) : split sep (cs ++ sep :: rest) = cs :: split sep rest := by
  induction cs with
  | nil => simp [split]
  | cons c cs ih =>
    rw [List.mem_cons, not_or] at hcs
    rw [List.cons_append, split, if_neg (Ne.symm hcs.1), ih hcs.2]

theorem split_of_not_mem (hcs : sep ∉ cs) : split sep cs = [cs] := by
  induction cs with
  | nil => rfl
  | cons c cs ih =>
    rw [List.mem_cons, not_or] at hcs
    rw [split, if_neg (Ne.symm hcs.1), ih hcs.2]

theorem split_intercalate (hne : pieces ≠ []) (hp : ∀ p ∈ pieces, sep ∉ p) :
    split sep ([sep].intercalate pieces) = pieces := by
  induction pieces with
  | nil => exact absurd rfl hne
  | cons p ps ih =>
    have hhead := hp p (.head _)
    cases ps with
    | nil => simpa using split_of_not_mem hhead
    | cons q qs =>
      have hrest := ih (by simp) fun r hr => hp r (.tail _ hr)
      rw [List.intercalate_cons_cons, List.append_assoc, List.singleton_append, split_append hhead, hrest]

end Text

namespace Path

theorem isClean_ofString (text : String) : (ofString text).IsClean := by
  intro s hs
  obtain ⟨hs, hkeep⟩ := List.mem_filter.1 hs
  obtain ⟨piece, hpiece, rfl⟩ := List.mem_map.1 hs
  simp only [decide_eq_true_eq] at hkeep
  refine ⟨hkeep.1, hkeep.2, ?_⟩
  rw [String.toList_ofList]
  exact Text.not_mem_of_mem_split hpiece

theorem ofString_toString {parts : List String} (hc : (Path.mk "/" parts).IsClean) :
    ofString (Path.mk "/" parts).toString = ⟨"/", parts⟩ := by
  have hclean : ∀ p ∈ parts, p ≠ "" ∧ p ≠ "." ∧ '/' ∉ p.toList := hc
  have htext : (Path.mk "/" parts).toString.toList = '/' :: ['/'].intercalate (parts.map String.toList) := by
    simp [toString]
  -- The first part is not empty and has no separator, so the text starts with a single one.
  have hslash : ('/' : Char) ∉ (['/'].intercalate (parts.map String.toList)).head? := by
    cases parts with
    | nil => simp
    | cons p ps =>
      obtain ⟨hne, _, hno⟩ := hclean p (.head _)
      obtain ⟨c, cs, hp⟩ := List.exists_cons_of_ne_nil (fun h => hne (String.toList_eq_nil_iff.1 h))
      rw [hp, List.mem_cons, not_or] at hno
      cases ps <;> simp [hp, Ne.symm hno.1]
  have hroot : rootOf ((Path.mk "/" parts).toString.toList.takeWhile (· == '/')).length = "/" := by
    rw [htext, List.takeWhile_cons_of_pos (by simp)]
    cases hrest : ['/'].intercalate (parts.map String.toList) with
    | nil => rfl
    | cons c cs =>
      rw [hrest] at hslash
      rw [List.takeWhile_cons_of_neg (by simpa using hslash)]
      rfl
  -- The field before the separator is empty and is dropped; the others are the parts.
  have hparts : (Text.fields '/' (Path.mk "/" parts).toString).filter (fun p => p ≠ "" ∧ p ≠ ".") = parts := by
    rw [Text.fields, htext, Text.split, if_pos rfl, List.map_cons, List.filter_cons_of_neg (by simp)]
    by_cases hempty : parts = []
    · subst hempty
      simp [Text.split]
    · rw [Text.split_intercalate (by simpa using hempty), List.map_map]
      · simp only [Function.comp_def, String.ofList_toList, List.map_id']
        exact List.filter_eq_self.2 fun p hp => by simp [(hclean p hp).1, (hclean p hp).2.1]
      · intro p hp
        obtain ⟨q, hq, rfl⟩ := List.mem_map.1 hp
        exact (hclean q hq).2.2
  exact Path.mk.injEq .. ▸ ⟨hroot, hparts⟩

theorem mem_foldl_step {segments : List String} (hx : x ∈ segments.foldl step done) :
    x ∈ done ∨ x ∈ segments ∧ x ≠ ".." := by
  induction segments generalizing done with
  | nil => exact .inl hx
  | cons segment rest ih =>
    rcases ih hx with hx | ⟨hx, hne⟩
    · rw [step] at hx
      split at hx
      · exact .inl ((List.dropLast_sublist done).subset hx)
      · rename_i hup
        rcases List.mem_append.1 hx with hx | hx
        · exact .inl hx
        · obtain rfl := List.mem_singleton.1 hx
          exact .inr ⟨.head _, hup⟩
    · exact .inr ⟨.tail _ hx, hne⟩

theorem isClean_canonical (hhere : here.IsClean) (hp : p.IsClean) : (canonical here p).IsClean := by
  intro x hx
  have hx := ((mem_foldl_step hx).resolve_left List.not_mem_nil).1
  rw [join] at hx
  split at hx
  · exact hp x hx
  · exact (List.mem_append.1 hx).elim (hhere x) (hp x)

theorem foldl_step_of_down (hdown : ".." ∉ segments) (done : List String) :
    segments.foldl step done = done ++ segments := by
  induction segments generalizing done with
  | nil => rw [List.foldl_nil, List.append_nil]
  | cons segment rest ih =>
    rw [List.mem_cons, not_or] at hdown
    rw [List.foldl_cons, step, if_neg (Ne.symm hdown.1), ih hdown.2, List.append_assoc, List.singleton_append]

end Path

namespace Workspace

variable (w : Workspace)

/-- The text of a canonical path: one from the top, as it is read and without a segment that leads up. -/
structure CanonicalText (path : String) (parts : List String) : Prop where
  clean : (Path.mk "/" parts).IsClean
  down : ".." ∉ parts
  text : path = (Path.mk "/" parts).toString

theorem canonicalText_of_canonical (hq : w.canonical p = .ok q) : CanonicalText q.toString q.parts := by
  simp only [canonical] at hq
  split at hq
  · cases hq
  cases hq
  refine ⟨Path.isClean_canonical w.clean (Path.isClean_ofString p), fun hup => ?_, rfl⟩
  exact ((Path.mem_foldl_step hup).resolve_left List.not_mem_nil).2 rfl

/-- The text of a path that is its own canonical form, whatever the current directory is. -/
def IsCanonical (path : String) : Prop := ∀ w : Workspace, ∃ q, w.canonical path = .ok q ∧ q.toString = path

theorem isCanonical_of_canonical (hq : w.canonical p = .ok q) : IsCanonical q.toString := by
  intro w'
  obtain ⟨hclean, hdown, htext⟩ := w.canonicalText_of_canonical hq
  have hread : Path.ofString q.toString = ⟨"/", q.parts⟩ := htext ▸ Path.ofString_toString hclean
  have hnull : (Path.mk "/" q.parts).hasNull = false := by
    simp only [canonical] at hq
    split at hq
    · cases hq
    · cases hq
      rename_i hno
      exact Bool.eq_false_iff.2 hno
  have hagain : Path.canonical w'.here (Path.ofString q.toString) = ⟨"/", q.parts⟩ := by
    rw [hread, Path.canonical, Path.join, if_pos (by simp [Path.isAbsolute]), Path.foldl_step_of_down hdown,
      List.nil_append]
  refine ⟨⟨"/", q.parts⟩, ?_, htext.symm⟩
  simp only [canonical]
  rw [hagain, if_neg (Bool.eq_false_iff.1 hnull)]

end Workspace

namespace Node

/-- The size of the tree of the file that some segments lead down to, none if there is no such file. -/
def treeSizeAt : List String → Node → Nat
  | [], file f => match f.outcome with
    | .tree m => m.size
    | _ => 0
  | [], directory _ | _ :: _, file _ => 0
  | segment :: rest, directory entries => match entries.find? fun e => e.1 == segment with
    | some (_, inner) => treeSizeAt rest inner
    | none => 0

theorem treeSizeAt_of_follow (down : ".." ∉ parts) (hfile : Workspace.follow (node :: above) parts = .ok (file f))
    (htree : f.outcome = .tree m) : node.treeSizeAt parts = m.size := by
  induction parts generalizing node above with
  | nil =>
    rw [Workspace.follow, Except.ok.injEq] at hfile
    rw [hfile, treeSizeAt, htree]
  | cons segment rest ih =>
    rw [List.mem_cons, not_or] at down
    cases node with
    | file g => cases hfile
    | directory entries =>
      simp only [Workspace.follow, if_neg (Ne.symm down.1)] at hfile
      split at hfile
      · cases hfile
      · split at hfile
        · cases hfile
        · rename_i inner hfind
          rw [treeSizeAt, hfind]
          exact ih down.2 hfile

theorem treeSizeAt_cons (name : String) (node : Node) (entries : List (String × Node)) (parts : List String) :
    (directory ((name, node) :: entries)).treeSizeAt parts =
      if parts.head? = some name then node.treeSizeAt parts.tail else (directory entries).treeSizeAt parts := by
  cases parts with
  | nil => rfl
  | cons segment rest =>
    by_cases hname : segment = name
    · simp [treeSizeAt, hname]
    · simp [treeSizeAt, hname, Ne.symm hname]

theorem sum_map_split (xs : List α) (test : α → Bool) (f : α → Nat) : (xs.map f).sum =
    ((xs.filter test).map f).sum + ((xs.filter fun x => !test x).map f).sum := by
  induction xs with
  | nil => rfl
  | cons x xs ih =>
    cases htest : test x <;> simp [htest, ih] <;> omega

theorem sum_treeSizeAt_file_le (f : File) {places : List (List String)} (hnodup : places.Nodup) :
    (places.map fun p => (file f).treeSizeAt p).sum ≤ (file f).weight := by
  have hother : ∀ {ps : List (List String)}, [] ∉ ps → (ps.map fun p => (file f).treeSizeAt p).sum = 0 := by
    intro ps hps
    rw [List.sum_eq_zero_iff_forall_eq_nat]
    intro n hn
    obtain ⟨p, hp, rfl⟩ := List.mem_map.1 hn
    cases p with
    | nil => exact absurd hp hps
    | cons => rfl
  have hhere : (file f).treeSizeAt [] ≤ (file f).weight := by
    rw [treeSizeAt, weight]
    cases f.outcome <;> simp
  induction places with
  | nil => exact Nat.zero_le _
  | cons p ps ih =>
    obtain ⟨hp, hps⟩ := List.nodup_cons.1 hnodup
    rw [List.map_cons, List.sum_cons]
    cases p with
    | nil => rwa [hother hp, Nat.add_zero]
    | cons segment rest =>
      rw [treeSizeAt, Nat.zero_add]
      exact ih hps

mutual

/-- The trees at different places in a node are no larger together than the node. -/
theorem sum_treeSizeAt_le : ∀ (node : Node) {places : List (List String)}, places.Nodup →
    (places.map fun p => node.treeSizeAt p).sum ≤ node.weight
  | file f, _, hnodup => sum_treeSizeAt_file_le f hnodup
  | directory entries, _, hnodup => by
    rw [weight]
    exact Nat.le_succ_of_le (sum_treeSizeAt_directory_le entries hnodup)

theorem sum_treeSizeAt_directory_le : ∀ (entries : List (String × Node)) {places : List (List String)},
    places.Nodup → (places.map fun p => (directory entries).treeSizeAt p).sum ≤ weightOfEntries entries
  | [], places, _ => by
    rw [weightOfEntries, Nat.le_zero, List.sum_eq_zero_iff_forall_eq_nat]
    intro n hn
    obtain ⟨p, _, rfl⟩ := List.mem_map.1 hn
    cases p <;> rfl
  | (name, node) :: rest, places, hnodup => by
    -- The places below the first entry and those below the others.
    rw [weightOfEntries, sum_map_split places fun p => p.head? = some name]
    refine Nat.add_le_add ?_ ?_
    · have hbelow : ∀ p ∈ places.filter fun p => p.head? = some name, p = name :: p.tail := by
        intro p hp
        have hhead : p.head? = some name := by simpa using (List.mem_filter.1 hp).2
        cases p with
        | nil => cases hhead
        | cons segment rest => rw [Option.some.inj hhead, List.tail_cons]
      have htails : ((places.filter fun p => p.head? = some name).map List.tail).Nodup := by
        refine (hnodup.filter _).map_on fun p hp q hq heq => ?_
        rw [hbelow p hp, hbelow q hq, heq]
      refine Nat.le_trans (Nat.le_of_eq ?_) (sum_treeSizeAt_le node htails)
      rw [List.map_map]
      refine congrArg List.sum (List.map_congr_left fun p hp => ?_)
      rw [treeSizeAt_cons, if_pos (by rw [hbelow p hp]; rfl)]
      rfl
    · refine Nat.le_trans (Nat.le_of_eq ?_)
        (sum_treeSizeAt_directory_le rest (hnodup.filter fun p => !decide (p.head? = some name)))
      refine congrArg List.sum (List.map_congr_left fun p hp => ?_)
      rw [treeSizeAt_cons, if_neg (by simpa using (List.mem_filter.1 hp).2)]

end

end Node

namespace Workspace

variable (w : Workspace)

def treeSize (path : String) : Nat := w.top.treeSizeAt (Path.ofString path).parts

theorem treeSize_of_read (hc : CanonicalText path parts) (hread : w.read (Path.ofString path) = .ok f) (htree : f.outcome = .tree m) :
    w.treeSize path = m.size := by
  have hpath : Path.ofString path = ⟨"/", parts⟩ := hc.text ▸ Path.ofString_toString hc.clean
  have hfollow : follow [w.top] parts = .ok (.file f) := by
    rw [hpath, read] at hread
    split at hread
    · rename_i g hg
      rw [lookup] at hg
      split at hg
      · cases hg
      · split at hg
        · cases hg
        · cases hread
          exact hg
    · cases hread
    · cases hread
  rw [treeSize, hpath]
  exact Node.treeSizeAt_of_follow hc.down hfollow htree

/-- The trees of files at different canonical paths are no larger together than the workspace. -/
theorem sum_treeSize_le {paths : List String} (hnodup : paths.Nodup)
    (hcanonical : ∀ p ∈ paths, ∃ parts, CanonicalText p parts) : (paths.map w.treeSize).sum ≤ w.top.weight := by
  have hplaces : (paths.map fun p => (Path.ofString p).parts).Nodup := by
    refine hnodup.map_on fun p hp q hq heq => ?_
    obtain ⟨ps, hps⟩ := hcanonical p hp
    obtain ⟨qs, hqs⟩ := hcanonical q hq
    rw [hps.text, hqs.text, Path.ofString_toString hps.clean, Path.ofString_toString hqs.clean] at heq
    rw [hps.text, hqs.text, show ps = qs from heq]
  have := Node.sum_treeSizeAt_le w.top hplaces
  rwa [List.map_map] at this

end Workspace

end Concordance
