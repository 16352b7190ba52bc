import Concordance.Session.Load
import Concordance.Proofs.Session.Cause

/-!
# Files below a directory

In a well-formed tree of files the names of entries are proper segments of paths, and each directory keeps its entries
in the order of their names.
-/

namespace Concordance

open Text (NullFree)

variable {entries : List (String × Node)} {node : Node}

/-- A name that an entry of a directory can have. -/
structure Path.IsName (name : String) : Prop where
  ne_empty : name ≠ ""
  ne_dot : name ≠ "."
  ne_dots : name ≠ ".."
  no_slash : '/' ∉ name.toList
  nullFree : NullFree name

def Path.below (p : Path) (segments : List String) : Path := { p with parts := p.parts ++ segments }

theorem Path.below_nil (p : Path) : p.below [] = p := by rw [below, List.append_nil]

theorem Path.below_child (p : Path) (name : String) (segments : List String) :
    (p.child name).below segments = p.below (name :: segments) := by
  rw [below, child, below, List.append_assoc, List.singleton_append]

/-- A tree of files in which every directory has proper names, in order. -/
inductive Node.WellFormed : Node → Prop
  | file (f : File) : WellFormed (.file f)
  | directory {entries : List (String × Node)} (names : ∀ e ∈ entries, Path.IsName e.1)
      (sorted : entries.Pairwise fun d e => d.1 < e.1) (inner : ∀ e ∈ entries, WellFormed e.2) :
      WellFormed (.directory entries)

namespace Node

section Descent

def descend : List String → Node → Except ReadError Node
  | [], node => .ok node
  | _ :: _, file _ => .error .notDirectory
  | segment :: rest, directory entries =>
    if Workspace.longestName < segment.utf8ByteSize then .error .nameTooLong
    else match entries.find? fun e => e.1 == segment with
      | none => .error .missing
      | some (_, inner) => descend rest inner

theorem follow_eq_descend (down : ".." ∉ parts) (node : Node) (above : List Node) :
    Workspace.follow (node :: above) parts = node.descend parts := by
  induction parts generalizing node above with
  | nil => rfl
  | cons segment rest ih =>
    rw [List.mem_cons, not_or] at down
    cases node with
    | file f => rfl
    | directory entries =>
      rw [Workspace.follow, descend, if_neg (Ne.symm down.1)]
      split
      · rfl
      · cases entries.find? fun e => e.1 == segment with
        | none => rfl
        | some e => exact ih down.2 _ _

theorem descend_append (ps qs : List String) (node : Node) :
    node.descend (ps ++ qs) = (node.descend ps).bind (descend qs) := by
  induction ps generalizing node with
  | nil => rfl
  | cons segment rest ih =>
    cases node with
    | file f => rfl
    | directory entries =>
      rw [List.cons_append, descend, descend]
      split
      · rfl
      · split
        · rfl
        · exact ih _

theorem exists_directory_of_descend {segment : String} {inner : Node}
    (h : node.descend (ps ++ [segment]) = .ok inner) : ∃ entries, node.descend ps = .ok (directory entries) := by
  rw [descend_append] at h
  cases hps : node.descend ps with
  | error e =>
    rw [hps] at h
    cases h
  | ok outer =>
    rw [hps] at h
    cases outer with
    | file f => cases h
    | directory entries => exact ⟨entries, rfl⟩

theorem find?_entry (sorted : entries.Pairwise fun d e => d.1 < e.1)
    (he : e ∈ entries) : entries.find? (fun d => d.1 == e.1) = some e := by
  induction entries with
  | nil => cases he
  | cons d rest ih =>
    obtain ⟨hd, hrest⟩ := List.pairwise_cons.1 sorted
    rcases List.mem_cons.1 he with rfl | he
    · rw [List.find?_cons_of_pos (by simp)]
    · -- Names before it are smaller, and so different ones.
      have hne : d.1 ≠ e.1 := fun heq => String.lt_irrefl e.1 (heq ▸ hd e he)
      rw [List.find?_cons_of_neg (by simpa using hne)]
      exact ih hrest he

end Descent

section Collection

theorem mem_filesBelow_iff :
    p ∈ filesBelow keepFile keepDirectory here entries ↔ ∃ e ∈ entries, keepDirectory (here.child e.1) = true ∧
      p ∈ e.2.files keepFile keepDirectory (here.child e.1) := by
  induction entries with
  | nil => simp [filesBelow]
  | cons e rest ih =>
    obtain ⟨name, node⟩ := e
    rw [filesBelow, List.mem_append, ih, List.exists_mem_cons_iff]
    refine or_congr_left ?_
    split <;> simp_all

/-- A file stands below a node, at the end of a path of segments. -/
inductive HasFile : Node → List String → Prop
  | here {entries : List (String × Node)} {name : String} {f : File} (entry : (name, file f) ∈ entries) :
      HasFile (directory entries) [name]
  | deeper {entries : List (String × Node)} {name : String} {inner : Node} {segments : List String}
      (entry : (name, inner) ∈ entries) (inside : HasFile inner segments) : HasFile (directory entries) (name :: segments)

theorem HasFile.ne_nil (h : node.HasFile segments) : segments ≠ [] := by
  cases h <;> exact List.cons_ne_nil _ _

/-- Segments lead from a node to a file below it, unless one of them is too long. -/
structure LeadsToFile (node : Node) (segments : List String) : Prop where
  names : ∀ s ∈ segments, Path.IsName s
  found : (∃ f, node.descend segments = .ok (file f)) ∨ node.descend segments = .error .nameTooLong

theorem LeadsToFile.cons (hw : (directory entries).WellFormed)
    (he : e ∈ entries) (hs : e.2.LeadsToFile segments) :
    (directory entries).LeadsToFile (e.1 :: segments) := by
  cases hw with
  | directory names sorted inner =>
    refine ⟨fun s hs' => ?_, ?_⟩
    · rcases List.mem_cons.1 hs' with rfl | hs'
      · exact names e he
      · exact hs.names s hs'
    · rw [descend]
      split
      · exact .inr rfl
      · rw [find?_entry sorted he]
        exact hs.found

theorem HasFile.leadsToFile (hw : node.WellFormed) (h : node.HasFile segments) :
    node.LeadsToFile segments := by
  induction h with
  | @here entries name f entry =>
    have hfile : (file f).LeadsToFile [] := ⟨by simp, .inl ⟨f, rfl⟩⟩
    exact .cons hw entry hfile
  | deeper entry inside ih =>
    cases hw with
    | directory names sorted inner => exact .cons (.directory names sorted inner) entry (ih (inner _ entry))

/-- The walk over a node collects the files below it that pass the test for files, if all directories on the way to them pass
the one for directories. -/
theorem mem_files_iff (hw : node.WellFormed) :
    p ∈ node.files keepFile keepDirectory here ↔ ∃ segments, p = here.below segments ∧ node.HasFile segments ∧
      keepFile p = true ∧
      ∀ above rest, above ++ rest = segments → above ≠ [] → rest ≠ [] → keepDirectory (here.below above) = true := by
  induction hw generalizing here with
  | file f =>
    refine ⟨fun hp => (List.not_mem_nil hp).elim, ?_⟩
    rintro ⟨segments, _, hfile, _⟩
    cases hfile
  | @directory entries names sorted inner ih =>
    rw [files, List.mem_append, mem_filesBelow_iff]
    constructor
    · rintro (hp | ⟨e, he, hkeepDirectory, hp⟩)
      · -- A file of the directory itself.
        obtain ⟨hp, hkeep⟩ := List.mem_filter.1 hp
        obtain ⟨name, hname, rfl⟩ := List.mem_map.1 hp
        obtain ⟨⟨n, f | es⟩, he, heq⟩ := List.mem_filterMap.1 hname
        · cases heq
          refine ⟨[n], rfl, .here he, hkeep, fun above rest happend habove hrest => ?_⟩
          rcases List.append_eq_singleton_iff.1 happend with ⟨hnil, _⟩ | ⟨_, hnil⟩
          · exact absurd hnil habove
          · exact absurd hnil hrest
        · cases heq
      · obtain ⟨segments, rfl, hfile, hkeep, hway⟩ := (ih e he).1 hp
        refine ⟨e.1 :: segments, Path.below_child .., .deeper he hfile, hkeep, fun above rest happend habove hrest => ?_⟩
        obtain ⟨first, above, rfl⟩ := List.exists_cons_of_ne_nil habove
        obtain ⟨rfl, htail⟩ := List.cons.inj happend
        rw [← Path.below_child]
        by_cases hnil : above = []
        · rw [hnil, Path.below_nil]
          exact hkeepDirectory
        · exact hway above rest htail hnil hrest
    · rintro ⟨segments, rfl, hfile, hkeep, hway⟩
      cases hfile with
      | @here _ name f entry =>
        refine .inl (List.mem_filter.2 ⟨List.mem_map.2 ⟨name, List.mem_filterMap.2 ⟨_, entry, rfl⟩, rfl⟩, hkeep⟩)
      | @deeper _ name inner segments entry inside =>
        refine .inr ⟨_, entry, hway [name] segments rfl (List.cons_ne_nil _ _) inside.ne_nil, (ih _ entry).2
          ⟨segments, (Path.below_child ..).symm, inside, hkeep, fun above rest happend _ hrest => ?_⟩⟩
        rw [Path.below_child]
        exact hway (name :: above) rest (by rw [List.cons_append, happend]) (List.cons_ne_nil _ _) hrest

end Collection

section Building

theorem mem_updateEntry     (he : e ∈ updateEntry name change entries) :
    e ∈ entries ∨ e = (name, change none) ∨ ∃ old, (name, old) ∈ entries ∧ e = (name, change (some old)) := by
  induction entries with
  | nil => exact .inr (.inl (List.mem_singleton.1 he))
  | cons d rest ih =>
    obtain ⟨n, node⟩ := d
    rw [updateEntry] at he
    split at he
    · rename_i hn
      rcases List.mem_cons.1 he with rfl | he
      · exact .inr (.inr ⟨node, hn ▸ List.mem_cons_self .., by rw [hn]⟩)
      · exact .inl (.tail _ he)
    · split at he
      · rcases List.mem_cons.1 he with rfl | he
        · exact .inr (.inl rfl)
        · exact .inl he
      · rcases List.mem_cons.1 he with rfl | he
        · exact .inl (.head _)
        · rcases ih he with he | he | ⟨old, hold, he⟩
          · exact .inl (.tail _ he)
          · exact .inr (.inl he)
          · exact .inr (.inr ⟨old, .tail _ hold, he⟩)

theorem mem_names_updateEntry     (he : e ∈ updateEntry name change entries) : e.1 = name ∨ ∃ d ∈ entries, e.1 = d.1 := by
  rcases mem_updateEntry he with he | rfl | ⟨old, _, rfl⟩
  · exact .inr ⟨e, he, rfl⟩
  · exact .inl rfl
  · exact .inl rfl

theorem sorted_updateEntry (sorted : entries.Pairwise fun d e => d.1 < e.1) :
    (updateEntry name change entries).Pairwise fun d e => d.1 < e.1 := by
  induction entries with
  | nil => exact List.pairwise_singleton ..
  | cons d rest ih =>
    obtain ⟨n, node⟩ := d
    obtain ⟨hhead, hrest⟩ := List.pairwise_cons.1 sorted
    rw [updateEntry]
    split
    · exact List.pairwise_cons.2 ⟨hhead, hrest⟩
    · rename_i hne
      split
      · rename_i hlt
        refine List.pairwise_cons.2 ⟨fun e he => ?_, sorted⟩
        rcases List.mem_cons.1 he with rfl | he
        · exact hlt
        · exact String.lt_trans hlt (hhead e he)
      · rename_i hnot
        -- The entry belongs further back.
        have hlt : n < name := by
          by_contra hge
          exact hne (String.le_antisymm (String.not_lt.1 hnot) (String.not_lt.1 hge))
        refine List.pairwise_cons.2 ⟨fun e he => ?_, ih hrest⟩
        rcases mem_names_updateEntry he with heq | ⟨d, hd, heq⟩
        · exact heq ▸ hlt
        · exact heq ▸ hhead d hd

theorem wellFormed_put (hleaf : leaf.WellFormed)
    (hs : ∀ s ∈ segments, Path.IsName s) (hold : old.WellFormed) : (Node.put leaf segments old).WellFormed := by
  induction segments generalizing old with
  | nil =>
    rw [Node.put.eq_def]
    dsimp only
    split
    · exact hold
    · exact hleaf
  | cons segment rest ih =>
    rw [List.forall_mem_cons] at hs
    have hempty : (directory []).WellFormed := .directory (by simp) .nil (by simp)
    -- Whatever stood at the place, the entries to be changed are in order.
    obtain ⟨entries, hentries, heq⟩ : ∃ entries, (directory entries).WellFormed ∧ Node.put leaf (segment :: rest) old =
        directory (updateEntry segment (fun inner => Node.put leaf rest (inner.getD (directory []))) entries) := by
      cases old with
      | file f => exact ⟨[], hempty, rfl⟩
      | directory es => exact ⟨es, hold, rfl⟩
    rw [heq]
    cases hentries with
    | directory names sorted inner =>
      refine .directory (fun e he => ?_) (sorted_updateEntry sorted) fun e he => ?_
      · rcases mem_names_updateEntry he with heq | ⟨d, hd, heq⟩
        · exact heq ▸ hs.1
        · exact heq ▸ names d hd
      · rcases mem_updateEntry he with he | rfl | ⟨node, hnode, rfl⟩
        · exact inner e he
        · exact ih hs.2 hempty
        · exact ih hs.2 (inner _ hnode)

end Building

end Node

theorem Path.join_top (here : Path) (parts : List String) : here.join ⟨"/", parts⟩ = ⟨"/", parts⟩ :=
  if_pos (by simp [isAbsolute])

namespace Workspace

variable {w : Workspace}

theorem canonical_of_names (hparts : ∀ s ∈ parts, Path.IsName s) (w : Workspace) :
    w.canonical (Path.mk "/" parts).toString = .ok ⟨"/", parts⟩ := by
  have hclean : (Path.mk "/" parts).IsClean :=
    fun s hs => ⟨(hparts s hs).ne_empty, (hparts s hs).ne_dot, (hparts s hs).no_slash⟩
  have hdown : ".." ∉ parts := fun hup => (hparts _ hup).ne_dots rfl
  have hnull : (Path.mk "/" parts).hasNull = false := Path.hasNull_eq_false.2 fun s hs => (hparts s hs).nullFree
  have hagain : Path.canonical w.here ⟨"/", parts⟩ = ⟨"/", parts⟩ := by
    rw [Path.canonical, Path.join_top, Path.foldl_step_of_down hdown, List.nil_append]
  simp only [canonical]
  rw [Path.ofString_toString hclean, hagain, if_neg (Bool.eq_false_iff.1 hnull)]

section

variable (hq : w.canonical path = .ok q)
include hq

theorem exists_names_of_canonical :
    q = ⟨"/", q.parts⟩ ∧ ∀ s ∈ q.parts, Path.IsName s := by
  obtain ⟨hclean, hdown, _⟩ := w.canonicalText_of_canonical hq
  simp only [canonical] at hq
  split at hq
  · cases hq
  · rename_i hnull
    cases hq
    refine ⟨rfl, fun s hs => ?_⟩
    obtain ⟨hempty, hdot, hslash⟩ := hclean s hs
    exact ⟨hempty, hdot, fun hup => hdown (hup ▸ hs), hslash, Path.hasNull_eq_false.1 (Bool.eq_false_iff.2 hnull) s hs⟩

theorem ofString_of_canonical :
    Path.ofString q.toString = q := by
  obtain ⟨hq, hnames⟩ := exists_names_of_canonical hq
  rw [hq]
  exact Path.ofString_toString fun s hs => ⟨(hnames s hs).ne_empty, (hnames s hs).ne_dot, (hnames s hs).no_slash⟩

theorem canonical_toString : w.canonical q.toString = .ok q := by
  obtain ⟨hq, hnames⟩ := exists_names_of_canonical hq
  rw [hq]
  exact canonical_of_names hnames w

theorem canonical_parent :
    w.canonical q.parent.toString = .ok q.parent := by
  obtain ⟨hq, hnames⟩ := exists_names_of_canonical hq
  rw [hq]
  exact canonical_of_names (fun s hs => hnames s (List.mem_of_mem_dropLast hs)) w

end

theorem lookup_of_names (hparts : ∀ s ∈ parts, Path.IsName s) : w.lookup ⟨"/", parts⟩ =
    if longestPath < (Path.mk "/" parts).toString.utf8ByteSize then .error .nameTooLong else w.top.descend parts := by
  have hdown : ".." ∉ parts := fun hup => (hparts _ hup).ne_dots rfl
  have hnull : (Path.mk "/" parts).hasNull = false := Path.hasNull_eq_false.2 fun s hs => (hparts s hs).nullFree
  rw [lookup, if_neg (Bool.eq_false_iff.1 hnull), Path.join_top, Node.follow_eq_descend hdown]

theorem wellFormed_of_follow (hchain : ∀ n ∈ chain, n.WellFormed)     (h : follow chain parts = .ok node) : node.WellFormed := by
  induction parts generalizing chain with
  | nil =>
    cases chain with
    | nil => cases h
    | cons n above => cases h; exact hchain _ (.head _)
  | cons segment rest ih =>
    cases chain with
    | nil => cases h
    | cons n above =>
      cases hchain n (.head _) with
      | file f => cases h
      | @directory entries names sorted inner =>
        rw [follow] at h
        split at h
        · refine ih (fun n hn => hchain n ?_) h
          split at hn
          · exact List.mem_cons.2 (.inl (List.mem_singleton.1 hn))
          · exact .tail _ hn
        · split at h
          · cases h
          · split at h
            · cases h
            · rename_i hfind
              exact ih (List.forall_mem_cons.2 ⟨inner _ (List.mem_of_find?_eq_some hfind), hchain⟩) h

theorem wellFormed_of_lookup (hw : w.top.WellFormed) (h : w.lookup p = .ok node) : node.WellFormed := by
  unfold lookup at h
  split at h
  · cases h
  · split at h
    · cases h
    · exact wellFormed_of_follow (by simpa using hw) h

/-- A collected path is canonical and that of a source file, and it leads to a file unless it is too long. -/
theorem lookup_of_mem_collectFiles (hw : w.top.WellFormed)
    (hroot : w.canonical path = .ok root) (hp : p ∈ collectFiles w excludes root) :
    w.canonical p.toString = .ok p ∧ p.suffix = ".py" ∧
      ((∃ f, w.lookup p = .ok (.file f)) ∨ w.lookup p = .error .nameTooLong) := by
  obtain ⟨hroot, hnames⟩ := exists_names_of_canonical hroot
  unfold collectFiles at hp
  split at hp
  · cases hp
  · rename_i node hnode
    have hinner := wellFormed_of_lookup hw hnode
    rw [hroot, lookup_of_names hnames] at hnode
    split at hnode
    · cases hnode
    obtain ⟨segments, rfl, hfile, hkeep, _⟩ := (Node.mem_files_iff hinner).1 hp
    have hleads := hfile.leadsToFile hinner
    have hparts : ∀ s ∈ root.parts ++ segments, Path.IsName s := by
      intro s hs
      exact (List.mem_append.1 hs).elim (hnames s) (hleads.names s)
    have hslash : root.root = "/" := by rw [hroot]
    rw [Path.below, hslash]
    rw [Path.below, hslash] at hkeep
    refine ⟨canonical_of_names hparts w, by simpa using (Bool.and_eq_true_iff.1 hkeep).1, ?_⟩
    rw [lookup_of_names hparts, Node.descend_append, hnode]
    split
    · exact .inr rfl
    · exact hleads.found

theorem utf8ByteSize_parent_le (ps : List String) (segment : String) :
    (Path.mk "/" ps).toString.utf8ByteSize ≤ (Path.mk "/" (ps ++ [segment])).toString.utf8ByteSize := by
  have htext : ∀ parts, (Path.mk "/" parts).toString = "/" ++ "/".intercalate parts := fun parts => by simp [Path.toString]
  rw [htext, htext, String.utf8ByteSize_append, String.utf8ByteSize_append]
  cases ps with
  | nil => simp
  | cons p rest =>
    rw [String.intercalate_append_of_ne_nil (by simp) (by simp), String.utf8ByteSize_append, String.utf8ByteSize_append]
    omega

theorem isDirectory_parent (hroot : w.canonical path = .ok root)
    (hdir : w.isDirectory root = true) : w.isDirectory root.parent = true := by
  obtain ⟨hroot, hnames⟩ := exists_names_of_canonical hroot
  rw [hroot] at hdir ⊢
  generalize root.parts = parts at hnames hdir
  rcases List.eq_nil_or_concat' parts with rfl | ⟨ps, segment, rfl⟩
  · exact hdir
  · have hps : ∀ s ∈ ps, Path.IsName s := fun s hs => hnames s (List.mem_append_left _ hs)
    unfold isDirectory at hdir
    split at hdir
    · rename_i entries hlookup
      rw [lookup_of_names hnames] at hlookup
      split at hlookup
      · cases hlookup
      · rename_i hshort
        obtain ⟨outer, houter⟩ := Node.exists_directory_of_descend hlookup
        have hsize := utf8ByteSize_parent_le ps segment
        rw [isDirectory, Path.parent, List.dropLast_concat, lookup_of_names hps, if_neg (by omega), houter]
    · cases hdir

theorem wellFormed_ofFiles (hfiles : ∀ f ∈ files, NullFree f.1) (hdirectories : ∀ d ∈ directories, NullFree d)
    (searchVariable : Option (List String)) : (ofFiles files directories searchVariable).top.WellFormed := by
  -- A path is made canonical before its segments become names of entries.
  have hplace : ∀ name, NullFree name → ∀ s ∈ (Path.canonical home (Path.ofString name)).parts, Path.IsName s := by
    intro name hname
    obtain ⟨q, hq⟩ := exists_canonical (w := ofFiles [] [] none) (by decide) hname
    have heq : q = Path.canonical home (Path.ofString name) := by
      simp only [canonical] at hq
      split at hq
      · cases hq
      · exact (Except.ok.inj hq).symm
    exact heq ▸ (exists_names_of_canonical hq).2
  have hfold : ∀ {α : Type} (xs : List α) (leaf : α → Node) (name : α → String), (∀ x ∈ xs, (leaf x).WellFormed) →
      (∀ x ∈ xs, NullFree (name x)) → ∀ {node : Node}, node.WellFormed →
      (xs.foldl (fun n x => Node.put (leaf x) (Path.canonical home (Path.ofString (name x))).parts n) node).WellFormed := by
    intro α xs leaf name hleaf hname
    induction xs with
    | nil => exact id
    | cons x xs ih =>
      intro node hnode
      rw [List.forall_mem_cons] at hleaf hname
      exact ih hleaf.2 hname.2 (Node.wellFormed_put hleaf.1 (hplace _ hname.1) hnode)
  have hempty : (Node.directory []).WellFormed := .directory (by simp) .nil (by simp)
  have hhome : ∀ s ∈ home.parts, Path.IsName s := by
    intro s hs
    obtain rfl := List.mem_singleton.1 hs
    exact ⟨by decide, by decide, by decide, by decide, by unfold NullFree; decide⟩
  refine hfold files (fun f => .file f.2) Prod.fst (fun f _ => .file f.2) hfiles ?_
  exact hfold directories (fun _ => .directory []) id (fun _ _ => hempty) hdirectories
    (Node.wellFormed_put hempty hhome hempty)

end Workspace

end Concordance
