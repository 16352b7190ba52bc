import Mathlib.Data.List.Forall2
import Concordance.Proofs.Workspace
import Concordance.Settings

/-!
# Where settings come from

Each setting has the value given for it, or else the one in the settings file, or else its usual one; the rows of search
paths and of patterns are those of the file and then the given ones. So it is if the settings stand in tables, search
paths are texts that can be paths and patterns stand in a list: then there are settings exactly if each value is of
its kind, and the fields at fault are rejected if not. But tables and rows are gone through before anything is checked. What
is no table ends in another error, and a text or a table in the place of a row is taken for the row of its
characters or of its names.
-/

namespace Concordance

namespace Validation

variable {α : Type}

theorem both_eq_ok : both a b = .ok x ↔ a = .ok x.1 ∧ b = .ok x.2 := by
  rcases a with _ | a <;> rcases b with _ | b <;> simp [both, Prod.ext_iff]

theorem field_eq_ok : field name check d = .ok a ↔ check d = .ok a := by
  rw [field]
  cases check d <;> simp

theorem itemsFrom_eq_ok : itemsFrom name check i ds = .ok as ↔ List.Forall₂ (fun d a => check d = .ok a) ds as := by
  induction ds generalizing i as with
  | nil => simp [itemsFrom, eq_comm]
  | cons d ds ih =>
    cases as with
    | nil =>
      rw [itemsFrom]
      cases both _ (itemsFrom name check (i + 1) ds) <;> simp [Except.map]
    | cons a as =>
      rw [List.forall₂_cons, ← ih (i := i + 1), itemsFrom]
      cases check d <;> cases itemsFrom name check (i + 1) ds <;> simp [both, Except.map]

theorem optional_field_eq_ok : optional name usual (field name check) d = .ok a ↔
    (d.field? name).elim (a = usual) fun v => check v = .ok a := by
  rw [optional]
  cases d.field? name with
  | none => simp [eq_comm]
  | some v => exact field_eq_ok

theorem optional_of_some {check : Document → Check α} (hv : d.field? name = some v) :
    optional name usual check d = check v := by
  rw [optional, hv]

theorem forall₂_text : List.Forall₂ (fun d t => text d = .ok t) ds ts ↔ ds = ts.map .text := by
  have htext : ∀ d t, text d = .ok t ↔ d = .text t := fun d t => by cases d <;> simp [text]
  simp only [htext]
  rw [← List.forall₂_eq_eq_eq, List.forall₂_map_right_iff]

end Validation

theorem mapM_eq_ok {α β ε : Type} {f : α → Except ε β} {xs : List α} {ys : List β} :
    xs.mapM f = .ok ys ↔ List.Forall₂ (fun x y => f x = .ok y) xs ys := by
  induction xs generalizing ys with
  | nil => cases ys <;> simp [pure, Except.pure]
  | cons x xs ih =>
    cases ys with
    | nil => cases hx : f x <;> cases hxs : xs.mapM f <;> simp [List.mapM_cons, hx, hxs, bind, Except.bind, pure, Except.pure]
    | cons y ys =>
      rw [List.forall₂_cons, ← ih]
      cases hx : f x <;> cases hxs : xs.mapM f <;> simp [List.mapM_cons, hx, hxs, bind, Except.bind, pure, Except.pure]

namespace Settings

/-- The value of a row of texts: it is absent, or a list of texts. -/
def TextRow (v : Option Document) (ts : List String) : Prop := v = none ∧ ts = [] ∨ v = some (.list (ts.map .text))

/-- The value of a row as it is gone through: a text counts as the row of its characters, a table as that of its names. -/
def LooseRow (v : Option Document) (ts : List String) : Prop :=
  TextRow v ts ∨ (∃ t, v = some (.text t) ∧ ts = t.toList.map fun c => String.ofList [c]) ∨
    ∃ fs, v = some (.table fs) ∧ ts = fs.map Prod.fst

/-- The value of a setting: the given one, else the one in the file, else the usual one. -/
def Settled {α : Type} (table args : Document) (name : String) (check : Document → Except Rejection α) (usual value : α) :
    Prop :=
  ((given args name).or (table.field? name)).elim (value = usual) fun v => check v = .ok value

/-- A search path as seen from a directory, or as it is. -/
def origin (dir : Option Path) (t : String) : Path := dir.elim (.ofString t) (·.join (.ofString t))

/-- None of the search paths has a null character, which no path can have. -/
def Nameable (dir : Option Path) (ts : List String) : Prop := ∀ t ∈ ts, (origin dir t).hasNull = false

/-- Where a search path leads. -/
def place (w : Workspace) (dir : Option Path) (t : String) : String := (Path.canonical w.here (origin dir t)).toString

/-- Settings that follow a file of the directory `dir` and what is given; `Row` says which values count as rows. -/
structure Follows (Row : Option Document → List String → Prop) (w : Workspace) (dir : Path) (table args : Document)
    (s : Settings) : Prop where
  searchPaths : ∃ ps gs, Row (table.field? "search_paths") ps ∧ Row (given args "search_paths") gs ∧
    s.searchPaths = ps.map (place w (some dir)) ++ gs.map (place w none)
  excludes : ∃ es gs, Row (table.field? "excludes") es ∧ Row (given args "excludes") gs ∧ s.excludes = es ++ gs
  useSearchVariable : Settled table args "use_pythonpath" Validation.boolean true s.useSearchVariable
  reportUnused : Settled table args "report_unused" Validation.boolean true s.reportUnused
  maxErrorsShown : Settled table args "max_errors_shown" limit 50 s.maxErrorsShown
  strictPaths : Settled table args "strict_paths" Validation.boolean false s.strictPaths

theorem forall₂_path {qs : List String} : List.Forall₂ (fun d p => path d = .ok p) (qs.map .text) ps ↔
    ps = qs.map fun q => (Path.ofString q).toString := by
  rw [List.forall₂_map_left_iff, eq_comm, ← List.forall₂_eq_eq_eq, List.forall₂_map_left_iff]
  simp [path]

theorem map_eq_ok_iff {α β ε : Type} {f : α → β} {x : Except ε α} {b : β} : x.map f = .ok b ↔ ∃ a, x = .ok a ∧ f a = b := by
  cases x <;> simp [Except.map]

theorem field?_combined (hname : name ∈ ["use_pythonpath", "report_unused", "max_errors_shown", "strict_paths"]) :
    (combined table args ps es).field? name = (given args name).or (table.field? name) := by
  simp only [List.mem_cons, List.not_mem_nil, or_false] at hname
  simp only [combined, List.flatMap_cons, List.flatMap_nil]
  rcases hname with rfl | rfl | rfl | rfl <;>
    cases (given args "use_pythonpath").or (table.field? "use_pythonpath") <;>
    cases (given args "report_unused").or (table.field? "report_unused") <;>
    cases (given args "max_errors_shown").or (table.field? "max_errors_shown") <;>
    cases (given args "strict_paths").or (table.field? "strict_paths") <;> rfl

theorem optional_combined {check : Document → Except Rejection α}
    {usual x : α} (hname : name ∈ ["use_pythonpath", "report_unused", "max_errors_shown", "strict_paths"]) :
    Validation.optional name usual (Validation.field name check) (combined table args ps es) = .ok x ↔
      Settled table args name check usual x := by
  rw [Validation.optional_field_eq_ok, field?_combined hname, Settled]

/-- The settings in the combined fields: each is of its kind, and rows are rows of texts. -/
theorem fromDocument_combined {qs : List String} : fromDocument (combined table args (qs.map .text) es) = .ok s ↔
      s.searchPaths = (qs.map fun q => (Path.ofString q).toString) ∧ es = s.excludes.map .text ∧
      Settled table args "use_pythonpath" Validation.boolean true s.useSearchVariable ∧
      Settled table args "report_unused" Validation.boolean true s.reportUnused ∧
      Settled table args "max_errors_shown" limit 50 s.maxErrorsShown ∧
      Settled table args "strict_paths" Validation.boolean false s.strictPaths := by
  have hpaths : (combined table args (qs.map .text) es).field? "search_paths" = some (.list (qs.map .text)) := rfl
  have hexcludes : (combined table args (qs.map .text) es).field? "excludes" = some (.list es) := rfl
  have hok : fromDocument (combined table args (qs.map .text) es) = .ok s ↔
      ofDocument (combined table args (qs.map .text) es) = .ok s := by
    rw [fromDocument]
    cases ofDocument (combined table args (qs.map .text) es) <;> simp
  rw [hok, ofDocument, map_eq_ok_iff]
  simp only [Validation.both_eq_ok, optional_combined (.head _), Validation.optional_of_some hpaths,
    optional_combined (show "report_unused" ∈ _ by simp), optional_combined (show "max_errors_shown" ∈ _ by simp),
    optional_combined (show "strict_paths" ∈ _ by simp), Validation.optional_of_some hexcludes, Validation.list,
    Validation.itemsFrom_eq_ok, Validation.forall₂_text, forall₂_path]
  constructor
  · rintro ⟨_, ⟨hp, hv, hu, he, hm, hs⟩, rfl⟩
    exact ⟨hp, he, hv, hu, hm, hs⟩
  · rintro ⟨hp, he, hv, hu, hm, hs⟩
    exact ⟨(_, _, _, _, _, _), ⟨hp, hv, hu, he, hm, hs⟩, rfl⟩

section Rows

theorem TextRow.rowOf (hv : TextRow v ts) : rowOf (v.getD (.list [])) = .ok (ts.map .text) := by
  rcases hv with ⟨rfl, rfl⟩ | rfl <;> rfl

theorem TextRow.rowOfOption (hv : TextRow v ts) : rowOfOption v = .ok (ts.map .text) := by
  rcases hv with ⟨rfl, rfl⟩ | rfl <;> rfl

theorem text_injective : Function.Injective (List.map Document.text) := List.map_injective_iff.2 fun _ _ => Document.text.inj

theorem looseRow_of_rowOf (hrow : rowOf (v.getD (.list [])) = .ok (ts.map .text)) : LooseRow v ts := by
  rcases v with _ | v
  · have hnil : ([] : List Document) = ts.map .text := Except.ok.inj hrow
    exact .inl (.inl ⟨rfl, by simpa using hnil.symm⟩)
  cases v with
  | list ds => exact .inl (.inr (congrArg (fun row => some (Document.list row)) (Except.ok.inj hrow)))
  | text t =>
    refine .inr (.inl ⟨t, rfl, text_injective ?_⟩)
    rw [List.map_map]
    exact (Except.ok.inj hrow).symm
  | table fs =>
    refine .inr (.inr ⟨fs, rfl, text_injective ?_⟩)
    rw [List.map_map]
    exact (Except.ok.inj hrow).symm
  | _ => cases hrow

theorem anchored_eq_ok : anchored w dir d = .ok y ↔ ∃ t, d = .text t ∧ (origin dir t).hasNull = false ∧
    y = .text (place w dir t) := by
  cases d with
  | text t =>
    have hrun : anchored w dir (.text t) =
        (orFault (w.resolved (origin dir t))).map fun p => .text p.toString := by cases dir <;> rfl
    rw [hrun, Workspace.resolved]
    cases hnull : (origin dir t).hasNull with
    | true => simp [orFault, Except.map, hnull]
    | false => simpa [orFault, Except.map, hnull, place] using eq_comm
  | _ => simp [anchored]

theorem mapM_anchored : ds.mapM (anchored w dir) = .ok ys ↔ ∃ ts : List String, ds = ts.map .text ∧ Nameable dir ts ∧
    ys = (ts.map (place w dir)).map .text := by
  rw [mapM_eq_ok]
  constructor
  · intro hrow
    induction hrow with
    | nil => exact ⟨[], rfl, List.forall_mem_nil _, rfl⟩
    | cons hd _ ih =>
      obtain ⟨ts, rfl, hts, rfl⟩ := ih
      obtain ⟨t, rfl, ht, rfl⟩ := anchored_eq_ok.1 hd
      exact ⟨t :: ts, rfl, List.forall_mem_cons.2 ⟨ht, hts⟩, rfl⟩
  · rintro ⟨ts, rfl, hts, rfl⟩
    rw [List.map_map, List.forall₂_map_left_iff, List.forall₂_map_right_iff, List.forall₂_same]
    exact fun t ht => anchored_eq_ok.2 ⟨t, rfl, hts t ht, rfl⟩

end Rows

theorem bind_eq_ok_iff {ε : Type} {x : Except ε α} {f : α → Except ε β} {b : β} :
    (x >>= f) = .ok b ↔ ∃ a, x = .ok a ∧ f a = .ok b := by
  cases x <;> simp [bind, Except.bind]

section Found

variable {p : Path}

theorem mem_of_firstFile (hfile : firstFile w dirs = .ok (some (dir, f))) : dir ∈ dirs := by
  induction dirs with
  | nil => cases hfile
  | cons first rest ih =>
    rw [firstFile] at hfile
    split at hfile
    · cases hfile
      exact .head _
    · cases hfile
    · exact .tail _ (ih hfile)

theorem table_of_documentOf (hd : documentOf f = .ok (.ok d)) : ∃ fs, d = .table fs := by
  rw [documentOf] at hd
  split at hd
  · cases hd
  rename_i text _
  cases hread : Toml.read text with
  | error e => cases e <;> simp [hread] at hd
  | ok d' =>
    simp only [hread, Except.ok.injEq] at hd
    subst hd
    rw [Toml.read] at hread
    split at hread <;> cases hread
    exact ⟨_, rfl⟩

theorem find_document (hfind : find w p = .ok (.document d dir)) :
    dir ∈ (Path.canonical w.here p).withAncestors ∧ ∃ fs, d = .table fs := by
  obtain ⟨found, hfile, hrest⟩ := bind_eq_ok_iff.1 hfind
  rcases found with _ | ⟨dir', f⟩
  · cases hrest
  obtain ⟨read, hread, hrest⟩ := bind_eq_ok_iff.1 hrest
  rcases read with _ | d'
  · cases hrest
  cases hrest
  refine ⟨?_, table_of_documentOf hread⟩
  have hfile : w.resolved p >>= findFile w = .ok (some (dir, f)) := by
    cases hrun : w.resolved p >>= findFile w <;> rw [hrun] at hfile <;> cases hfile
    rfl
  obtain ⟨q, hq, hfile⟩ := bind_eq_ok_iff.1 hfile
  rw [Workspace.resolved] at hq
  split at hq <;> cases hq
  exact mem_of_firstFile hfile

theorem isClean_of_mem_withAncestors (hp : p.IsClean) (hq : q ∈ p.withAncestors) : q.IsClean := by
  obtain ⟨n, -, rfl⟩ := List.mem_map.1 hq
  exact fun x hx => hp x (List.mem_of_mem_take hx)

/-- A place is a canonical path, which is read back from its text. -/
theorem ofString_place {dir : Option Path} (hdir : ∀ q ∈ dir, q.IsClean) (t : String) :
    (Path.ofString (place w dir t)).toString = place w dir t := by
  have horigin : (origin dir t).IsClean := by
    rcases dir with _ | dir
    · exact Path.isClean_ofString t
    · intro x hx
      rw [origin, Option.elim_some, Path.join] at hx
      split at hx
      · exact Path.isClean_ofString t x hx
      · exact (List.mem_append.1 hx).elim (hdir dir rfl x) (Path.isClean_ofString t x)
  exact congrArg Path.toString (Path.ofString_toString (Path.isClean_canonical w.clean horigin))

end Found

/-- The table of the settings in a document. -/
def own (d : Document) : Document := (((d.field? "tool").getD (.table [])).field? "pyxref").getD (.table [])

/-- The tables around the settings are tables, or absent. -/
def HasTables (d : Document) : Prop := (∃ fs, (d.field? "tool").getD (.table []) = .table fs) ∧ ∃ fs, own d = .table fs

theorem tableOf_of_hasTables (ht : HasTables (.table fields)) :
    tableOf (.table fields) = .ok (own (.table fields)) := by
  obtain ⟨⟨fs, htool⟩, gs, hown⟩ := ht
  have htool' : subtable (.table fields) "tool" = .ok (.table fs) := congrArg Except.ok htool
  have hown' : subtable (.table fs) "pyxref" = .ok (.table gs) := congrArg Except.ok (by rw [← hown, own, htool])
  rw [hown]
  simp only [tableOf, htool', hown', bind, Except.bind]
  rfl

theorem tableOf_of_not_hasTables (ht : ¬ HasTables (.table fields)) : tableOf (.table fields) = .error .noTable := by
  have htool' : subtable (.table fields) "tool" = .ok (((Document.table fields).field? "tool").getD (.table [])) := rfl
  simp only [tableOf, htool', bind, Except.bind]
  cases htool : ((Document.table fields).field? "tool").getD (.table []) with
  | table fs =>
    have hown' : subtable (.table fs) "pyxref" = .ok (own (.table fields)) := congrArg Except.ok (by rw [own, htool])
    rw [hown']
    cases hown : own (.table fields) with
    | table gs => exact absurd ⟨⟨fs, htool⟩, gs, hown⟩ ht
    | _ => rfl
  | _ => rfl

/-- A document in which everything that is gone through before it is checked is of its kind. -/
structure Orderly (d : Document) (dir : Path) : Prop where
  tables : HasTables d
  searchPaths : ∃ ps, TextRow ((own d).field? "search_paths") ps ∧ Nameable (some dir) ps
  excludes : ∀ v, (own d).field? "excludes" = some v → ∃ es, v = .list es

theorem LooseRow.textRow (hv : LooseRow v ts) (hlist : ∀ d, v = some d → ∃ ds, d = .list ds) : TextRow v ts := by
  rcases hv with hv | ⟨t, rfl, -⟩ | ⟨fs, rfl, -⟩
  · exact hv
  · obtain ⟨ds, hds⟩ := hlist _ rfl
    cases hds
  · obtain ⟨ds, hds⟩ := hlist _ rfl
    cases hds

theorem TextRow.unique (hv : TextRow v ts) (hv' : TextRow v us) : ts = us := by
  exact text_injective (Except.ok.inj (hv.rowOf.symm.trans hv'.rowOf))

theorem TextRow.isList (hv : TextRow v ts) : ∀ d, v = some d → ∃ ds, d = .list ds := by
  rintro d rfl
  rcases hv with ⟨hnone, -⟩ | heq
  · cases hnone
  · exact ⟨_, Option.some.inj heq⟩

theorem map_places (hdir : dir.IsClean) (ps gs : List String) :
    ((ps.map (place w (some dir)) ++ gs.map (place w none)).map fun q => (Path.ofString q).toString) =
      ps.map (place w (some dir)) ++ gs.map (place w none) := by
  have hfile : ∀ p, (Path.ofString (place w (some dir) p)).toString = place w (some dir) p := ofString_place (by simpa using hdir)
  have hgiven : ∀ g, (Path.ofString (place w none g)).toString = place w none g := ofString_place (by simp)
  simp only [List.map_append, List.map_map, Function.comp_def, hfile, hgiven]

section Merge

variable (hgs : TextRow (given args "search_paths") gs) (hxs : TextRow (given args "excludes") xs)
include hgs hxs

/-- Whatever is taken follows the file and what is given, up to what counts as a row. -/
theorem follows_of_merge (hdir : dir.IsClean) (hs : merge w (.document d dir) args = .ok s) :
    ∃ table, tableOf d = .ok table ∧ Follows LooseRow w dir table args s := by
  simp only [merge, Found.table, bind_eq_ok_iff, mapM_anchored] at hs
  obtain ⟨_, ⟨table, htable, heq⟩, _, hps, _, ⟨ps, rfl, -, rfl⟩, _, hgs', _, ⟨gs', rfl, -, rfl⟩, es, hes, ys, hys, hs⟩ := hs
  cases heq
  rw [← List.map_append, fromDocument_combined] at hs
  obtain ⟨hpaths, hexcludes, hvariable, hunused, hshown, hstrict⟩ := hs
  refine ⟨table, htable, ⟨ps, gs', looseRow_of_rowOf hps, .inl ?_, hpaths.trans (map_places hdir ..)⟩, ?_, hvariable, hunused,
    hshown, hstrict⟩
  · exact text_injective (Except.ok.inj (hgs.rowOfOption.symm.trans hgs')) ▸ hgs
  · cases Except.ok.inj (hxs.rowOfOption.symm.trans hys)
    obtain ⟨es', xs', hsplit, rfl, hxs'⟩ := List.map_eq_append_iff.1 hexcludes.symm
    exact ⟨es', xs', looseRow_of_rowOf hes, .inl (text_injective hxs' ▸ hxs), hsplit⟩

/-- In an orderly document the rows are gone through without an error, and all that is left is to check the fields. -/
theorem merge_of_orderly (horderly : Orderly (.table fields) dir)
    (hnull : Nameable none gs) : ∃ ps es, TextRow ((own (.table fields)).field? "search_paths") ps ∧
    rowOf (((own (.table fields)).field? "excludes").getD (.list [])) = .ok es ∧
    merge w (.document (.table fields) dir) args = fromDocument (combined (own (.table fields)) args
      ((ps.map (place w (some dir)) ++ gs.map (place w none)).map .text) (es ++ xs.map .text)) := by
  obtain ⟨ps, hps, hnull'⟩ := horderly.searchPaths
  have hexcludes : ∃ es, rowOf (((own (.table fields)).field? "excludes").getD (.list [])) = .ok es := by
    cases hv : (own (.table fields)).field? "excludes" with
    | none => exact ⟨[], rfl⟩
    | some v =>
      obtain ⟨es, rfl⟩ := horderly.excludes v hv
      exact ⟨es, rfl⟩
  obtain ⟨es, hes⟩ := hexcludes
  refine ⟨ps, es, hps, hes, ?_⟩
  simp only [merge, Found.table, tableOf_of_hasTables horderly.tables, bind, Except.bind, pure, Except.pure, hps.rowOf,
    hgs.rowOfOption, hxs.rowOfOption, hes, mapM_anchored.2 ⟨ps, rfl, hnull', rfl⟩, mapM_anchored.2 ⟨gs, rfl, hnull, rfl⟩,
    List.map_append]

end Merge

end Settings

open Settings in
/-- What comes of a settings file and explicit values. Where something else stands in the place of a table, there is an
error that is no rejection. Settings that are taken follow the file and what is given, but a text or a table counts as a
row, too. In an orderly file only rows of texts do, and there are settings if and only if some follow it; if not, fields are
rejected and nothing else goes wrong. -/
theorem settings_follow_file_unless_misshapen {w : Workspace} {start : String} {d args : Document} {dir : Path}
    {gs xs : List String} (hfind : find w (.ofString start) = .ok (.document d dir))
    (hgs : TextRow (given args "search_paths") gs) (hnull : Nameable none gs) (hxs : TextRow (given args "excludes") xs) :
    (¬ HasTables d → (load w (.ofString start) args).1 = .error .noTable) ∧
    (∀ s, (load w (.ofString start) args).1 = .ok s → Follows LooseRow w dir (own d) args s) ∧
    (Orderly d dir → (∀ s, (load w (.ofString start) args).1 = .ok s ↔ Follows TextRow w dir (own d) args s) ∧
      ((∃ s, (load w (.ofString start) args).1 = .ok s) ∨
        ∃ errors, (load w (.ofString start) args).1 = .error (.rejected errors))) := by
  obtain ⟨hmem, fields, rfl⟩ := find_document hfind
  have hdir : dir.IsClean := isClean_of_mem_withAncestors (Path.isClean_canonical w.clean (Path.isClean_ofString start)) hmem
  have hload : (load w (.ofString start) args).1 = merge w (.document (.table fields) dir) args := by
    rw [load, hfind]
    rfl
  rw [hload]
  have hfollows : ∀ s, merge w (.document (.table fields) dir) args = .ok s →
      Follows LooseRow w dir (own (.table fields)) args s := by
    intro s hs
    obtain ⟨table, htable, hloose⟩ := follows_of_merge hgs hxs hdir hs
    by_cases htables : HasTables (.table fields)
    · cases (tableOf_of_hasTables htables).symm.trans htable
      exact hloose
    · cases (tableOf_of_not_hasTables htables).symm.trans htable
  refine ⟨fun htables => ?_, hfollows, fun horderly => ?_⟩
  · simp only [merge, Found.table, tableOf_of_not_hasTables htables]
    rfl
  obtain ⟨ps, es, hps, hes, hmerge⟩ := merge_of_orderly (w := w) hgs hxs horderly hnull
  refine ⟨fun s => ⟨fun hs => ?_, fun hs => ?_⟩, ?_⟩
  · -- A row that is neither a text nor a table is a row of texts.
    have hloose := hfollows s hs
    obtain ⟨ps', gs', hps', hgs', hpaths⟩ := hloose.searchPaths
    obtain ⟨es', xs', hes', hxs', hexcludes⟩ := hloose.excludes
    exact { hloose with
      searchPaths := ⟨ps', gs', hps'.textRow hps.isList, hgs'.textRow hgs.isList, hpaths⟩
      excludes := ⟨es', xs', hes'.textRow horderly.excludes, hxs'.textRow hxs.isList, hexcludes⟩ }
  · obtain ⟨ps', gs', hps', hgs', hpaths⟩ := hs.searchPaths
    obtain ⟨es', xs', hes', hxs', hexcludes⟩ := hs.excludes
    cases hps.unique hps'
    cases hgs.unique hgs'
    cases hxs.unique hxs'
    cases Except.ok.inj (hes.symm.trans hes'.rowOf)
    rw [hmerge, fromDocument_combined, hexcludes]
    exact ⟨hpaths.trans (map_places hdir ..).symm, List.map_append.symm, hs.useSearchVariable, hs.reportUnused, hs.maxErrorsShown,
      hs.strictPaths⟩
  · rw [hmerge, fromDocument]
    cases ofDocument (combined _ args _ _) <;> simp

section Examples

open Settings

def Settings.Found.document? : Found → Option (Document × Path)
  | .document d dir => some (d, dir)
  | _ => none

/-- A workspace with a settings file. -/
def configured (settings : String) : Workspace := .ofFiles [("pyproject.toml", ⟨settings.toUTF8, .invalid⟩)] [] none

theorem exists_document (w : Workspace) (p : Path) (test : Document × Path → Bool)
    (h : ((find w p).toOption.bind Found.document?).any test = true) :
    ∃ d dir, find w p = .ok (.document d dir) ∧ test (d, dir) = true := by
  rcases hfind : find w p with _ | _ | _ | ⟨d, dir⟩ <;> rw [hfind] at h
  · cases h
  · cases h
  · cases h
  · exact ⟨d, dir, rfl, h⟩

def describedProject : Workspace :=
  configured "tool.pyxref.search_paths=['lib']\ntool.pyxref.excludes=['a']\ntool.pyxref.report_unused=false"

def describedArgs : Document := .table [("report_unused", .bool true), ("excludes", .list [.text "b"])]

/-- The given value wins over the one in the file, and the rows are put together. -/
theorem settings_follow_file_unless_misshapen_givenWins : ∃ d dir s,
    find describedProject (.ofString "") = .ok (.document d dir) ∧
    TextRow (given describedArgs "search_paths") [] ∧ TextRow (given describedArgs "excludes") ["b"] ∧
    (load describedProject (.ofString "") describedArgs).1 = .ok s ∧ s.searchPaths = ["/w/lib"] ∧ s.excludes = ["a", "b"] ∧
    s.reportUnused = true ∧ Follows LooseRow describedProject dir (own d) describedArgs s := by
  have hrun : (load describedProject (.ofString "") describedArgs).1.toOption =
      some { searchPaths := ["/w/lib"], excludes := ["a", "b"] } := by decide +kernel
  obtain ⟨d, dir, hfind, -⟩ := exists_document describedProject (.ofString "") (fun _ => true) (by decide +kernel)
  have hgs : TextRow (given describedArgs "search_paths") [] := .inl ⟨rfl, rfl⟩
  have hxs : TextRow (given describedArgs "excludes") ["b"] := .inr rfl
  rcases hload : (load describedProject (.ofString "") describedArgs).1 with _ | s <;> rw [hload] at hrun
  · cases hrun
  cases hrun
  exact ⟨d, dir, _, hfind, hgs, hxs, rfl, rfl, rfl, rfl,
    (settings_follow_file_unless_misshapen hfind hgs (List.forall_mem_nil _) hxs).2.1 _ hload⟩

/-- A text in the place of the row of patterns is accepted, as the row of its characters. -/
theorem text_accepted_as_row : ∃ w d dir s, find w (.ofString "") = .ok (.document d dir) ∧
    (∀ ts, ¬ TextRow ((own d).field? "excludes") ts) ∧ (load w (.ofString "") (.table [])).1 = .ok s ∧
    s.excludes = ["a", "b"] := by
  have hrun : (load (configured "tool.pyxref.excludes='ab'") (.ofString "") (.table [])).1.toOption =
      some { excludes := ["a", "b"] } := by decide +kernel
  obtain ⟨d, dir, hfind, htext⟩ := exists_document (configured "tool.pyxref.excludes='ab'") (.ofString "")
    (fun found => ((own found.1).field? "excludes").bind Document.text? == some "ab") (by decide +kernel)
  rcases hload : (load (configured "tool.pyxref.excludes='ab'") (.ofString "") (.table [])).1 with _ | s <;>
    rw [hload] at hrun
  · cases hrun
  cases hrun
  refine ⟨_, d, dir, _, hfind, fun ts hts => ?_, hload, rfl⟩
  rcases hts with ⟨hnone, -⟩ | hlist
  · simp [hnone] at htext
  · simp [hlist, Document.text?] at htext

end Examples

end Concordance
