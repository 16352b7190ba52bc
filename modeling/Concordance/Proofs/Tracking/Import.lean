import Concordance.Proofs.Tracking.Entry

/-!
# Imports enter their names

An import that ends well leaves an entry for the name that it is to bind in the scope where it stands: the other name if
one is given, or else the first segment of the dotted name, or the name that is imported from a module.
-/

namespace Concordance

open Session (moduleTable)
open Syntax (Alias Ident Stmt)

variable {s : Session}

section Segments

theorem Text.head_split_append (sep : Char) (cs rest : List Char) :
    (Text.split sep (cs ++ sep :: rest)).head? = (Text.split sep cs).head? := by
  induction cs with
  | nil => simp [Text.split]
  | cons c cs ih =>
    rw [List.cons_append, Text.split, Text.split]
    obtain ⟨p, ps, hp⟩ := List.exists_cons_of_ne_nil (Text.split_ne_nil sep (cs ++ sep :: rest))
    obtain ⟨q, qs, hq⟩ := List.exists_cons_of_ne_nil (Text.split_ne_nil sep cs)
    rw [hp, hq] at ih
    cases ih
    rw [hp, hq]
    split <;> rfl

theorem firstSegment_intercalate (x : String) (xs : List String) :
    firstSegment (".".intercalate (x :: xs)) = firstSegment x := by
  cases xs with
  | nil => rw [String.intercalate_singleton]
  | cons y ys =>
    rw [String.intercalate_cons_cons, firstSegment, firstSegment, Text.fields, Text.fields, List.head?_map, List.head?_map]
    have htext : (x ++ "." ++ ".".intercalate (y :: ys)).toList = x.toList ++ '.' :: (".".intercalate (y :: ys)).toList := by
      simp [String.toList_append]
    rw [htext, Text.head_split_append]

end Segments

def Syntax.Alias.dotted (a : Alias) : String := ".".intercalate (a.path.map Ident.text)

/-- The aliases of an import that binds names one by one. What is imported from a module has no dotted name. -/
def Syntax.Stmt.aliases : Stmt → List Alias
  | .importModules modules => modules
  | .importNames _ _ names => names.filter fun a => a.path.length = 1
  | _ => []

/-- A module that is neither registered nor of the standard library. -/
def Session.Misses (s : Session) (qname : String) : Prop :=
  firstSegment qname ∉ Library.modules ∧ s.library.registered.get? qname = none

/-- A module is registered under the dotted name that is imported, but nothing is known by its first segment. -/
def Session.Overlooks (s : Session) (a : Alias) : Prop :=
  a.rename = none ∧ s.library.registered.get? a.dotted ≠ none ∧ ∃ first ∈ a.path.head?, s.Misses first.text

section Library

theorem runOn_libraryModule_of_misses (env : Environment) (ho : s.Ordered) (hq : s.Misses qname) :
    (libraryModule? qname).runOn env s = (.ok none, s) := by
  rw [libraryModule?, runOn_get_bind, (ho.stocked qname hq.1).2 hq.2]
  dsimp only
  rw [if_neg hq.1]
  rfl

theorem misses_of_runOn_libraryModule (ho : s.Ordered) (hrun : (libraryModule? qname).runOn env s = (.ok none, s')) :
    s.Misses qname := by
  rw [libraryModule?, runOn_get_bind] at hrun
  split at hrun
  · cases hrun
  · rename_i hnone
    split at hrun
    · cases hrun
    · rename_i hout
      exact ⟨hout, (ho.stocked qname hout).1 hnone⟩

end Library

section Loading

theorem bindSegment_enters (hx : s.Stands place (.stmt x)) (hsite : s.Segment first)
    (htakes : s.Takes place.scope first.name) (m : ModuleId) (kind : BindingKind) :
    Enters env s place.scope first.name (bindSegment none (some place.scope) first m kind) := by
  refine ⟨fun s1 hs1 ho => ?_⟩
  have hx1 := hx.later hs1.before
  have htracks : Tracks env s1 s1 (bindSegment none (some place.scope) first m kind)
      (bindSegment none (some place.scope) first m kind) := by
    refine bindSegment_tracks (fun heq => ho.scope_ne hx1 (Option.some.inj heq)) (hsite.later hs1.before) ?_ m kind
    rintro - y hy
    cases hy
    exact htakes.later hs1.before
  refine ⟨htracks.endures ho, fun a s2 hrun => ?_⟩
  obtain ⟨b, s3, hbind, hentry, _⟩ :=
    runOn_bindIn_enters env s1 (ho.mayEnclose hx1).2 first.name (some first) (s1.heap.module m).type kind
  rw [bindSegment, runOn_theHeap_bind, runOn_discard, hbind] at hrun
  cases hrun
  exact .inl hentry

variable (hx : s.Stands place (.stmt x)) (hsites : ∀ site ∈ first :: rest, s.Segment site)
  (htakes : s.Takes place.scope first.name)
include hx hsites htakes

theorem bindLibrarySegments_enters (hknown : ¬ s.Misses first.name) :
    Enters env s place.scope first.name (bindLibrarySegments (some place.scope) [] none (first :: rest)) := by
  rw [List.forall_mem_cons] at hsites
  refine (Achieves.of_tracks (libraryModule_tracks _)).bind fun found s2 hon ho hrun => ?_
  obtain ⟨s1, hs1, ho1, hrun⟩ := hrun
  cases found with
  | none =>
    -- The first segment is known, so it is found.
    rw [List.nil_append, String.intercalate_singleton] at hrun
    have hmisses := misses_of_runOn_libraryModule ho1 hrun
    exact absurd ⟨hmisses.1, hs1.stock.registered ▸ hmisses.2⟩ hknown
  | some m =>
    have hb := hon.before
    have hscope : some place.scope ≠ some moduleTable := fun heq => ho.scope_ne (hx.later hb) (Option.some.inj heq)
    refine Enters.bind (bindSegment_enters (hx.later hb) (hsites.1.later hb) (htakes.later hb) m .scope) fun _ => ?_
    exact bindLibrarySegments_tracks hscope (fun site hsite => (hsites.2 site hsite).later hb) (fun hp => by cases hp) _

theorem loadSegments_enters (minds : ∀ final, Minds env final ev ev) (directory : Path) :
    Achieves env s (loadSegments ev (some place.scope) directory none (first :: rest))
      fun m s2 => m ≠ none → s2.Entered place.scope first.name := by
  rw [List.forall_mem_cons] at hsites
  refine (Achieves.of_tracks (loadSegment_tracks (minds s) ..)).bind fun m s2 hon ho _ => ?_
  cases m with
  | none => exact .pure fun _ _ hne => absurd rfl hne
  | some m =>
    have hb := hon.before
    have hscope : some place.scope ≠ some moduleTable := fun heq => ho.scope_ne (hx.later hb) (Option.some.inj heq)
    have hentered : Enters env s2 place.scope first.name (bindSegment none (some place.scope) first m .variableName) :=
      bindSegment_enters (hx.later hb) (hsites.1.later hb) (htakes.later hb) m .variableName
    refine (hentered.bind fun _ => ?_).mono fun _ _ he _ => he
    exact loadSegments_tracks (minds s2) hscope (fun site hsite => (hsites.2 site hsite).later hb) (fun hp => by cases hp) _

theorem loadAbsolute_enters (minds : ∀ final, Minds env final ev ev)
    (hknown : s.library.registered.get? (".".intercalate ((first :: rest).map Site.name)) ≠ none → ¬ s.Misses first.name) :
    Achieves env s (loadAbsolute ev (first :: rest) (some place.scope) first)
      fun m s2 => m ≠ none → s2.Entered place.scope first.name := by
  have hregistered : Tracks env s s (registeredModule? (".".intercalate ((first :: rest).map Site.name)))
      (registeredModule? (".".intercalate ((first :: rest).map Site.name))) := .get_bind fun _ _ _ => .pure
  refine (Achieves.of_tracks hregistered).bind fun registered s1 hon ho hrun => ?_
  obtain ⟨_, _, _, hrun⟩ := hrun
  cases hrun
  have hb := hon.before
  have hx1 := hx.later hb
  have hsites1 : ∀ site ∈ first :: rest, s1.Segment site := fun site hsite => (hsites site hsite).later hb
  have htakes1 := htakes.later hb
  have henters : ¬ s1.Misses first.name → ∀ m : ModuleId, ∀ s', s1.Onward s' → s'.Ordered → Achieves env s'
      (do bindLibrarySegments (some place.scope) [] none (first :: rest); return some m)
      fun m s2 => m ≠ none → s2.Entered place.scope first.name := by
    intro hmisses m s' hon' _
    have hb' := hon'.before
    refine (Enters.bind (bindLibrarySegments_enters (hx1.later hb') (fun site hsite => (hsites1 site hsite).later hb')
      (htakes1.later hb') fun hl => hmisses ⟨hl.1, hon'.stock.registered ▸ hl.2⟩) fun _ => .pure).mono fun _ _ he _ => he
  cases hfound : s1.library.registered.get? (".".intercalate ((first :: rest).map Site.name)) with
  | some m =>
    refine henters (fun hmisses => hknown ?_ ⟨hmisses.1, hon.stock.registered ▸ hmisses.2⟩) m s1 (.refl s1) ho
    rw [← hon.stock.registered, hfound]
    simp
  | none =>
    refine Achieves.after (locateModule_tracks _) fun directory => ?_
    cases directory with
    | some d => exact loadSegments_enters hx1 hsites1 htakes1 minds _
    | none =>
      refine (Achieves.of_tracks (libraryModule_tracks _)).bind fun m s2 hon2 ho2 hrun => ?_
      obtain ⟨s3, hs3, ho3, hrun⟩ := hrun
      cases m with
      | none => exact .pure fun _ _ hne => absurd rfl hne
      | some m =>
        -- What the library has and is not registered is of the standard library, and so is its first segment.
        refine henters (fun hmisses => ?_) m s2 hon2 ho2
        have hall : s3.Misses (".".intercalate ((first :: rest).map Site.name)) := by
          refine ⟨?_, hs3.stock.registered.symm ▸ hfound⟩
          rw [List.map_cons, firstSegment_intercalate]
          exact hmisses.1
        rw [runOn_libraryModule_of_misses env ho3 hall] at hrun
        cases hrun

end Loading

section Imports

theorem bindImport_enters (hx : s.Stands place (.stmt x)) (hi : i ∈ x.imported) (type : TypeId) :
    Enters env s place.scope i.text (bindImport place i type) := by
  refine ⟨fun s1 hs1 ho => ?_⟩
  have hx1 := hx.later hs1.before
  refine ⟨(bindImport_tracks hx1 hi type).endures ho, fun a s2 hrun => ?_⟩
  obtain ⟨b, s3, hbind, hentry, _⟩ :=
    runOn_bindIn_enters env s1 (ho.mayEnclose hx1).2 i.text (some (place.site i)) type .variableName
  rw [bindImport, runOn_discard, hbind] at hrun
  cases hrun
  exact .inl hentry

theorem runOn_importModule_of_overlooks (env : Environment) (ev : Evaluator) (place : Place) (ho : s.Ordered)
    (ha : s.Overlooks a) : (importModule ev place a).runOn env s = (.ok (), s) := by
  obtain ⟨path, rename⟩ := a
  obtain ⟨hrename, hregistered, first, hfirst, hmisses⟩ := ha
  cases hrename
  cases path with
  | nil => cases hfirst
  | cons j rest =>
    cases hfirst
    have hnames : ((first :: rest).map place.site).map Site.name = (first :: rest).map Ident.text := by
      rw [List.map_map]
      rfl
    obtain ⟨m, hm⟩ := Option.ne_none_iff_exists'.1 hregistered
    have hsegments : (bindLibrarySegments (some place.scope) [] none ((first :: rest).map place.site)).runOn env s =
        (.ok (), s) := by
      have hfound : (libraryModule? (place.site first).name).runOn env s = (.ok none, s) :=
        runOn_libraryModule_of_misses env ho hmisses
      rw [List.map_cons, bindLibrarySegments, List.nil_append, String.intercalate_singleton, runOn_bind, hfound]
      rfl
    have hload : (loadModule ev ((first :: rest).map place.site) (some place.scope) 0).runOn env s = (.ok (some m), s) := by
      show (loadAbsolute ev ((first :: rest).map place.site) (some place.scope) (place.site first)).runOn env s = _
      rw [loadAbsolute, hnames, registeredModule?, bind_assoc, runOn_get_bind, pure_bind]
      rw [show s.library.registered.get? (".".intercalate ((first :: rest).map Ident.text)) = some m from hm]
      dsimp only
      rw [runOn_bind, hsegments]
      rfl
    show (loadModule ev ((first :: rest).map place.site) (some place.scope) 0 >>= _).runOn env s = _
    rw [runOn_bind, hload]
    rfl

variable (minds : ∀ final, Minds env final ev ev) (hx : s.Stands place (.stmt x))
include minds hx

theorem importModule_enters (ha : ∀ i ∈ a.path, i ∈ x.segments) (hbound : ∀ i ∈ a.bound, i ∈ x.imported)
    (hi : i ∈ a.bound) (hknown : ¬ s.Overlooks a) : Enters env s place.scope i.text (importModule ev place a) := by
  obtain ⟨path, rename⟩ := a
  cases rename with
  | some j =>
    cases hi
    refine .after (loadModule_tracks (minds s) (hx.segment ha) (by simp) (fun x hx => by cases hx) 0) fun m => ?_
    exact .theHeap_bind fun _ => bindImport_enters hx (hbound i rfl) _
  | none =>
    cases path with
    | nil => cases hi
    | cons first rest =>
      cases hi
      have hnames : ((i :: rest).map place.site).map Site.name = (i :: rest).map Ident.text := by
        rw [List.map_map]
        rfl
      have himported := hbound i rfl
      have hload : Achieves env s (loadModule ev ((i :: rest).map place.site) (some place.scope) 0)
          fun m s2 => m ≠ none → s2.Entered place.scope i.text := by
        refine loadAbsolute_enters hx (hx.segment ha) (hx.takes himported) minds fun hregistered hmisses => ?_
        rw [← List.map_cons (f := place.site), hnames] at hregistered
        exact hknown ⟨rfl, hregistered, i, rfl, hmisses⟩
      refine hload.bind fun m s2 hon ho hentered => ?_
      cases m with
      | some m => exact .pure fun s3 hs3 => (hentered (by simp)).later hs3.lasts
      | none =>
        -- What was not found is entered as unknown, unless there is an entry.
        refine .theHeap_get fun s3 hs3 _ => ?_
        split
        · exact bindImport_enters ((hx.later hon.before).later hs3.before) himported _
        · rename_i hlocal
          refine .pure fun s4 hs4 => Session.Entered.later (.inl fun hnone => hlocal ?_) hs4.lasts
          rw [hnone]
          rfl

theorem importName_enters (hsource : ∀ i ∈ source, i ∈ x.segments)
    (ha : ∀ i ∈ a.path, i ∈ x.segments) (hbound : ∀ i ∈ a.bound, i ∈ x.imported) (hlength : a.path.length = 1)
    (hi : i ∈ a.bound) (level : Nat) (m : Option ModuleId) :
    Enters env s place.scope i.text (importName ev place level source m a) := by
  obtain ⟨imported, hpath⟩ := List.length_eq_one_iff.1 hlength
  have htarget : a.rename.getD imported = i := by
    rw [Alias.bound, hpath] at hi
    revert hi
    cases a.rename <;> exact Option.some.inj
  unfold importName
  rw [hpath]
  dsimp only
  rw [htarget]
  refine .theHeap_bind fun h => ?_
  split
  · refine .after (recordUse_tracks ..) fun _ => .after (.lift fun _ => typeOfBindings_tame _) fun _ => ?_
    exact bindImport_enters hx (hbound i hi) _
  · refine .after (loadModule_tracks (minds s) (hx.segment fun j hj => ?_) (by simp) (fun x hx => by cases hx) level)
      fun m => .theHeap_bind fun _ => bindImport_enters hx (hbound i hi) _
    rw [← hpath] at hj
    exact (List.mem_append.1 hj).elim (hsource j) (ha j)

end Imports

theorem stmtType_enters_alias (minds : ∀ final, Minds env final ev ev) (hx : s.Due place (.stmt x)) (ha : a ∈ x.aliases) (hi : i ∈ a.bound) (hknown : ¬ s.Overlooks a) :
    Enters env s place.scope i.text (stmtType ev place x) := by
  have hx := hx.stands
  cases x with
  | importModules modules =>
    have hsegments : ∀ b ∈ modules, ∀ j ∈ b.path, j ∈ (Stmt.importModules modules).segments :=
      fun b hb j hj => List.mem_flatMap.2 ⟨b, hb, hj⟩
    have hbound : ∀ b ∈ modules, ∀ j ∈ b.bound, j ∈ (Stmt.importModules modules).imported :=
      fun b hb j hj => List.mem_flatMap.2 ⟨b, hb, Option.mem_toList.2 hj⟩
    refine Enters.bind (Enters.forM (fun b hb => importModule_tracks (minds s) hx (hsegments b hb) (hbound b hb)) ha ?_)
      fun _ => .pure
    exact importModule_enters minds hx (hsegments a ha) (hbound a ha) hi hknown
  | importNames level source names =>
    obtain ⟨ha, hlength⟩ := List.mem_filter.1 ha
    have hsource : ∀ j ∈ source, j ∈ (Stmt.importNames level source names).segments :=
      fun j hj => List.mem_append_left _ hj
    have hsegments : ∀ b ∈ names, ∀ j ∈ b.path, j ∈ (Stmt.importNames level source names).segments :=
      fun b hb j hj => List.mem_append_right _ (List.mem_flatMap.2 ⟨b, hb, hj⟩)
    have hbound : ∀ b ∈ names, ∀ j ∈ b.bound, j ∈ (Stmt.importNames level source names).imported :=
      fun b hb j hj => List.mem_flatMap.2 ⟨b, hb, Option.mem_toList.2 hj⟩
    refine .after (loadModule_tracks (minds s) (hx.segment hsource) (by simp) (fun y hy => by cases hy) level) fun m => ?_
    refine Enters.bind (Enters.forM (fun b hb => importName_tracks (minds s) hx hsource (hsegments b hb) (hbound b hb)
      level m) ha ?_) fun _ => .pure
    exact importName_enters minds hx hsource (hsegments a ha) (hbound a ha) (of_decide_eq_true hlength) hi level m
  | _ => cases ha

end Concordance
