import Concordance.Proofs.Inference.Loading

/-!
# Imports

An import loads files and binds names to modules and to what they hold. It can be met only where statements can
be evaluated.
-/

namespace Concordance

open Syntax (Item Ident Alias)
open Text (NullFree)

variable {env : Environment} {R : Regime env}

theorem Environment.spared_of_fed (fed : ¬ env.IsStarved) : env.injection ≠ some ⟨.resolving, .memory⟩ :=
  fun h => fed ⟨.memory, h⟩

section Modules

theorem libraryModule_agrees (qname : String) :
    Agrees R n D s (libraryModule? qname) (libraryModule? qname) fun _ _ => True := by
  refine .get_bind ?_
  split
  · exact .pure trivial
  · split
    · refine .bind (.lift (newModule_does ..)) fun m s1 _ _ => ?_
      exact .bind (Q := fun _ _ => True) (.change (.library qname m) trivial) fun _ _ _ _ => .pure trivial
    · exact .pure trivial

theorem bindSegment_agrees (previous : Option ModuleId) (scope : Option ScopeId) (site : Site) (m : ModuleId)
    (kind : BindingKind) :
    Agrees R n D s (bindSegment previous scope site m kind) (bindSegment previous scope site m kind)
      fun _ _ => True := by
  refine .of_sound fun hs => .theHeap_bind ?_
  split
  · exact (bindIn_agrees (hs.heap.modules m)).discard fun _ _ _ h => h
  · exact (bindIn_agrees (hs.heap.modules m)).discard fun _ _ _ h => h
  · exact .pure trivial

theorem bindLibrarySegments_agrees (scope : Option ScopeId) (before : List String) (previous : Option ModuleId)
    (sites : List Site) :
    Agrees R n D s (bindLibrarySegments scope before previous sites)
      (bindLibrarySegments scope before previous sites) fun _ _ => True := by
  induction sites generalizing before previous s with
  | nil => exact .pure trivial
  | cons site rest ih =>
    refine .bind (libraryModule_agrees _) fun m s1 _ _ => ?_
    cases m with
    | none => exact .pure trivial
    | some m => exact .bind (bindSegment_agrees previous scope site m .scope) fun _ _ _ _ => ih ..

theorem locateModule_agrees (name : String) :
    Agrees R n D s (locateModule name) (locateModule name) fun _ _ => True := by
  refine .bind (x := searchOrder) (Q := fun _ _ => True) (.get_bind ?_) fun _ _ _ _ => .read_bind (.pure trivial)
  dsimp only
  split
  · exact .pure trivial
  · exact .pure trivial

theorem relativeBase_agrees (hdirectory : ∀ d, s.loading.directory = some d → R.faults .nullCharacter ∨ NullFree d)
    (level : Nat) : Agrees R n D s (relativeBase level) (relativeBase level) fun base _ =>
      ∀ b, base = some b → R.faults .nullCharacter ∨ NullFree b := by
  refine .get_bind ?_
  split
  · exact .pure (by simp)
  · rename_i d hd
    refine .pure fun b hb => (hdirectory d hd).imp_right fun hfree => ?_
    rw [← Option.some.inj hb]
    exact List.foldlRecOn _ _ hfree fun _ hfree _ _ => nullFree_directoryOf hfree

end Modules

section Imports

variable (fits : Fits R ev ev') (fed : ¬ env.IsStarved)
include fits fed

theorem loadPackage_agrees (hfile : R.Takes file.toString) :
    Agrees R n D s (loadPackage ev file) (loadPackage ev' file) fun _ _ => True := by
  refine .bind (canonicalPath_agrees hfile) fun p s1 _ _ => .get_bind ?_
  split
  · exact (cachedModule_agrees p).mono fun _ _ _ _ => trivial
  · exact loadFile_agrees fits (Environment.spared_of_fed fed) hfile

omit fits fed in
theorem nullFree_packageIn {directory : Path} (hroot : NullFree directory.root) (name : String) :
    NullFree (packageIn directory name).root := Path.nullFree_join_root hroot (Path.nullFree_root name)

theorem loadSegment_agrees (hroot : NullFree directory.root) (name : String) (isLast : Bool) :
    Agrees R n D s (loadSegment ev directory name isLast) (loadSegment ev' directory name isLast)
      fun _ _ => True := by
  refine .read_bind ?_
  dsimp only
  split
  · rename_i hfile
    have hfree := Workspace.nullFree_of_isFile (nullFree_packageIn hroot name) hfile
    exact loadPackage_agrees fits fed (R.takes_of_nullFree hfree)
  · split
    · rename_i hfile
      have hsource : NullFree (sourceIn directory name).root := Path.nullFree_join_root hroot (Path.nullFree_root _)
      have hfree := Workspace.nullFree_of_isFile hsource (Bool.and_eq_true_iff.1 hfile).2
      exact loadFile_agrees fits (Environment.spared_of_fed fed) (R.takes_of_nullFree hfree)
    · exact .pure trivial

theorem loadSegments_agrees (scope : Option ScopeId) (hroot : NullFree directory.root)
    (previous : Option ModuleId) (sites : List Site) : Agrees R n D s (loadSegments ev scope directory previous sites)
      (loadSegments ev' scope directory previous sites) fun _ _ => True := by
  induction sites generalizing directory previous s with
  | nil => exact .pure trivial
  | cons site rest ih =>
    refine .bind (loadSegment_agrees fits fed hroot site.name rest.isEmpty) fun m s1 _ _ => ?_
    cases m with
    | none => exact .pure trivial
    | some m =>
      have hparent : NullFree (packageIn directory site.name).parent.root := nullFree_packageIn hroot site.name
      exact .bind (bindSegment_agrees previous scope site m .variableName) fun _ _ _ _ => ih hparent ..

omit fits fed in
theorem loadLibraryModule_agrees (names : List Site) (scope : Option ScopeId) (qname : String) :
    Agrees R n D s (loadLibraryModule names scope qname) (loadLibraryModule names scope qname)
      fun _ _ => True := by
  refine .bind (libraryModule_agrees qname) fun m s1 _ _ => ?_
  cases m with
  | none => exact .pure trivial
  | some m => exact .bind (bindLibrarySegments_agrees scope [] none names) fun _ _ _ _ => .pure trivial

theorem loadAbsolute_agrees (names : List Site) (scope : Option ScopeId) (first : Site) :
    Agrees R n D s (loadAbsolute ev names scope first) (loadAbsolute ev' names scope first)
      fun _ _ => True := by
  refine .bind (x := registeredModule? _) (Q := fun _ _ => True) (.get_bind (.pure trivial)) fun m s1 _ _ => ?_
  cases m with
  | some m => exact .bind (bindLibrarySegments_agrees scope [] none names) fun _ _ _ _ => .pure trivial
  | none =>
    refine .bind (locateModule_agrees first.name) fun directory s2 _ _ => ?_
    cases directory with
    | some directory => exact loadSegments_agrees fits fed scope (Path.nullFree_root directory) none names
    | none => exact loadLibraryModule_agrees names scope _

theorem loadRelative_agrees (names : List Site) (scope : Option ScopeId) (level : Nat) :
    Agrees R n D s (loadRelative ev names scope level) (loadRelative ev' names scope level)
      fun _ _ => True := by
  refine .of_ready fun hready => .bind (relativeBase_agrees (fun d => fits.located hready) level) fun base s1 _ hbase => ?_
  cases base with
  | none => exact .pure trivial
  | some base =>
    cases names with
    | nil =>
      refine loadPackage_agrees fits fed ?_
      rcases hbase base rfl with hallowed | hfree
      · rintro f hf
        simp only [Workspace.canonical] at hf
        split at hf <;> cases hf
        exact hallowed
      · refine R.takes_of_nullFree (Path.nullFree_toString (Path.nullFree_root base) ?_)
        exact Path.hasNull_child (Path.hasNull_eq_false.2 fun part => Path.nullFree_of_mem_ofString hfree) (by decide)
    | cons site rest => exact loadSegments_agrees fits fed scope (Path.nullFree_root base) none (site :: rest)

theorem loadModule_agrees (names : List Site) (scope : Option ScopeId) (level : Nat) :
    Agrees R n D s (loadModule ev names scope level) (loadModule ev' names scope level) fun _ _ => True := by
  unfold loadModule
  split
  · exact .pure trivial
  · exact loadAbsolute_agrees fits fed _ scope _
  · exact loadRelative_agrees fits fed names scope level

end Imports

section Bindings

theorem bindImport_agrees (ht : s.heap.IsValue t) :
    Agrees R n D s (bindImport place i t) (bindImport place i t) fun _ _ => True :=
  (bindIn_agrees ht).discard fun _ _ _ h => h

theorem Heap.IsSound.typeOfModule {h : Heap} (hs : h.IsSound) (m : Option ModuleId) :
    h.IsValue (h.typeOfModule m) := by
  cases m with
  | none => exact hs.isValue_unknown
  | some m => exact hs.modules m

def takeOver (table : Table String (List BindingId)) (entry : String × List BindingId) : Table String (List BindingId) :=
  if isPrivateName entry.1 then table else table.insert entry.1 entry.2

theorem get?_takeOver_ne_none (hname : table.get? name ≠ none)
    (es : List (String × List BindingId)) : (es.foldl takeOver table).get? name ≠ none := by
  induction es generalizing table with
  | nil => exact hname
  | cons e es ih =>
    refine ih ?_
    rw [takeOver]
    split
    · exact hname
    · exact Table.get?_insert_ne_none hname

theorem mem_values_takeOver {es : List (String × List BindingId)} (hbs : bs ∈ (es.foldl takeOver table).values) : bs ∈ table.values ∨ bs ∈ es.map Prod.snd := by
  induction es generalizing table with
  | nil => exact .inl hbs
  | cons e es ih =>
    rw [List.map_cons, List.mem_cons]
    rcases ih hbs with hbs | hbs
    · rw [takeOver] at hbs
      split at hbs
      · exact .inl hbs
      · rcases Table.mem_values_insert hbs with heq | hbs
        · exact .inr (.inl heq)
        · exact .inl hbs
    · exact .inr (.inr hbs)

theorem modify_modify (xs : Array α) (i : Nat) (f g : α → α) :
    (xs.modify i f).modify i g = xs.modify i fun x => g (f x) := by
  refine Array.ext (by simp) fun j _ _ => ?_
  simp only [Array.getElem_modify]
  split <;> rfl

theorem run_importEverything (h : Heap) (m : ModuleId) : (importEverything place m).run h =
    ((), { h with scopes := h.scopes.modify place.scope.index fun x =>
      { x with table := (h.scope (h.module m).table).table.entries.foldl takeOver x.table } }) := by
  have hentries : ∀ (es : List (String × List BindingId)) (g : Heap),
      (es.forM fun e => if isPrivateName e.1 then return else updateName place.scope e.1 e.2 : HeapM Unit).run g =
        ((), { g with scopes := g.scopes.modify place.scope.index fun x => { x with table := es.foldl takeOver x.table } }) := by
    intro es
    induction es with
    | nil =>
      intro g
      have hsame : g.scopes.modify place.scope.index (fun x => x) = g.scopes :=
        Array.ext (by simp) fun j _ _ => by simp [Array.getElem_modify]
      exact congrArg (fun scopes => ((), { g with scopes })) hsame.symm
    | cons e es ih =>
      intro g
      rw [List.forM_eq_forM, List.forM_cons, StateT.run_bind]
      split
      · rename_i hprivate
        refine (ih g).trans ?_
        simp only [List.foldl_cons, takeOver, hprivate, if_true]
      · rename_i hpublic
        have htaken : ∀ table, takeOver table e = table.insert e.1 e.2 := fun _ => if_neg hpublic
        refine (ih _).trans ?_
        simp only [List.foldl_cons, htaken]
        exact congrArg (fun scopes => ((), { g with scopes })) (modify_modify g.scopes place.scope.index
          (fun x => { x with table := x.table.insert e.1 e.2 }) fun x => { x with table := es.foldl takeOver x.table })
  exact hentries _ h

theorem importEverything_does (m : ModuleId) : Does h (importEverything place m) fun _ _ => True := by
  refine ⟨fun _ => ⟨?_, trivial⟩⟩
  rw [run_importEverything]
  refine .single (.changeScope place.scope _ ⟨fun _ => ⟨rfl, rfl, rfl, rfl⟩, fun _ _ hn => hn, fun _ _ hn => hn,
    fun _ x name hname => get?_takeOver_ne_none hname _, fun x bs hbs => ?_⟩)
  exact (mem_values_takeOver hbs).imp_right fun hshared => .inr ⟨_, hshared⟩

end Bindings

section Imports

variable (fits : Fits R ev ev') (fed : ¬ env.IsStarved)
include fits fed

theorem importModule_agrees (a : Alias) :
    Agrees R n D s (importModule ev place a) (importModule ev' place a) fun _ _ => True := by
  unfold importModule
  split
  · refine .bind (loadModule_agrees fits fed _ none 0) fun m s1 _ _ => .of_sound fun hs1 => .theHeap_bind ?_
    exact bindImport_agrees (hs1.heap.typeOfModule m)
  · refine .bind (loadModule_agrees fits fed _ (some place.scope) 0) fun m s1 _ _ => .of_sound fun hs1 => ?_
    split
    · refine .theHeap_bind ?_
      split
      · exact bindImport_agrees hs1.heap.isValue_unknown
      · exact .pure trivial
    · exact .pure trivial

theorem importName_agrees (level : Nat) (source : List Ident) (m : Option ModuleId) (a : Alias) :
    Agrees R n D s (importName ev place level source m a) (importName ev' place level source m a)
      fun _ _ => True := by
  unfold importName
  split
  · refine .of_sound fun hs => .theHeap_bind ?_
    split
    · rename_i hbound
      obtain ⟨m, _, hbound⟩ := Option.bind_eq_some_iff.1 hbound
      refine .bind (recordUse_agrees _ _ ((hs.heap.scopes _).bound hbound)) fun _ s1 _ _ => ?_
      exact .bind (.lift (typeOfBindings_value _)) fun t s2 _ ht => bindImport_agrees ht
    · refine .bind (loadModule_agrees fits fed _ none level) fun m s1 _ _ => .of_sound fun hs1 => .theHeap_bind ?_
      exact bindImport_agrees (hs1.heap.typeOfModule m)
  · exact .pure trivial

end Imports

end Concordance
