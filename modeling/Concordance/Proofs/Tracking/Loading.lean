import Concordance.Proofs.Tracking.Module

/-!
# Loading keeps a session in order

While a file is being loaded, no other file is loaded under its qualified name, and so the name can be taken back if
memory runs out.
-/

namespace Concordance

open Session (moduleTable)
open Syntax (Alias Ident Stmt)

variable {s : Session}

/-- A session while a file is being loaded, seen from the one before. -/
structure Session.Amid (path : String) (s s1 : Session) : Prop where
  ordered : s1.Ordered
  before : s.Before s1
  lasts : s.Lasts s1
  stack : s1.loading.stack = path :: s.loading.stack
  announced : ∀ q m, s.Announced q m → s1.Announced q m
  fresh : ∀ q m, s1.Announced q m → s.Announced q m ∨ s.loading.units.get? m = none
  stock : s.SameStock s1
  outer : s.loading.directory = s.loading.stack.head?.map directoryOf

section Amid

theorem Session.Amid.onward (ha : s.Amid path s1) (hon : s1.Onward s2) (ho : s2.Ordered) : s.Amid path s2 where
  ordered := ho
  before := ha.before.trans hon.before
  lasts := ha.lasts.trans hon.lasts hon.before
  stack := hon.stack.trans ha.stack
  announced q m h := hon.announced q m (ha.announced q m h)
  fresh q m h := by
    rcases hon.fresh q m h with h | h
    · exact ha.fresh q m h
    · exact .inr (ha.before.units_none h)
  stock := ha.stock.trans hon.stock
  outer := ha.outer

theorem Session.Ordered.enterFile (ho : s.Ordered) (hcan : Workspace.IsCanonical path)
    (hnew : ∀ m, ¬ s.Announced (moduleNameOf path) m) : s.Amid path (s.enterFile path) := by
  have hb : s.Before (s.enterFile path) := .of_same rfl rfl rfl
  refine ⟨⟨ho.unknown, ho.apart, ⟨ho.filed.nodup, ho.filed.known, ?_, ?_, rfl⟩, { ho.shelved with },
    ⟨ho.rooted.codes, ho.rooted.functions, ho.rooted.classes, ho.rooted.comprehensions⟩, ho.owned_same hb rfl, ho.stocked,
    ho.marked_same hb rfl rfl⟩, hb,
    .of_heap_eq rfl, rfl, fun _ _ h => h, fun _ _ h => .inl h, .of_eq rfl, ho.filed.directory⟩
  · rintro p (hp | hp)
    · rcases List.mem_cons.1 hp with rfl | hp
      · exact hcan
      · exact ho.filed.canonical p (.inl hp)
    · exact ho.filed.canonical p (.inr hp)
  · intro p hp hloaded
    rcases List.mem_cons.1 hp with rfl | hp
    · -- A file that has been loaded is known by name.
      obtain ⟨m, hm, _⟩ := ho.filed.known p hloaded
      exact hnew m hm
    · exact ho.filed.apart p hp hloaded

theorem Session.Amid.leave (ha : s.Amid path s1) :
    s.Onward (s1.leaveFile s.loading) ∧ (s1.leaveFile s.loading).Ordered ∧ s1.Precedes (s1.leaveFile s.loading) := by
  have ho := ha.ordered
  have hstack : ∀ {p}, p ∈ s.loading.stack → p ∈ s1.loading.stack := fun hp => ha.stack ▸ List.mem_cons_of_mem _ hp
  have hb : s1.Before (s1.leaveFile s.loading) := .of_same rfl rfl rfl
  refine ⟨⟨ha.before.trans hb, ha.lasts.trans (.of_heap_eq rfl) hb, rfl, rfl, ha.announced, ha.fresh,
    ha.stock.trans (.of_eq rfl)⟩,
    ⟨ho.unknown, ho.apart, ⟨ho.filed.nodup, ho.filed.known, ?_, fun p hp => ?_, ha.outer⟩, { ho.shelved with },
    ⟨ho.rooted.codes, ho.rooted.functions, ho.rooted.classes, ho.rooted.comprehensions⟩, ho.owned_same hb rfl, ho.stocked,
    ho.marked_same hb rfl rfl⟩, .of_same rfl rfl rfl⟩
  · exact fun p hp => ho.filed.canonical p (hp.imp_left hstack)
  · exact ho.filed.apart p (hstack hp)

theorem Session.Amid.leaveLoaded (ha : s.Amid path s1) (hout : path ∉ s.loading.stack)
    (hm : s1.Announced (moduleNameOf path) m) (file : (s1.heap.module m).file = some path) :
    s.Onward ((s1.addLoaded path).leaveFile s.loading) ∧ ((s1.addLoaded path).leaveFile s.loading).Ordered ∧
      s1.Precedes ((s1.addLoaded path).leaveFile s.loading) := by
  have ho := ha.ordered
  have hpath : path ∈ s1.loading.stack := ha.stack ▸ List.mem_cons_self ..
  have hnot := ho.filed.apart path hpath
  have hstack : ∀ {p}, p ∈ s.loading.stack → p ∈ s1.loading.stack := fun hp => ha.stack ▸ List.mem_cons_of_mem _ hp
  have hb : s1.Before ((s1.addLoaded path).leaveFile s.loading) := .of_same rfl rfl rfl
  refine ⟨⟨ha.before.trans hb, ha.lasts.trans (.of_heap_eq rfl) hb, rfl, rfl, ha.announced, ha.fresh,
    ha.stock.trans (.of_eq rfl)⟩,
    ⟨ho.unknown, ho.apart, ⟨?_, fun p hp => ?_, fun p hp => ?_, fun p hp hloaded => ?_, ha.outer⟩, { ho.shelved with },
    ⟨ho.rooted.codes, ho.rooted.functions, ho.rooted.classes, ho.rooted.comprehensions⟩, ho.owned_same hb rfl, ho.stocked,
    ho.marked_same hb rfl rfl⟩, .of_same rfl rfl rfl⟩
  · exact List.nodup_append.2 ⟨ho.filed.nodup, List.nodup_singleton path, fun a hmem b hb heq =>
      hnot (List.mem_singleton.1 hb ▸ heq ▸ hmem)⟩
  · rcases List.mem_append.1 hp with hp | hp
    · exact ho.filed.known p hp
    · rw [List.mem_singleton.1 hp]
      exact ⟨m, hm, file⟩
  · rcases hp with hp | hp
    · exact ho.filed.canonical p (.inl (hstack hp))
    · rcases List.mem_append.1 hp with hp | hp
      · exact ho.filed.canonical p (.inr hp)
      · rw [List.mem_singleton.1 hp]
        exact ho.filed.canonical path (.inl hpath)
  · rcases List.mem_append.1 hloaded with hloaded | hloaded
    · exact ho.filed.apart p (hstack hp) hloaded
    · rw [List.mem_singleton.1 hloaded] at hp
      exact hout hp

theorem Session.Amid.abandon (ha : s.Amid path s1) (hnew : ∀ m, ¬ s.Announced (moduleNameOf path) m)
    (hm : s1.Announced (moduleNameOf path) m) (file : (s1.heap.module m).file = some path)
    (heq : s2 = { s1.withHeap (s1.heap.withoutEntry (moduleNameOf path)) with
      loading.cache := s1.loading.cache.clear }) : s.Amid path s2 ∧ s1.Precedes s2 := by
  have ho := ha.ordered
  have hheap : s2.heap = s1.heap.withoutEntry (moduleNameOf path) := by rw [heq]; rfl
  have hfirm : s1.heap.Firm s2.heap := hheap ▸ ho.apart.firm_withTable
  have hstack : s2.loading.stack = s1.loading.stack := by rw [heq]; rfl
  have hdirectory : s2.loading.directory = s1.loading.directory := by rw [heq]; rfl
  have hloaded : s2.loading.loaded = s1.loading.loaded := by rw [heq]; rfl
  have hunits : s2.loading.units = s1.loading.units := by rw [heq]; rfl
  have hcache : s2.loading.cache = s1.loading.cache.clear := by rw [heq]
  have hdefs : s2.definitions = s1.definitions := by rw [heq]; rfl
  have hgrows : s1.Grows s2 :=
    ⟨hfirm, by rw [hunits]; exact fun _ _ h => h, by rw [hdefs]; exact fun _ _ h => h, by rw [hdefs]; exact fun _ _ h => h⟩
  have hkept : ∀ q m, q ≠ moduleNameOf path → s1.Announced q m → s2.Announced q m :=
    fun q m hq h => h.withoutEntry ho.apart hq hheap
  -- Names that are left were there before.
  have hback : ∀ q m, s2.Announced q m → s1.Announced q m := by
    intro q m' ha2
    obtain ⟨b, hbound, hty⟩ := ha2
    by_cases hq : q = moduleNameOf path
    · rw [hheap, hq, ho.apart.bound_withoutEntry] at hbound
      cases hbound
    · rw [hheap, Heap.withoutEntry, ho.apart.bound_withTable (Table.get?_erase_of_ne hq)] at hbound
      rw [hheap] at hty
      exact ⟨b, hbound, hty⟩
  have hbefore := ho.before hgrows
  have hapart : s2.heap.Apart := hheap ▸ ⟨ho.apart.withoutEntry _, ho.apart.furnished.withTable ..⟩
  have howned : s2.Owned := ho.owned_withTable hbefore hapart (ho.bindsIn_withTable (fun _ hb => ⟨hb, rfl⟩) hheap)
  have hmarked : s2.Marked := ho.marked_same hbefore (by rw [heq]; rfl) (by rw [hheap]; rfl)
  have hlasts : s1.Lasts s2 := ho.lasts_withTable (fun _ hb => ⟨hb, rfl⟩) hheap
  have hstock : s1.SameStock s2 := .of_eq (by rw [heq]; rfl)
  refine ⟨⟨⟨ho.unknown_later hfirm, hapart, ⟨?_, fun p hp => ?_, ?_, ?_, ?_⟩,
    ⟨fun m u hu => ?_, ?_, ?_, ?_, ?_, fun q m' h => ?_⟩, ?_, howned, ho.stocked.later hstock, hmarked⟩,
    ha.before.trans hbefore, ha.lasts.trans hlasts hbefore, hstack.trans ha.stack, fun q m' h => ?_,
    fun q m' h => ha.fresh q m' (hback q m' h), ha.stock.trans hstock, ha.outer⟩, hbefore, hlasts.entered⟩
  · rw [hloaded]
    exact ho.filed.nodup
  · rw [hloaded] at hp
    obtain ⟨m', hm', hfile⟩ := ho.filed.known p hp
    refine ⟨m', hkept _ m' (fun hq => ?_) hm', ?_⟩
    · -- No other file was loaded under this name, and this one is still being loaded.
      rw [hq] at hm'
      rw [hm'.unique hm, file] at hfile
      cases hfile
      exact ho.filed.apart path (ha.stack ▸ List.mem_cons_self ..) hp
    · rw [(hfirm.modules m' (Heap.lt_of_file hfile)).2]
      exact hfile
  · rw [hstack, hloaded]
    exact ho.filed.canonical
  · rw [hstack, hloaded]
    exact ho.filed.apart
  · rw [hstack, hdirectory]
    exact ho.filed.directory
  · rw [hunits] at hu
    obtain ⟨hlt, hnumber, hfile⟩ := ho.shelved.opened m u hu
    obtain ⟨hlt', hmodule⟩ := hfirm.modules m hlt
    rw [hmodule, hcache]
    exact ⟨hlt', hnumber, hfile⟩
  · rw [hunits]
    exact ho.shelved.once
  · rw [hcache]
    intro p u hu
    cases hu
  · rw [hcache]
    intro p p' u u' hu
    cases hu
  · rw [hcache]
    intro m p u u' _ hu'
    cases hu'
  · rw [hunits]
    exact ho.shelved.named q m' (hback q m' h)
  · refine ho.rooted_later hgrows (fun f c hc => ?_) hdefs
    rw [hheap] at hc
    exact hc
  · refine hkept q m' ?_ (ha.announced q m' h)
    rintro rfl
    exact hnew m' h

end Amid

/-- Work that is done while a file is being loaded, and keeps the session in order when the file is left. -/
structure Brings {α : Type} (env : Environment) (final s : Session) (path : String) (s1 : Session) (x y : Analysis α) :
    Prop where
  run : s.Amid path s1 → s.Onward ((x.runOn env s1).2.leaveFile s.loading) ∧
    ((x.runOn env s1).2.leaveFile s.loading).Ordered ∧
    (((x.runOn env s1).2.leaveFile s.loading).Precedes final → y.runOn env s1 = x.runOn env s1)

namespace Brings

theorem of_tracks (hx : Tracks env final s1 x y) : Brings env final s path s1 x y := by
  refine ⟨fun ha => ?_⟩
  obtain ⟨hon, ho, heq⟩ := hx.run s1 (.refl s1) ha.ordered
  obtain ⟨hon', ho', hbefore⟩ := (ha.onward hon ho).leave
  exact ⟨hon', ho', fun hb => heq (hbefore.trans hb)⟩

theorem bind (hx : Tracks env final s1 x x)
    (hf : ∀ a s2, x.runOn env s1 = (.ok a, s2) → Brings env final s path s2 (f a) (g a)) :
    Brings env final s path s1 (x >>= f) (x >>= g) := by
  refine ⟨fun ha => ?_⟩
  obtain ⟨hon, ho, _⟩ := hx.run s1 (.refl s1) ha.ordered
  rw [runOn_bind, runOn_bind]
  rcases hrun : x.runOn env s1 with ⟨e | a, s2⟩ <;> rw [hrun] at hon ho
  · obtain ⟨hon', ho', _⟩ := (ha.onward hon ho).leave
    exact ⟨hon', ho', fun _ => rfl⟩
  · exact (hf a s2 hrun).run (ha.onward hon ho)

end Brings

section Resolution

variable (minds : Minds env final ev ev')
include minds

theorem resolveOpened_tracks (hunit : s.loading.units.get? m = some unit)
    (hhead : s.loading.stack.head? = some unit.path) :
    Tracks env final s (resolveOpened ev unit m) (resolveOpened ev' unit m) := by
  refine (trace_tracks _).bind fun _ => .get_bind fun s' hs' _ => .bind (block_tracks minds fun x hx => ?_) fun _ => .pure
  have hunit' := hs'.units m unit hunit
  exact ⟨m, unit, .file, hunit', rfl, ⟨m, unit, hunit', rfl, rfl⟩, Syntax.mem_piecesOf hx, .inr (hs'.stack ▸ hhead)⟩

theorem loadUnit_brings (hout : path ∉ s.loading.stack) (hnew : ∀ m, ¬ s.Announced (moduleNameOf path) m)
    (hnew1 : ∀ m, ¬ s1.Announced (moduleNameOf path) m) (cached : s1.loading.cache.units.get? path = some unit) :
    Brings env final s path s1 (loadUnit ev path unit) (loadUnit ev' path unit) := by
  refine ⟨fun ha => ?_⟩
  obtain rfl := (ha.ordered.shelved.cached path unit cached).1
  obtain ⟨m, s2, hon, ho2, hm, hunit, hresolve⟩ := exists_opened env ha.ordered cached hnew1
  have hhead : s2.loading.stack.head? = some unit.path := by rw [hon.stack, ha.stack]; rfl
  obtain ⟨hon3, ho3, heq⟩ := (resolveOpened_tracks minds hunit hhead).run s2 (.refl s2) ho2
  have ha3 := (ha.onward hon ho2).onward hon3 ho3
  rcases hrun : (resolveOpened ev unit m).runOn env s2 with ⟨f | m', s3⟩ <;> rw [hrun] at hon3 ho3 heq ha3
  · have hm3 := hon3.announced _ m hm
    have hfile3 := (ho3.shelved.opened m unit (hon3.before.units m unit hunit)).2.2
    by_cases hf : f = .exhausted .memory
    · subst hf
      -- The one fault that loading recovers from: the module is taken back.
      obtain ⟨s4, hs4⟩ : ∃ s4 : Session, s4 = { s3.withHeap (s3.heap.withoutEntry (moduleNameOf unit.path)) with
        loading.cache := s3.loading.cache.clear } := ⟨_, rfl⟩
      have habandon : (abandonModule unit.path).runOn env s3 = (recordParseFailure (.memory unit.path)).runOn env s4 := by
        rw [hs4, ← run_removeName_table]
        rfl
      obtain ⟨ha4, hbefore⟩ := ha3.abandon hnew hm3 hfile3 hs4
      have hrecord : Tracks env final s4 (recordParseFailure (.memory unit.path)) (recordParseFailure (.memory unit.path)) :=
        recordParseFailure_tracks _
      obtain ⟨hon5, ho5, _⟩ := hrecord.run s4 (.refl s4) ha4.ordered
      obtain ⟨hon', ho', hbefore'⟩ := (ha4.onward hon5 ho5).leave
      rw [runOn_loadUnit_of_memory ((hresolve ev).trans hrun), habandon]
      refine ⟨hon', ho', fun hb => ?_⟩
      have heq' := heq (hbefore.trans (hon5.precedes.trans (hbefore'.trans hb)))
      rw [runOn_loadUnit_of_memory ((hresolve ev').trans heq'), habandon]
    · obtain ⟨hon', ho', hbefore⟩ := ha3.leave
      rw [runOn_loadUnit_of_error hf ((hresolve ev).trans hrun)]
      refine ⟨hon', ho', fun hb => ?_⟩
      rw [runOn_loadUnit_of_error hf ((hresolve ev').trans (heq (hbefore.trans hb)))]
  · have hm3 := hon3.announced _ m hm
    have hfile3 := (ho3.shelved.opened m unit (hon3.before.units m unit hunit)).2.2
    obtain ⟨hon', ho', hbefore⟩ := ha3.leaveLoaded hout hm3 hfile3
    rw [runOn_loadUnit_of_ok ((hresolve ev).trans hrun)]
    refine ⟨hon', ho', fun hb => ?_⟩
    rw [runOn_loadUnit_of_ok ((hresolve ev').trans (heq (hbefore.trans hb)))]

omit minds in
theorem heap_runOn_log (env : Environment) (level : Level) (text : String) (s : Session) :
    ((log level text).runOn env s).2.heap = s.heap := by
  rw [log, runOn_read_bind]
  split
  · split <;> rfl
  · rfl

omit minds in
theorem heap_runOn_parseSource (env : Environment) (path : String) (text : Option (ByteArray × ParseOutcome)) (s : Session) :
    ((parseSource path text).runOn env s).2.heap = s.heap := by
  obtain ⟨r, c, _, hrun⟩ := exists_serves env path text s
  have hlog := heap_runOn_log env .debug
  rw [hrun]
  rcases r with e | f | unit
  · rfl
  · simp only [parsingResult]
    split
    · specialize hlog ("out of memory parsing " ++ f.path ++ ", AST cache cleared") { s with loading.cache := c }
      rw [runOn_bind, trace]
      split <;> (rename_i hrun'; rw [hrun'] at hlog; exact hlog)
    · rfl
  · rfl

theorem loadFile_tracks (path : String) (text : Option (ByteArray × ParseOutcome)) :
    Tracks env final s (loadFile ev path text) (loadFile ev' path text) := by
  refine ⟨fun s1 hs1 ho => ?_⟩
  have hneed : Tracks env final s (needFor path text.isSome) (needFor path text.isSome) := needFor_tracks ..
  obtain ⟨hon, ho1, _⟩ := hneed.run s1 hs1 ho
  unfold loadFile
  rw [runOn_bind, runOn_bind]
  rcases hrun : (needFor path text.isSome).runOn env s1 with ⟨e | need, s2⟩ <;> rw [hrun] at hon ho1
  · exact ⟨hon, ho1, fun _ => rfl⟩
  · cases need with
    | settled m => exact ⟨hon, ho1, fun _ => rfl⟩
    | load p =>
      obtain ⟨rfl, hcan, hout, hnew⟩ := runOn_needFor_load ho hrun
      dsimp only
      rw [runOn_withFile, runOn_withFile]
      have hbrings : Brings env final s2 p (s2.enterFile p)
          (do trace ("loading " ++ p); loadParsed ev p (← parseSource p text))
          (do trace ("loading " ++ p); loadParsed ev' p (← parseSource p text)) := by
        refine .bind (trace_tracks _) fun _ s3 h3 => .bind (parseSource_tracks p text) fun parsed s4 h4 => ?_
        have hheap : s4.heap = s2.heap := by
          have heap3 := heap_runOn_log env .debug ("loading " ++ p) (s2.enterFile p)
          have heap4 := heap_runOn_parseSource env p text s3
          rw [trace] at h3
          rw [h3] at heap3
          rw [h4] at heap4
          exact heap4.trans heap3
        cases parsed with
        | error f => exact .of_tracks ((recordParseFailure_tracks f).bind fun _ => .pure)
        | ok unit =>
          refine loadUnit_brings minds hout hnew (fun m hm => hnew m ?_) (cached_of_runOn_parseSource h4)
          rw [Session.Announced, hheap] at hm
          exact hm
      obtain ⟨hon', ho', heq⟩ := hbrings.run (ho.enterFile hcan hnew)
      exact ⟨hon', ho', fun hb => by rw [heq hb]⟩

end Resolution

section Imports

theorem libraryModule_tracks (qname : String) : Tracks env final s (libraryModule? qname) (libraryModule? qname) := by
  refine .get_bind fun s' _ _ => ?_
  split
  · exact .pure
  · split
    · rename_i hlibrary
      refine .bind (.lift fun _ => newModule_tame ..) fun m => .bind (.change fun _ => ?_) fun _ => .pure
      -- Only a module of the standard library is made up.
      have hne : ∀ q, firstSegment q ∉ Library.modules → q ≠ qname := fun q hq heq => hq (heq ▸ hlibrary)
      exact ⟨⟨rfl, rfl, rfl, rfl, rfl, rfl, rfl, rfl, fun q hq => Table.get?_insert_of_ne (hne q hq) ..⟩, rfl⟩
    · exact .pure

theorem bindSegment_tracks (hs : scope ≠ some moduleTable) (hsite : s.Segment site) (hfirst : previous = none → ∀ x, scope = some x → s.Takes x site.name)
    (m : ModuleId) (kind : BindingKind) :
    Tracks env final s (bindSegment previous scope site m kind) (bindSegment previous scope site m kind) := by
  refine .of_endures fun s1 hs1 ho => .theHeap_bind ?_
  have hsite1 := hsite.later hs1.toBefore
  split
  · refine (ho.bindIn_endures (ho.apart.modules _) (Session.allows_segment hsite1 fun hd _ => ?_) _).discard
    exact absurd hd.1 (ho.apart.housed.kind_table_ne _)
  · rename_i x
    refine (ho.bindIn_endures (fun heq => hs (congrArg some heq)) (Session.allows_segment hsite1 fun _ _ => ?_) _).discard
    exact (hfirst rfl x rfl).later hs1.toBefore
  · exact Tracks.endures .pure ho

theorem bindLibrarySegments_tracks (hs : scope ≠ some moduleTable) (hsites : ∀ site ∈ sites, s.Segment site)
    (hfirst : previous = none → ∀ x, scope = some x → ∀ site ∈ sites.head?, s.Takes x site.name) (before : List String) :
    Tracks env final s (bindLibrarySegments scope before previous sites)
      (bindLibrarySegments scope before previous sites) := by
  induction sites generalizing before previous with
  | nil => exact .pure
  | cons site rest ih =>
    rw [List.forall_mem_cons] at hsites
    refine (libraryModule_tracks _).bind fun m => ?_
    cases m with
    | none => exact .pure
    | some m =>
      refine (bindSegment_tracks hs hsites.1 (fun hp x hx => hfirst hp x hx site rfl) m .scope).bind fun _ => ?_
      exact ih hsites.2 (fun hp => by cases hp) _

theorem loadLibraryModule_tracks (hnames : ∀ site ∈ names, s.Segment site) (hs : scope ≠ some moduleTable)
    (hfirst : ∀ x, scope = some x → ∀ site ∈ names.head?, s.Takes x site.name) (qname : String) :
    Tracks env final s (loadLibraryModule names scope qname) (loadLibraryModule names scope qname) := by
  refine (libraryModule_tracks qname).bind fun m => ?_
  cases m with
  | none => exact .pure
  | some m => exact (bindLibrarySegments_tracks hs hnames (fun _ => hfirst) []).bind fun _ => .pure

theorem locateModule_tracks (name : String) : Tracks env final s (locateModule name) (locateModule name) := by
  refine .bind (.get_bind fun s' _ _ => ?_) fun _ => .read_bind .pure
  dsimp only
  split <;> exact .pure

theorem relativeBase_tracks (level : Nat) : Tracks env final s (relativeBase level) (relativeBase level) := by
  refine .get_bind fun s' _ _ => ?_
  split <;> exact .pure

variable (minds : Minds env final ev ev')
include minds

theorem loadPackage_tracks (file : Path) : Tracks env final s (loadPackage ev file) (loadPackage ev' file) := by
  refine (canonicalPath_tracks _).bind fun p => .get_bind fun s' _ _ => ?_
  split
  · exact cachedModule_tracks p
  · exact loadFile_tracks minds ..

theorem loadSegment_tracks (directory : Path) (name : String) (isLast : Bool) :
    Tracks env final s (loadSegment ev directory name isLast) (loadSegment ev' directory name isLast) := by
  refine .read_bind ?_
  dsimp only
  split
  · exact loadPackage_tracks minds _
  · split
    · exact loadFile_tracks minds ..
    · exact .pure

theorem loadSegments_tracks (hs : scope ≠ some moduleTable) (hsites : ∀ site ∈ sites, s.Segment site)
    (hfirst : previous = none → ∀ x, scope = some x → ∀ site ∈ sites.head?, s.Takes x site.name) (directory : Path) :
    Tracks env final s (loadSegments ev scope directory previous sites)
      (loadSegments ev' scope directory previous sites) := by
  induction sites generalizing directory previous with
  | nil => exact .pure
  | cons site rest ih =>
    rw [List.forall_mem_cons] at hsites
    refine (loadSegment_tracks minds ..).bind fun m => ?_
    cases m with
    | none => exact .pure
    | some m =>
      refine (bindSegment_tracks hs hsites.1 (fun hp x hx => hfirst hp x hx site rfl) m .variableName).bind fun _ => ?_
      exact ih hsites.2 (fun hp => by cases hp) _

theorem loadModule_tracks (hnames : ∀ site ∈ names, s.Segment site)
    (hs : scope ≠ some moduleTable) (hfirst : ∀ x, scope = some x → ∀ site ∈ names.head?, s.Takes x site.name)
    (level : Nat) : Tracks env final s (loadModule ev names scope level) (loadModule ev' names scope level) := by
  unfold loadModule
  split
  · exact .pure
  · -- From the top: registered modules, then files, then the library.
    refine .bind (.get_bind fun s' _ _ => .pure) fun registered => ?_
    cases registered with
    | some m => exact (bindLibrarySegments_tracks hs hnames (fun _ => hfirst) _).bind fun _ => .pure
    | none =>
      refine (locateModule_tracks _).bind fun directory => ?_
      cases directory with
      | some d => exact loadSegments_tracks minds hs hnames (fun _ => hfirst) _
      | none => exact loadLibraryModule_tracks hnames hs hfirst _
  · refine (relativeBase_tracks level).bind fun base => ?_
    split
    · exact .pure
    · exact loadPackage_tracks minds _
    · exact loadSegments_tracks minds hs hnames (fun _ => hfirst) _

variable (hx : s.Stands place (.stmt x))
include hx

omit minds in
theorem Session.Stands.segment {is : List Ident} (his : ∀ i ∈ is, i ∈ x.segments) :
    ∀ site ∈ is.map place.site, s.Segment site := by
  intro site hsite
  obtain ⟨i, hi, rfl⟩ := List.mem_map.1 hsite
  exact ⟨place, x, i, hx, his i hi, rfl⟩

omit minds in
theorem Session.Stands.takes (hi : i ∈ x.imported) : s.Takes place.scope i.text :=
  .imported ⟨place, x, i, hx, rfl, hi, rfl⟩

omit minds in
theorem bindImport_tracks (hi : i ∈ x.imported) (type : TypeId) :
    Tracks env final s (bindImport place i type) (bindImport place i type) := by
  refine .of_endures fun s1 hs1 ho => .discard ?_
  have hx1 := hx.later hs1.toBefore
  obtain ⟨m, u, hu, hplace, hw⟩ := ho.stands_within hx1
  exact ho.bindWithin_endures (hx1.part (Syntax.Stmt.imported_mem_parts hi)) hu hplace hw (fun _ _ => hx1.takes hi) none type
    .variableName

theorem importModule_tracks (ha : ∀ i ∈ a.path, i ∈ x.segments) (hbound : ∀ i ∈ a.bound, i ∈ x.imported) :
    Tracks env final s (importModule ev place a) (importModule ev' place a) := by
  refine .now fun s1 hs1 ho => ?_
  have hx1 := hx.later hs1.toBefore
  have hscope : some place.scope ≠ some moduleTable := fun heq => ho.scope_ne hx1 (Option.some.inj heq)
  unfold importModule
  dsimp only
  split
  · rename_i i hrename
    refine (loadModule_tracks minds (hx1.segment ha) (by simp) (fun x hx => by cases hx) 0).bind fun m => ?_
    refine .theHeap_bind fun _ _ => bindImport_tracks hx1 (hbound i ?_) _
    rw [Alias.bound, hrename]
    rfl
  · rename_i hrename
    -- Without another name the first segment is bound.
    have hhead : ∀ i ∈ a.path.head?, i ∈ x.imported := by
      intro i hi
      refine hbound i ?_
      rw [Alias.bound, hrename]
      exact hi
    have hfirst : ∀ y, some place.scope = some y → ∀ site ∈ (a.path.map place.site).head?, s1.Takes y site.name := by
      rintro _ ⟨⟩ site hsite
      rw [List.head?_map, Option.mem_map] at hsite
      obtain ⟨i, hi, rfl⟩ := hsite
      exact hx1.takes (hhead i hi)
    refine (loadModule_tracks minds (hx1.segment ha) hscope hfirst 0).bind fun m => ?_
    split
    · rename_i hpath
      refine .theHeap_bind fun h _ => ?_
      split
      · exact bindImport_tracks hx1 (hhead _ (by rw [hpath]; rfl)) _
      · exact .pure
    · exact .pure

theorem importName_tracks (hsource : ∀ i ∈ source, i ∈ x.segments)
    (ha : ∀ i ∈ a.path, i ∈ x.segments) (hbound : ∀ i ∈ a.bound, i ∈ x.imported) (level : Nat) (m : Option ModuleId) :
    Tracks env final s (importName ev place level source m a) (importName ev' place level source m a) := by
  unfold importName
  split
  · rename_i imported hpath
    have htarget : a.rename.getD imported ∈ x.imported := by
      refine hbound _ ?_
      rw [Alias.bound, hpath]
      cases a.rename <;> rfl
    refine .theHeap_bind fun h _ => ?_
    split
    · refine (recordUse_tracks ..).bind fun _ => .bind (.lift fun _ => typeOfBindings_tame _) fun _ => ?_
      exact bindImport_tracks hx htarget _
    · refine (loadModule_tracks minds (hx.segment fun i hi => ?_) (by simp) (fun x hx => by cases hx) level).bind
        fun m => ?_
      · rw [← hpath] at hi
        exact (List.mem_append.1 hi).elim (hsource i) (ha i)
      · exact .theHeap_bind fun _ _ => bindImport_tracks hx htarget _
  · exact .pure

omit minds in
theorem importEverything_tracks (heq : x = .importAll level source) (m : ModuleId) :
    Tracks env final s (onHeap (importEverything place m)) (onHeap (importEverything place m)) := by
  refine ⟨fun s1 hs1 ho => ?_⟩
  have htame : Tame (· = place.scope) s1.heap (importEverything place m) := by
    refine .get_bind fun g _ ha => .forM _ fun entry hentry => ?_
    split
    · exact .pure
    · have hvalue : entry.2 ∈ (g.scope (g.module m).table).table.values := List.mem_map.2 ⟨entry, hentry, rfl⟩
      exact updateName_tame (W := (· = place.scope)) rfl (ho.scope_ne (hx.later hs1.toBefore)) _
        (ha.single _ (ha.modules m) _ hvalue) (ha.unshared _ (ha.modules m) _ hvalue)
  obtain ⟨hsteady, hapart⟩ := htame.run s1.heap (.refl _) ho.apart
  have hal := Session.Alike.withHeap s1 ((importEverything place m).run s1.heap).2
  have hb := ho.before_steady hal hsteady
  have hspreads : ∀ name, isPrivateName name = false → Session.Spreads _ place.scope name :=
    fun name hpublic => ⟨hpublic, place, level, source, heq ▸ hx.later (hs1.toBefore.trans hb), rfl⟩
  -- Private names stay as they are, and no bindings are made.
  have htakes := importEverything_takesOver (m := m) (ho.mayEnclose (hx.later hs1.toBefore)).2
  have hlocal : ∀ name, isPrivateName name = true →
      (((importEverything place m).run s1.heap).2.scope place.scope).local? name =
        (s1.heap.scope place.scope).local? name := fun name hprivate => htakes.kept _ name (.inr (.inl hprivate))
  have hkept : ∀ name, isPrivateName name = true →
      (((importEverything place m).run s1.heap).2.scope place.scope).bound? name =
        (s1.heap.scope place.scope).bound? name := by
    intro name hprivate
    rw [Scope.bound?, Scope.bound?, hlocal name hprivate]
  have hbindings : ((importEverything place m).run s1.heap).2.bindings = s1.heap.bindings := bindings_importEverything ..
  refine ⟨ho.onwardIn hal hsteady ?_ ?_ ?_, ho.steadyIn hal hsteady hapart ?_ fun b hold hnew => ?_, fun _ => rfl⟩
  · rintro _ rfl name bs hbound
    cases hname : isPrivateName name with
    | true => exact .inl ((hkept name hname).trans hbound)
    | false => exact .inr (hspreads name hname)
  · rintro _ rfl name he
    exact htakes.local_ne_none he
  · rintro _ rfl name _ hnone
    cases hname : isPrivateName name with
    | true => exact .inl ((hlocal name hname).trans hnone)
    | false => exact .inr (.spread (hspreads name hname))
  · rintro _ m' rfl hw name bs hbound b hmem
    cases hname : isPrivateName name with
    | true => exact ho.warranted_later hb hsteady.toBindsIn hw ((hkept name hname).symm.trans hbound) hmem
    | false => exact .spread (hspreads name hname)
  · refine absurd ?_ hold
    have hlt : b.index < ((importEverything place m).run s1.heap).2.bindings.size := hnew
    rwa [hbindings] at hlt

end Imports

end Concordance
