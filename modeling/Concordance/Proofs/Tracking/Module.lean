import Concordance.Proofs.Inference.Loading
import Concordance.Proofs.Tracking.Call

/-!
# New modules keep a session in order

A unit is made a module only if no module is known under its qualified name, so that it has not been made one before.
From then on the name leads to the new module.
-/

namespace Concordance

open Session (moduleTable)

variable {h : Heap} {bindings : Array Binding}

variable {s : Session}

section Names

theorem run_union_unknown (hu : h.ty .unknown = .unknown) (ht : h.ty t ≠ .unknown) :
    (union .unknown t).run h = (t, h) := by
  have hne : ¬ h.equal .unknown t = true := fun heq => Heap.known_of_equal heq ht hu
  rw [run_union, if_neg hne, if_pos (Heap.isUnknown_iff.2 hu)]

theorem Session.Ordered.bound_eq_none (ho : s.Ordered) (hn : ∀ m, ¬ s.Announced q m) :
    (s.heap.scope moduleTable).bound? q = none := by
  cases hb : (s.heap.scope moduleTable).bound? q with
  | none => rfl
  | some bs =>
    obtain ⟨m, hm⟩ := ho.announced_of_bound hb
    exact absurd hm (hn m)

theorem runOn_cachedModule_of_announced (ho : s.Ordered)
    (ha : s.Announced (moduleNameOf path) m) : (cachedModule? path).runOn env s = (.ok (some m), s) := by
  obtain ⟨b, hbound, hty⟩ := ha
  have hknown : s.heap.ty (s.heap.binding b).type ≠ .unknown := by simp [hty]
  have hrun : (typeOfBindings [b]).run s.heap = ((s.heap.binding b).type, s.heap) := run_union_unknown ho.unknown.2 hknown
  have hmembers : s.heap.members (s.heap.binding b).type = [(s.heap.binding b).type] :=
    Heap.members_of_not_union fun ms => by simp [hty]
  rw [moduleNameOf] at hbound
  rw [cachedModule?, runOn_theHeap_bind, hbound]
  show (onHeap (typeOfBindings [b]) >>= _ : Analysis (Option ModuleId)).runOn env s = _
  rw [runOn_onHeap_bind, hrun]
  show (Except.ok ((s.heap.members (s.heap.binding b).type).findSome? _), s) = _
  dsimp only [Session.withHeap]
  rw [hmembers, List.findSome?_cons, hty]

theorem runOn_cachedModule_of_not (hb : (s.heap.scope moduleTable).bound? (moduleNameOf path) = none) :
    (cachedModule? path).runOn env s = (.ok none, s) := by
  rw [moduleNameOf] at hb
  rw [cachedModule?, runOn_theHeap_bind, hb]
  rfl

theorem runOn_canonicalPath (path : String) : (canonicalPath path).runOn env s =
    match env.workspace.canonical path with
    | .ok p => (.ok p.toString, s)
    | .error f => (.error f, s) := by
  rw [canonicalPath, runOn_read_bind]
  cases env.workspace.canonical path <;> rfl

theorem canonicalPath_tracks (path : String) : Tracks env final s (canonicalPath path) (canonicalPath path) := by
  refine .read_bind ?_
  split
  · exact .pure
  · exact .throw

theorem cachedModule_tracks (path : String) : Tracks env final s (cachedModule? path) (cachedModule? path) := by
  refine .theHeap_bind fun h _ => ?_
  split
  · exact .pure
  · exact .bind (.lift fun _ => typeOfBindings_tame _) fun _ => .theHeap_bind fun _ _ => .pure

theorem needFor_tracks (path : String) (isText : Bool) :
    Tracks env final s (needFor path isText) (needFor path isText) := by
  refine (canonicalPath_tracks path).bind fun p => .read_bind ?_
  split
  · exact (trace_tracks _).bind fun _ => .pure
  · refine .get_bind fun s' _ _ => ?_
    split
    · exact (trace_tracks _).bind fun _ => .pure
    · refine (cachedModule_tracks p).bind fun m => ?_
      cases m with
      | some m => exact (trace_tracks _).bind fun _ => .pure
      | none => exact .pure

/-- What is found out about a file, or about a text in its place. -/
inductive Session.Needs (env : Environment) (s : Session) (path : String) (isText : Bool) :
    Except Fault Need × Session → Prop
  | fault {f : Fault} (canonical : env.workspace.canonical path = .error f) : Needs env s path isText (.error f, s)
  | nothing {q : Path} (text : String) (canonical : env.workspace.canonical path = .ok q)
      (barred : isText = false ∧ env.workspace.isFile (Path.ofString q.toString) = false ∨
        q.toString ∈ s.loading.stack) :
      Needs env s path isText ((do trace text; return .settled none : Analysis Need).runOn env s)
  | known {q : Path} {m : ModuleId} (text : String) (canonical : env.workspace.canonical path = .ok q)
      (announced : s.Announced (moduleNameOf q.toString) m) :
      Needs env s path isText ((do trace text; return .settled (some m) : Analysis Need).runOn env s)
  | load {q : Path} (canonical : env.workspace.canonical path = .ok q) (out : q.toString ∉ s.loading.stack)
      (new : ∀ m, ¬ s.Announced (moduleNameOf q.toString) m) : Needs env s path isText (.ok (.load q.toString), s)

theorem Session.Ordered.needs (ho : s.Ordered) (env : Environment) (path : String) (isText : Bool) :
    s.Needs env path isText ((needFor path isText).runOn env s) := by
  unfold needFor
  rw [runOn_bind, runOn_canonicalPath]
  cases hcan : env.workspace.canonical path with
  | error f => exact .fault hcan
  | ok q =>
    dsimp only
    rw [runOn_read_bind]
    split
    · rename_i hunreadable
      exact .nothing _ hcan (.inl (by simpa using hunreadable))
    · rw [runOn_get_bind]
      split
      · rename_i hin
        exact .nothing _ hcan (.inr hin)
      · rename_i hout
        rw [runOn_bind]
        cases hbound : (s.heap.scope moduleTable).bound? (moduleNameOf q.toString) with
        | some bs =>
          obtain ⟨m, hm⟩ := ho.announced_of_bound hbound
          rw [runOn_cachedModule_of_announced ho hm]
          exact .known _ hcan hm
        | none =>
          rw [runOn_cachedModule_of_not hbound]
          refine .load hcan hout ?_
          rintro m ⟨b, hb, _⟩
          cases hb.symm.trans hbound

theorem eq_settled_of_runOn
    (hrun : (do trace text; return .settled r : Analysis Need).runOn env s = (.ok need, s')) : need = .settled r := by
  rw [runOn_bind] at hrun
  rcases htrace : (trace text).runOn env s with ⟨e | _, s1⟩ <;> rw [htrace] at hrun <;> cases hrun
  rfl

theorem runOn_needFor_load (ho : s.Ordered) (hrun : (needFor path isText).runOn env s = (.ok (.load p), s')) :
    s' = s ∧ Workspace.IsCanonical p ∧ p ∉ s.loading.stack ∧ ∀ m, ¬ s.Announced (moduleNameOf p) m := by
  have hneeds := ho.needs env path isText
  generalize (needFor path isText).runOn env s = x at hrun hneeds
  cases hneeds with
  | fault => cases hrun
  | nothing => cases eq_settled_of_runOn hrun
  | known => cases eq_settled_of_runOn hrun
  | load canonical out new =>
    cases hrun
    exact ⟨rfl, env.workspace.isCanonical_of_canonical canonical, out, new⟩

end Names

section Cache

/-- What parsing by the cache of units can do to it, and what it gives. -/
inductive UnitCache.Serves (path : String) (c : UnitCache) : Except Fault (Except ParseFailure SourceUnit) × UnitCache → Prop
  | kept (unit : SourceUnit) (known : c.units.get? path = some unit) : Serves path c (.ok (.ok unit), c)
  | parsed (content : ByteArray) (tree : Syntax.Module) :
      Serves path c (.ok (.ok ⟨c.parses, path, content, tree⟩), c.keep ⟨c.parses, path, content, tree⟩)
  | failed (f : ParseFailure) : Serves path c (.ok (.error f), c)
  | cleared (f : ParseFailure) : Serves path c (.ok (.error f), c.clear)
  | broken (f : Fault) : Serves path c (.error f, c)

theorem UnitCache.Reads.serves (hr : Reads shortage w path c r) : Serves path c r := by
  cases hr with
  | kept unit known => exact .kept unit known
  | parsed file tree => exact .parsed file.source tree
  | failed f => exact .failed f
  | short f => exact .cleared f
  | invalid | nullCharacter => exact .broken _

theorem UnitCache.parse_serves (shortage : Option Resource) (path : String) (content : ByteArray) (outcome : ParseOutcome)
    (c : UnitCache) : Serves path c ((parse shortage path content outcome).run.run c) := by
  unfold parse
  split
  · exact .failed _
  · exact .cleared _
  · exact .failed _
  · exact .broken _
  · exact .parsed content _

theorem exists_serves (env : Environment) (path : String) (text : Option (ByteArray × ParseOutcome)) (s : Session) :
    ∃ r c, UnitCache.Serves path s.loading.cache (r, c) ∧
      (parseSource path text).runOn env s = (parsingResult r).runOn env { s with loading.cache := c } := by
  cases text with
  | none => exact ⟨_, _, (UnitCache.read_reads env.shortage env.workspace path s.loading.cache).serves, rfl⟩
  | some text =>
    obtain ⟨content, outcome⟩ := text
    exact ⟨_, _, UnitCache.parse_serves env.shortage path content outcome s.loading.cache, rfl⟩

theorem Session.Ordered.withCache (ho : s.Ordered) (parses : s.loading.cache.parses ≤ c.parses)
    (cached : ∀ p u, c.units.get? p = some u → u.path = p ∧ u.number < c.parses)
    (distinct : ∀ p p' u u', c.units.get? p = some u → c.units.get? p' = some u' → u.number = u'.number → p = p')
    (old : ∀ p u, c.units.get? p = some u → s.loading.cache.units.get? p = some u ∨ s.loading.cache.parses ≤ u.number) :
    s.Onward { s with loading.cache := c } ∧ Session.Ordered { s with loading.cache := c } := by
  have hb : s.Before { s with loading.cache := c } := .of_same rfl rfl rfl
  refine ⟨⟨hb, .of_heap_eq rfl, rfl, rfl, fun _ _ h => h, fun _ _ h => .inl h, .of_eq rfl⟩, ho.unknown, ho.apart, { ho.filed with },
    ⟨fun m u hu => ?_, ho.shelved.once, cached, distinct, fun m p u u' hu hu' hn => ?_, ho.shelved.named⟩,
    ⟨ho.rooted.codes, ho.rooted.functions, ho.rooted.classes, ho.rooted.comprehensions⟩,
    ho.owned_same hb rfl, ho.stocked, ho.marked_same hb rfl rfl⟩
  · obtain ⟨hlt, hnumber, hfile⟩ := ho.shelved.opened m u hu
    exact ⟨hlt, Nat.lt_of_lt_of_le hnumber parses, hfile⟩
  · rcases old p u' hu' with hu' | hfresh
    · exact ho.shelved.met m p u u' hu hu' hn
    · -- A unit that a module was made from was parsed before.
      have hnumber := (ho.shelved.opened m u hu).2.1
      omega

theorem Session.Ordered.serves (ho : s.Ordered) (hserves : UnitCache.Serves path s.loading.cache (r, c)) :
    s.Onward { s with loading.cache := c } ∧ Session.Ordered { s with loading.cache := c } := by
  have hsame := ho.withCache (Nat.le_refl _) ho.shelved.cached ho.shelved.distinct fun _ _ hu => .inl hu
  cases hserves with
  | kept | failed | broken => exact hsame
  | cleared => exact ho.withCache (Nat.le_refl _) (fun _ _ h => nomatch h) (fun _ _ _ _ h => nomatch h) fun _ _ h => nomatch h
  | parsed content tree =>
    -- The new unit has a number that none had before.
    have hget : ∀ p u, (s.loading.cache.keep ⟨s.loading.cache.parses, path, content, tree⟩).units.get? p = some u →
        (p = path ∧ u = ⟨s.loading.cache.parses, path, content, tree⟩) ∨ s.loading.cache.units.get? p = some u := by
      intro p u hu
      by_cases hp : p = path
      · subst hp
        rw [UnitCache.keep, Table.get?_insert_self] at hu
        exact .inl ⟨rfl, (Option.some.inj hu).symm⟩
      · rw [UnitCache.keep, Table.get?_insert_of_ne hp] at hu
        exact .inr hu
    have hlt : ∀ p u, s.loading.cache.units.get? p = some u → u.number < s.loading.cache.parses :=
      fun p u hu => (ho.shelved.cached p u hu).2
    refine ho.withCache (Nat.le_succ _) (fun p u hu => ?_) (fun p p' u u' hu hu' hn => ?_) fun p u hu => ?_
    · rcases hget p u hu with ⟨rfl, rfl⟩ | hu
      · exact ⟨rfl, Nat.lt_succ_self _⟩
      · exact ⟨(ho.shelved.cached p u hu).1, Nat.lt_succ_of_lt (hlt p u hu)⟩
    · rcases hget p u hu with ⟨hp, heq⟩ | hold <;> rcases hget p' u' hu' with ⟨hp', heq'⟩ | hold'
      · exact hp.trans hp'.symm
      · rw [heq] at hn
        exact absurd hn (Nat.ne_of_gt (hlt p' u' hold'))
      · rw [heq'] at hn
        exact absurd hn (Nat.ne_of_lt (hlt p u hold))
      · exact ho.shelved.distinct p p' u u' hold hold' hn
    · rcases hget p u hu with ⟨rfl, rfl⟩ | hu
      · exact .inr (Nat.le_refl _)
      · exact .inl hu

theorem parsingResult_tracks (r : Except Fault (Except ParseFailure SourceUnit)) :
    Tracks env final s (parsingResult r) (parsingResult r) := by
  unfold parsingResult
  split
  · split
    · exact (trace_tracks _).bind fun _ => .pure
    · exact .pure
  · exact .pure
  · exact .throw

theorem parseSource_tracks (path : String) (text : Option (ByteArray × ParseOutcome)) :
    Tracks env final s (parseSource path text) (parseSource path text) := by
  refine ⟨fun s1 _ ho => ?_⟩
  obtain ⟨r, c, hserves, hrun⟩ := exists_serves env path text s1
  obtain ⟨hon, ho1⟩ := ho.serves hserves
  have hresult : Tracks env final { s1 with loading.cache := c } (parsingResult r) (parsingResult r) :=
    parsingResult_tracks r
  obtain ⟨hon', ho2, _⟩ := hresult.run _ (.refl _) ho1
  rw [hrun]
  exact ⟨hon.trans hon', ho2, fun _ => rfl⟩

theorem cached_of_runOn_parseSource (hrun : (parseSource path text).runOn env s = (.ok (.ok unit), s')) :
    s'.loading.cache.units.get? path = some unit := by
  obtain ⟨r, c, hserves, hparse⟩ := exists_serves env path text s
  rw [hparse] at hrun
  -- A failure stays a failure.
  have hfailed : ∀ (f : ParseFailure) (c : UnitCache),
      ¬ (parsingResult (.ok (.error f))).runOn env { s with loading.cache := c } = (.ok (.ok unit), s') := by
    intro f c heq
    simp only [parsingResult] at heq
    split at heq
    · rw [runOn_bind] at heq
      split at heq <;> cases heq
    · cases heq
  cases hserves with
  | kept unit known =>
    cases hrun
    exact known
  | parsed content tree =>
    cases hrun
    exact Table.get?_insert_self ..
  | failed f => exact absurd hrun (hfailed f _)
  | cleared f => exact absurd hrun (hfailed f _)
  | broken f => cases hrun

theorem recordParseFailure_tracks (f : ParseFailure) :
    Tracks env final s (recordParseFailure f) (recordParseFailure f) :=
  .bind (.change fun _ => ⟨⟨rfl, rfl, rfl, rfl, rfl, rfl, rfl, .of_eq rfl⟩, rfl⟩) fun _ => log_tracks ..

end Cache

section Entries

variable {s' : Session}

theorem Heap.withTable_eq (h : Heap) (edit : Table String (List BindingId) → Table String (List BindingId))
    (bindings : Array Binding) :
    { h with bindings, scopes := h.scopes.modify moduleTable.index fun scope => { scope with table := edit scope.table } } =
      h.withTable (edit (h.scope moduleTable).table) bindings := by
  rw [Heap.withTable, modify_congr (d := default)]
  rfl

theorem Heap.withName_moduleTable (h : Heap) (name : String) (x : Binding) :
    h.withName moduleTable name x = h.withEntry name x :=
  h.withTable_eq (fun table => table.insert name [⟨h.bindings.size⟩]) (h.bindings.push x)

theorem runOn_bindIn_table (env : Environment) (hb : (s.heap.scope moduleTable).bound? name = none) (site : Site)
    (type : TypeId) (kind : BindingKind) : ∃ x : Binding, x.type = type ∧ x.kind = kind ∧
      (bindIn moduleTable name (some site) type kind).runOn env s =
        (.ok ⟨s.heap.bindings.size⟩, s.withHeap (s.heap.withEntry name x)) := by
  refine ⟨site.introduce (s.heap.plainBinding moduleTable name type kind), (site.introduce_keeps _).1,
    (site.introduce_source _).1, ?_⟩
  show (onHeap (insertName moduleTable name type kind site.introduce) >>= _ : Analysis BindingId).runOn env s = _
  rw [runOn_onHeap_bind, run_insertName_new hb, Heap.withName_moduleTable]
  rfl

theorem run_removeName_table (h : Heap) (name : String) :
    ((removeName moduleTable name).run h).2 = h.withoutEntry name := Heap.withTable_eq h (·.erase name) h.bindings

theorem Heap.Apart.bound_withTable (ha : h.Apart)
    (hq : table.get? q = (h.scope moduleTable).table.get? q) :
    ((h.withTable table bindings).scope moduleTable).bound? q = (h.scope moduleTable).bound? q := by
  rw [Heap.scope_withTable ha.made, if_pos rfl, Scope.bound?, Scope.bound?, Scope.local?, Scope.local?]
  rw [hq]

theorem Heap.Apart.bound_withoutEntry (ha : h.Apart) :
    ((h.withoutEntry q).scope moduleTable).bound? q = none := by
  rw [Heap.withoutEntry, Heap.scope_withTable ha.made, if_pos rfl, Scope.bound?, Scope.local?]
  dsimp only
  rw [Table.get?_erase_self]

theorem Session.Ordered.lasts_withTable (ho : s.Ordered)     (kept : ∀ b, s.heap.HasBinding b →
      b.index < bindings.size ∧ Heap.binding { s.heap with bindings } b = s.heap.binding b)
    (heap : s'.heap = s.heap.withTable table bindings) : s.Lasts s' := by
  have hfirm : s.heap.Firm s'.heap := heap ▸ ho.apart.firm_withTable
  have hsame : ∀ x, x ≠ moduleTable → s'.heap.scope x = s.heap.scope x := fun x hx => by
    rw [heap, Heap.scope_withTable ho.apart.made, if_neg hx]
  -- The table of modules is not the scope of a function.
  have hfunction : ∀ x name, s.Declares x name → x ≠ moduleTable := by
    rintro x name ⟨hkind, _⟩ rfl
    cases ho.apart.kind.symm.trans hkind
  refine ⟨hfirm, hfirm.prolongs.retains fun b hb => ?_, fun x name bs hbound => ?_, fun x name he => ?_,
    fun x name hd => ?_, fun x name hd hnone => ?_⟩
  · obtain ⟨hlt, heq⟩ := kept b hb
    rw [heap]
    exact ⟨hlt, congrArg Binding.type heq⟩
  · by_cases hx : x = moduleTable
    · exact .inr (.inl hx)
    · rw [hsame x hx]
      exact .inl hbound
  · by_cases hx : x = moduleTable
    · exact .inr hx
    · rw [hsame x hx]
      exact .inl he
  · rw [Session.Declares, hsame x (hfunction x name hd)]
    exact hd
  · rw [hsame x (hfunction x name hd)]
    exact .inl hnone

theorem Session.Ordered.bindsIn_withTable (ho : s.Ordered)     (kept : ∀ b, s.heap.HasBinding b →
      b.index < bindings.size ∧ Heap.binding { s.heap with bindings } b = s.heap.binding b)
    (heap : s'.heap = s.heap.withTable table bindings) : s.heap.BindsIn (· = moduleTable) s'.heap := by
  rw [heap]
  refine ho.apart.bindsIn_withTable fun b hhas => ⟨(kept b hhas).1, ?_⟩
  rw [(kept b hhas).2]
  exact .refl _

theorem Session.Ordered.owned_withTable (ho : s.Ordered) (hb : s.Before s') (ha : s'.heap.Apart)
    (hbinds : s.heap.BindsIn (· = moduleTable) s'.heap) : s'.Owned :=
  -- The table of modules is within no module.
  ho.owned_later hb hbinds fun _ _ hx hw => absurd (hx ▸ hw) ha.not_within

theorem Heap.binding_push_of_has (hb : h.HasBinding b) (x : Binding) :
    b.index < (h.bindings.push x).size ∧ Heap.binding { h with bindings := h.bindings.push x } b = h.binding b :=
  ⟨Nat.lt_of_lt_of_le hb (by simp), getD_push.trans (if_neg (Nat.ne_of_lt hb))⟩

theorem Heap.binding_withEntry_of_new (hold : ¬ h.HasBinding b)
    (hb : (h.withEntry name x).HasBinding b) : (h.withEntry name x).binding b = x := by
  have hlt : b.index < (h.bindings.push x).size := hb
  rw [Array.size_push] at hlt
  exact getD_push.trans (if_pos (by simp only [HasBinding] at hold; omega))

theorem Session.Announced.withEntry (ha : s.Announced q m) (hapart : s.heap.Apart) (hq : q ≠ name)
    (heap : s'.heap = s.heap.withEntry name x) : s'.Announced q m := by
  obtain ⟨b, hbound, hty⟩ := ha
  refine ⟨b, ?_, ?_⟩
  · rw [heap, Heap.withEntry, hapart.bound_withTable (Table.get?_insert_of_ne hq ..)]
    exact hbound
  · rw [heap]
    show s.heap.ty (Heap.binding { s.heap with bindings := s.heap.bindings.push x } b).type = _
    rw [hapart.binding_push x (Scope.mem_values_of_bound hbound) (List.mem_singleton.2 rfl)]
    exact hty

theorem Session.Announced.withoutEntry (ha : s.Announced q m) (hapart : s.heap.Apart) (hq : q ≠ name)
    (heap : s'.heap = s.heap.withoutEntry name) : s'.Announced q m := by
  obtain ⟨b, hbound, hty⟩ := ha
  refine ⟨b, ?_, ?_⟩
  · rw [heap, Heap.withoutEntry, hapart.bound_withTable (Table.get?_erase_of_ne hq)]
    exact hbound
  · rw [heap]
    exact hty

theorem Session.announced_withEntry (hapart : s.heap.Apart) (hx : s.heap.ty x.type = .module m)
    (heap : s'.heap = s.heap.withEntry name x) : s'.Announced name m := by
  refine ⟨⟨s.heap.bindings.size⟩, ?_, ?_⟩
  · rw [heap, Heap.withEntry, Heap.scope_withTable hapart.made, if_pos rfl, Scope.bound?, Scope.local?]
    rw [Table.get?_insert_self]
  · rw [heap]
    show s.heap.ty (Heap.binding { s.heap with bindings := s.heap.bindings.push x } _).type = _
    rw [Heap.binding, getD_push, if_pos rfl]
    exact hx

end Entries

section Opening

theorem Session.Ordered.announce (ho : s.Ordered) (cached : s.loading.cache.units.get? unit.path = some unit)
    (hnew : ∀ m, ¬ s.Announced (moduleNameOf unit.path) m) (made : m.index < s.heap.modules.size)
    (fresh : s.loading.units.get? m = none) (file : (s.heap.module m).file = some unit.path)
    (hx : s.heap.ty x.type = .module m) (hkind : x.kind = .module)
    (heq : s' = (s.withHeap (s.heap.withEntry (moduleNameOf unit.path) x)).addUnit m unit) :
    s.Onward s' ∧ s'.Ordered ∧ s'.Announced (moduleNameOf unit.path) m ∧ s'.loading.units.get? m = some unit := by
  have hheap : s'.heap = s.heap.withEntry (moduleNameOf unit.path) x := by rw [heq]; rfl
  have hfirm : s.heap.Firm s'.heap := hheap ▸ ho.apart.firm_withTable
  have hunits : ∀ m' u, s'.loading.units.get? m' = some u →
      (m' = m ∧ u = unit) ∨ (m' ≠ m ∧ s.loading.units.get? m' = some u) := by
    intro m' u hu
    rw [heq] at hu
    by_cases hm : m' = m
    · subst hm
      rw [Session.addUnit, Table.get?_insert_self] at hu
      exact .inl ⟨rfl, (Option.some.inj hu).symm⟩
    · rw [Session.addUnit, Table.get?_insert_of_ne hm] at hu
      exact .inr ⟨hm, hu⟩
  have hkept : ∀ m' u, s.loading.units.get? m' = some u → s'.loading.units.get? m' = some u := by
    intro m' u hu
    rw [heq, Session.addUnit, Table.get?_insert_of_ne]
    · exact hu
    · rintro rfl
      cases fresh.symm.trans hu
  have hgrows : s.Grows s' := ⟨hfirm, hkept, by rw [heq]; exact fun _ _ h => h, by rw [heq]; exact fun _ _ h => h⟩
  -- The name was not there before, so that none is lost.
  have hannounced : ∀ q m', s.Announced q m' → s'.Announced q m' := by
    intro q m' ha
    refine ha.withEntry ho.apart ?_ hheap
    rintro rfl
    exact hnew m' ha
  have hself : s'.Announced (moduleNameOf unit.path) m := Session.announced_withEntry ho.apart hx hheap
  have hback : ∀ q m', q ≠ moduleNameOf unit.path → s'.Announced q m' → s.Announced q m' := by
    refine fun q m' hq ha => ho.announced_back hannounced (fun bs hbound => ?_) ha
    rwa [hheap, Heap.withEntry, ho.apart.bound_withTable (Table.get?_insert_of_ne hq ..)] at hbound
  have hcache : s'.loading.cache = s.loading.cache := by rw [heq]; rfl
  have hunseen : ∀ m' u, s.loading.units.get? m' = some u → u.number ≠ unit.number := by
    intro m' u hu hn
    obtain ⟨m'', ha⟩ := ho.shelved.met m' _ u unit hu cached hn.symm
    exact hnew m'' ha
  have hkeeps := fun b hb => Heap.binding_push_of_has (h := s.heap) (b := b) hb x
  have hapart : s'.heap.Apart := hheap ▸ ⟨ho.apart.withEntry _ hx, ho.apart.furnished.withTable ..⟩
  have hbinds : s.heap.BindsIn (· = moduleTable) s'.heap := ho.bindsIn_withTable hkeeps hheap
  have hstock : s.SameStock s' := .of_eq (by rw [heq]; rfl)
  refine ⟨⟨ho.before hgrows, ho.lasts_withTable hkeeps hheap, by rw [heq]; rfl, by rw [heq]; rfl, hannounced,
    fun q m' ha => ?_, hstock⟩,
    ⟨ho.unknown_later hfirm, hapart, ?_, ?_, ?_, ho.owned_withTable (ho.before hgrows) hapart hbinds,
      ho.stocked.later hstock,
      ho.marked_later (ho.before hgrows) (by rw [heq]; rfl) hbinds fun b hold hb => ?_⟩, hself, ?_⟩
  · by_cases hq : q = moduleNameOf unit.path
    · subst hq
      exact .inr (ha.unique hself ▸ fresh)
    · exact .inl (hback q m' hq ha)
  · exact ho.filed.later hfirm hannounced (by rw [heq]; rfl) (by rw [heq]; rfl) (by rw [heq]; rfl)
  · refine ⟨fun m' u hu => ?_, fun m' m'' u u' hu hu' hn => ?_, ?_, ?_, fun m' p u u' hu hu' hn => ?_, fun q m' ha => ?_⟩
    · rcases hunits m' u hu with ⟨rfl, rfl⟩ | ⟨_, hu⟩
      · obtain ⟨hlt, hmodule⟩ := hfirm.modules m' made
        rw [hmodule, hcache]
        exact ⟨hlt, (ho.shelved.cached _ u cached).2, file⟩
      · obtain ⟨hlt, hnumber, hfile⟩ := ho.shelved.opened m' u hu
        obtain ⟨hlt', hmodule⟩ := hfirm.modules m' hlt
        rw [hmodule, hcache]
        exact ⟨hlt', hnumber, hfile⟩
    · rcases hunits m' u hu with ⟨hm', heq'⟩ | ⟨_, hold⟩ <;> rcases hunits m'' u' hu' with ⟨hm'', heq''⟩ | ⟨_, hold'⟩
      · exact hm'.trans hm''.symm
      · exact absurd (heq' ▸ hn).symm (hunseen m'' u' hold')
      · exact absurd (heq'' ▸ hn) (hunseen m' u hold)
      · exact ho.shelved.once m' m'' u u' hold hold' hn
    · rw [hcache]
      exact ho.shelved.cached
    · rw [hcache]
      exact ho.shelved.distinct
    · rw [hcache] at hu'
      rcases hunits m' u hu with ⟨_, heq'⟩ | ⟨_, hold⟩
      · -- The only unit in the cache with this number is the one that was opened.
        rw [heq'] at hn
        rw [ho.shelved.distinct p _ u' unit hu' cached hn]
        exact ⟨m, hself⟩
      · exact (ho.shelved.met m' p u u' hold hu' hn).imp fun m'' => hannounced _ m''
    · by_cases hq : q = moduleNameOf unit.path
      · subst hq
        rw [ha.unique hself, heq]
        exact ⟨unit, Table.get?_insert_self .., rfl⟩
      · obtain ⟨u, hu, hname⟩ := ho.shelved.named q m' (hback q m' hq ha)
        exact ⟨u, hkept m' u hu, hname⟩
  · refine ho.rooted_later hgrows (fun f c hc => ?_) (by rw [heq]; rfl)
    rw [hheap] at hc
    exact hc
  · -- The only new binding is that of the module.
    refine .inr (.inl ?_)
    rw [hheap] at hb ⊢
    rw [Heap.binding_withEntry_of_new hold hb, hkind]
  · rw [heq]
    exact Table.get?_insert_self ..

theorem runOn_announceUnit (env : Environment) (hb : (s.heap.scope moduleTable).bound? (moduleNameOf unit.path) = none)
    (m : ModuleId) : ∃ x : Binding, x.type = (s.heap.module m).type ∧ x.kind = .module ∧
      (announceUnit unit m).runOn env s = (trace ("resolving " ++ unit.path ++ " as " ++ moduleNameOf unit.path)).runOn env
        (s.withHeap (s.heap.withEntry (moduleNameOf unit.path) x)) := by
  obtain ⟨x, hx, hkind, hbind⟩ := runOn_bindIn_table env hb
    { node := ⟨unit.number, unit.tree.size⟩, name := "", location := unit.ref.locate unit.tree.span, isModule := true }
    (s.heap.module m).type .module
  refine ⟨x, hx, hkind, ?_⟩
  rw [announceUnit, runOn_theHeap_bind, runOn_bind, runOn_discard]
  erw [hbind]
  rfl

/-- What is done with a unit once a module is made from it and known by its name. -/
def resolveOpened (ev : Evaluator) (unit : SourceUnit) (m : ModuleId) : Analysis ModuleId := do
  trace ("resolving " ++ unit.path ++ " as " ++ moduleNameOf unit.path)
  let _ ← block ev ⟨unit.ref, ((← theHeap).module m).table⟩ unit.tree.body
  return m

theorem exists_opened (env : Environment) (ho : s.Ordered) (cached : s.loading.cache.units.get? unit.path = some unit)
    (hnew : ∀ m, ¬ s.Announced (moduleNameOf unit.path) m) :
    ∃ m s', s.Onward s' ∧ s'.Ordered ∧ s'.Announced (moduleNameOf unit.path) m ∧ s'.loading.units.get? m = some unit ∧
      ∀ ev, (resolveUnit ev unit).runOn env s = (resolveOpened ev unit m).runOn env s' := by
  have hunbound := ho.bound_eq_none hnew
  -- The module is made first.
  obtain ⟨m, hm⟩ : ∃ m : ModuleId, m = ⟨s.heap.modules.size⟩ := ⟨_, rfl⟩
  obtain ⟨info, h1, hsteady, hapart, hmodule, htype, hfile, hopen⟩ : ∃ (info : ModuleInfo) (h1 : Heap),
      s.heap.Steady Heap.Nowhere h1 ∧ h1.Apart ∧ h1.modules = s.heap.modules.push info ∧ h1.ty info.type = .module m ∧
      info.file = some unit.path ∧ (openUnit unit).runOn env s = (.ok m, (s.withHeap h1).addUnit m unit) := by
    obtain ⟨hs, ha⟩ := (newModule_tame (W := Heap.Nowhere) (Path.ofString unit.path).moduleName (some unit.path)
      (Path.ofString unit.path).qualifiedName).run _ (.refl _) ho.apart
    refine ⟨_, _, hs, ha, rfl, ?_, rfl, by rw [hm]; rfl⟩
    rw [hm]
    exact getD_push.trans (if_pos rfl)
  have hinfo : h1.module m = info := by
    rw [Heap.module, hmodule, getD_push, if_pos (by rw [hm])]
  have halike := Session.Alike.withHeap s h1
  have ho1 : (s.withHeap h1).Ordered := ho.steady halike hsteady hapart
  have hunbound1 : ((s.withHeap h1).heap.scope moduleTable).bound? (moduleNameOf unit.path) = none := by
    rw [← hunbound, ← hsteady.table]
    rfl
  -- Then its name is bound.
  obtain ⟨x, hx, hkind, hannounce⟩ := runOn_announceUnit (s := (s.withHeap h1).addUnit m unit) env hunbound1 m
  have hnew1 : ∀ m', ¬ (s.withHeap h1).Announced (moduleNameOf unit.path) m' := by
    rintro m' ⟨b, hb, _⟩
    cases hb.symm.trans hunbound1
  have hfresh : s.loading.units.get? m = none := by
    by_contra hsome
    obtain ⟨u, hu⟩ := Option.ne_none_iff_exists'.1 hsome
    have hlt := (ho.shelved.opened m u hu).1
    rw [hm] at hlt
    exact Nat.lt_irrefl _ hlt
  have hmade : m.index < h1.modules.size := by
    rw [hmodule, hm, Array.size_push]
    exact Nat.lt_succ_self _
  obtain ⟨hon, ho', hannounced, hunits⟩ := ho1.announce cached hnew1 hmade hfresh (hinfo ▸ hfile)
    (by rw [hx]; exact hinfo ▸ htype) hkind rfl
  refine ⟨m, _, (ho.onward halike hsteady).trans hon, ho', hannounced, hunits, fun ev => ?_⟩
  rw [resolveUnit, runOn_bind, hopen]
  dsimp only
  have hrest : (do resolveModule ev unit m; return m : Analysis ModuleId) = (do
      announceUnit unit m
      let _ ← block ev ⟨unit.ref, ((← theHeap).module m).table⟩ unit.tree.body
      return m) := by
    simp only [resolveModule, bind_assoc, pure_bind]
    rfl
  rw [hrest, runOn_bind, hannounce, resolveOpened, runOn_bind]
  rfl

end Opening

end Concordance
