import Concordance.Proofs.Session.Mirror

/-!
# What runs keep

Nothing is taken back during a run: types stay types of values, functions keep their code, what has been
recorded, reported or defined stays so. A sound session stays sound, and the stacks are as before afterwards.
-/

namespace Concordance

open Syntax (Item)

variable {h' : Heap}

/-- What a change of a function leaves alone that does not apply it. -/
structure Function.SameCalls (a b : Function) : Prop where
  code : b.code = a.code
  native : b.native = a.native
  called : b.called = a.called
  arrows : b.arrows = a.arrows

theorem Function.SameCalls.refl (a : Function) : a.SameCalls a := ⟨rfl, rfl, rfl, rfl⟩

theorem Function.SameCalls.trans {a : Function} (hab : a.SameCalls b) (hbc : b.SameCalls c) : a.SameCalls c :=
  ⟨hbc.code.trans hab.code, hbc.native.trans hab.native, hbc.called.trans hab.called, hbc.arrows.trans hab.arrows⟩

namespace Heap

theorem mem_withArrow {h : Heap} (ha : a ∈ h.withArrow key result arrows) :
    a ∈ arrows ∨ a.2 = result ∧ (a.1 = key ∨ ∃ r, (a.1, r) ∈ arrows ∧ h.sameKey a.1 key = true) := by
  induction arrows with
  | nil =>
    rw [withArrow, List.mem_singleton] at ha
    exact .inr ⟨congrArg Prod.snd ha, .inl (congrArg Prod.fst ha)⟩
  | cons b rest ih =>
    rw [withArrow] at ha
    split at ha
    · rename_i hsame
      rcases List.mem_cons.1 ha with rfl | hrest
      · exact .inr ⟨rfl, .inr ⟨b.2, .head _, hsame⟩⟩
      · exact .inl (.tail _ hrest)
    · rcases List.mem_cons.1 ha with rfl | hrest
      · exact .inl (.head _)
      · rcases ih hrest with hold | ⟨hresult, hkey | ⟨r, hr, hsame⟩⟩
        · exact .inl (.tail _ hold)
        · exact .inr ⟨hresult, .inl hkey⟩
        · exact .inr ⟨hresult, .inr ⟨r, .tail _ hr, hsame⟩⟩

variable {h : Heap}

theorem IsSound.congr (hs : h.IsSound) (types : h'.types = h.types)
    (bindings : ∀ b, (h'.binding b).type = (h.binding b).type) (size : h'.bindings.size = h.bindings.size)
    (scopes : h'.scopes = h.scopes) (classes : h'.classes = h.classes) (modules : h'.modules = h.modules)
    (functions : ∀ f, (h'.function f).IsSound h) : h'.IsSound := by
  have he : Extends h h' := .of_types_eq types
  have hty : ∀ t, h'.ty t = h.ty t := fun t => by rw [Heap.ty, Heap.ty, types]
  refine ⟨fun i hi => by rw [types, hs.singletons i hi], fun t ht => hs.marker t (hty t ▸ ht), fun t => ?_,
    fun b => ?_, fun f => he.function (functions f), fun c => ?_, fun m => ?_, fun s bs hbs b hb => ?_⟩
  · rw [hty]
    exact he.fits (hs.types t)
  · rw [bindings]
    exact he.isValue (hs.bindings b)
  · rw [Heap.cls, classes]
    exact he.cls (hs.classes c)
  · rw [Heap.module, modules]
    exact he.isValue (hs.modules m)
  · rw [Heap.scope, scopes] at hbs
    rw [HasBinding, size]
    exact hs.scopes s bs hbs b hb

theorem function_modify (f g : FunctionId) (change : Function → Function) :
    Heap.function { h with functions := h.functions.modify f.index change } g =
      if g = f ∧ f.index < h.functions.size then change (h.function g) else h.function g := by
  rw [Heap.function, getD_modify]
  have : g.index = f.index ↔ g = f := by cases g; cases f; simp
  simp only [this]
  rfl

theorem function_push (g : FunctionId) (function : Function) :
    Heap.function { h with functions := h.functions.push function } g =
      if g = ⟨h.functions.size⟩ then function else h.function g := by
  rw [Heap.function, getD_push]
  have : g.index = h.functions.size ↔ g = ⟨h.functions.size⟩ := by cases g; simp
  simp only [this]
  rfl

theorem IsSound.modifyFunction (hs : h.IsSound) (f : FunctionId)
    (hc : ∀ g : Function, g.IsSound h → (change g).IsSound h) :
    IsSound { h with functions := h.functions.modify f.index change } := by
  refine hs.congr rfl (fun _ => rfl) rfl rfl rfl rfl fun g => ?_
  rw [function_modify]
  split
  · exact hc _ (hs.functions g)
  · exact hs.functions g

theorem lt_of_called (hf : (h.function f).called = true) : f.index < h.functions.size := by
  refine lt_size_of_getD_ne (d := default) fun heq => ?_
  rw [Heap.function, heq] at hf
  cases hf

theorem Evolves.sameCalls (he : Evolves h h') (f : FunctionId) :
    (h.function f).SameCalls (h'.function f) := by
  obtain ⟨r, hr⟩ := he.function f
  rw [hr]
  exact ⟨rfl, rfl, rfl, rfl⟩

theorem Evolves.called (he : Evolves h h') (f : FunctionId) :
    (h'.function f).called = (h.function f).called := (he.sameCalls f).called

theorem Evolves.code (he : Evolves h h') (f : FunctionId) :
    (h'.function f).code = (h.function f).code := (he.sameCalls f).code

theorem Evolves.yields (he : Evolves h h') (f : FunctionId) :
    (h'.function f).yields = (h.function f).yields := by
  obtain ⟨r, hr⟩ := he.function f
  rw [hr]

end Heap

namespace Session

theorem code_modify {h : Heap} (f g : FunctionId)
    (hc : ∀ x, (change x).code = x.code) :
    (Heap.function { h with functions := h.functions.modify f.index change } g).code = (h.function g).code := by
  rw [Heap.function_modify]
  split
  · exact hc _
  · rfl

theorem code_markCalled {s : Session} (f g : FunctionId) :
    ((s.markCalled f).heap.function g).code = (s.heap.function g).code := code_modify f g fun _ => rfl

/-- A session in which everything refers to what it should. -/
structure IsSound (s : Session) : Prop where
  heap : s.heap.IsSound
  /-- What is known as the function of a definition comes from it. -/
  registered : ∀ r f, s.definitions.functions.get? r = some f →
    ∃ c, (s.heap.function f).code = some c ∧ c.ref = r
  mirrored : Mirrored s.heap.references s.heap.bindings s.links
  cached : ∀ p unit, s.loading.cache.units.get? p = some unit → unit.path = p
  opened : ∀ m ∈ s.loading.units.keys, m.index < s.heap.modules.size
  waiting : ∀ f ∈ s.uncalled, (s.heap.function f).called = false ∧ ∃ c, (s.heap.function f).code = some c

theorem IsSound.keep {s : Session} (hs : s.IsSound) (unit : SourceUnit) :
    IsSound { s with loading.cache := s.loading.cache.keep unit } := by
  refine ⟨hs.heap, hs.registered, hs.mirrored, fun p unit' hp => ?_, hs.opened, hs.waiting⟩
  by_cases heq : p = unit.path
  · subst heq
    rw [UnitCache.keep, Table.get?_insert_self, Option.some.injEq] at hp
    rw [hp]
  · rw [UnitCache.keep, Table.get?_insert_of_ne heq] at hp
    exact hs.cached p unit' hp

theorem IsSound.forget {s : Session} (hs : s.IsSound) :
    IsSound { s with loading.cache := s.loading.cache.clear } :=
  ⟨hs.heap, hs.registered, hs.mirrored, fun _ _ hp => (nomatch hp), hs.opened, hs.waiting⟩

/-- A later session: nothing has been taken back. -/
structure Later (s s' : Session) : Prop where
  types : Heap.Extends s.heap s'.heap
  codes : ∀ f c, (s.heap.function f).code = some c → (s'.heap.function f).code = some c
  called : ∀ f, (s.heap.function f).called = true → (s'.heap.function f).called = true
  references : ∀ (i : Nat) r, s.heap.references[i]? = some r → s'.heap.references[i]? = some r
  links : ∀ (i : Nat) bs, s.links[i]? = some bs → ∃ bs', s'.links[i]? = some bs' ∧ bs ⊆ bs'
  reported : ∀ l, s.ReportedUnbound l → s'.ReportedUnbound l
  classes : ∀ r, s.definitions.classes.get? r ≠ none → s'.definitions.classes.get? r ≠ none
  units : ∀ unit ∈ s.loading.units.values, unit ∈ s'.loading.units.values
  bindings : ∀ (i : Nat) x, s.heap.bindings[i]? = some x →
    ∃ x', s'.heap.bindings[i]? = some x' ∧ Heap.SameOrigin x x' ∧ x.refs ⊆ x'.refs

namespace Later

variable {s s' : Session}

theorem refl (s : Session) : Later s s :=
  ⟨.refl _, fun _ _ h => h, fun _ h => h, fun _ _ h => h, fun _ bs h => ⟨bs, h, List.Subset.refl _⟩, fun _ h => h,
    fun _ h => h, fun _ h => h, fun _ x h => ⟨x, h, .refl x, List.Subset.refl _⟩⟩

theorem trans (hl : Later s s') (hl' : Later s' s'') : Later s s'' where
  types := hl.types.trans hl'.types
  codes f c hc := hl'.codes f c (hl.codes f c hc)
  called f hf := hl'.called f (hl.called f hf)
  references i r h := hl'.references i r (hl.references i r h)
  links i bs h := by
    obtain ⟨bs', h', hsub⟩ := hl.links i bs h
    obtain ⟨bs'', h'', hsub'⟩ := hl'.links i bs' h'
    exact ⟨bs'', h'', List.Subset.trans hsub hsub'⟩
  reported l h := hl'.reported l (hl.reported l h)
  classes r h := hl'.classes r (hl.classes r h)
  units unit h := hl'.units unit (hl.units unit h)
  bindings i x h := by
    obtain ⟨x', h', hsame, hsub⟩ := hl.bindings i x h
    obtain ⟨x'', h'', hsame', hsub'⟩ := hl'.bindings i x' h'
    exact ⟨x'', h'', hsame.trans hsame', List.Subset.trans hsub hsub'⟩

theorem isValue (hl : Later s s') (ht : s.heap.IsValue t) : s'.heap.IsValue t := hl.types.isValue ht

theorem hasBinding (hl : Later s s') (hb : s.heap.HasBinding b) : s'.heap.HasBinding b := by
  obtain ⟨x', hx', _⟩ := hl.bindings b.index _ (Array.getElem?_eq_getElem hb)
  exact (Array.getElem?_eq_some_iff.1 hx').1

theorem recorded (hl : Later s s') (hr : s.Recorded l) : s'.Recorded l := by
  obtain ⟨i, r, bs, href, hlinks, hfile, hstart, hne⟩ := hr
  obtain ⟨bs', hlinks', hsub⟩ := hl.links i bs hlinks
  refine ⟨i, r, bs', hl.references i r href, hlinks', hfile, hstart, ?_⟩
  rintro rfl
  exact hne (List.subset_nil.1 hsub)

theorem happened (hl : Later s s') (hx : s.Happened u x) : s'.Happened u x := by
  cases x with
  | use i =>
    refine hx.imp_right fun hx l hloc => ?_
    exact (hx l hloc).imp hl.recorded (hl.reported l)
  | function node ps b =>
    obtain ⟨f, c, hc, href⟩ := hx
    exact ⟨f, c, hl.codes f c hc, href⟩
  | cls node b => exact hl.classes _ hx

theorem of_eq (types : s'.heap.types = s.heap.types)
    (codes : ∀ f c, (s.heap.function f).code = some c → (s'.heap.function f).code = some c)
    (called : ∀ f, (s.heap.function f).called = true → (s'.heap.function f).called = true)
    (references : s'.heap.references = s.heap.references) (links : s'.links = s.links)
    (problems : s'.problems = s.problems) (classes : s'.definitions.classes = s.definitions.classes)
    (units : s'.loading.units = s.loading.units) (bindings : s'.heap.bindings = s.heap.bindings) : Later s s' where
  types := .of_types_eq types
  codes := codes
  called := called
  references i r h := by rwa [references]
  links i bs h := ⟨bs, by rwa [links], List.Subset.refl _⟩
  reported l h := by simpa only [ReportedUnbound, problems] using h
  classes r h := by rwa [classes]
  units unit h := by rwa [units]
  bindings i x h := ⟨x, by rwa [bindings], .refl x, List.Subset.refl _⟩

theorem of_evolves (he : Heap.Evolves s.heap h) : Later s (s.withHeap h) where
  types := he.toExtends
  codes f _ hc := (he.code f).trans hc
  called f hf := (he.called f).trans hf
  references _ _ hr := he.references ▸ hr
  links _ bs hb := ⟨bs, hb, List.Subset.refl _⟩
  reported _ hl := hl
  classes _ hr := hr
  units _ hu := hu
  bindings i x hx := by
    obtain ⟨x', hx', hsame, hrefs⟩ := he.bindings hx
    exact ⟨x', hx', hsame, hrefs ▸ List.Subset.refl _⟩

theorem enterFile (path : String) : Later s (s.enterFile path) :=
  of_eq rfl (fun _ _ h => h) (fun _ h => h) rfl rfl rfl rfl rfl rfl

theorem addUnit (unit : SourceUnit) (fresh : m ∉ s.loading.units.keys) : Later s (s.addUnit m unit) := by
  refine ⟨.refl _, fun _ _ h => h, fun _ h => h, fun _ _ h => h, fun _ bs h => ⟨bs, h, List.Subset.refl _⟩, fun _ h => h,
    fun _ h => h, fun unit' hu => ?_, fun _ x h => ⟨x, h, .refl x, List.Subset.refl _⟩⟩
  show unit' ∈ (s.loading.units.insert m unit).values
  rw [Table.values_insert_of_not_mem fresh]
  exact List.mem_append_left _ hu

theorem addLoaded (path : String) : Later s (s.addLoaded path) :=
  of_eq rfl (fun _ _ h => h) (fun _ h => h) rfl rfl rfl rfl rfl rfl

theorem leaveFile (before : Loading) : Later s (s.leaveFile before) :=
  of_eq rfl (fun _ _ h => h) (fun _ h => h) rfl rfl rfl rfl rfl rfl

theorem addClass (r : NodeRef) (c : ClassId) : Later s (s.addClass r c) where
  types := .refl _
  codes _ _ h := h
  called _ h := h
  references _ _ h := h
  links _ bs h := ⟨bs, h, List.Subset.refl _⟩
  reported _ h := h
  classes r' h := by
    by_cases heq : r' = r
    · subst heq
      simp [Session.addClass]
    · simpa only [Session.addClass, Table.get?_insert_of_ne heq] using h
  units _ h := h
  bindings _ x h := ⟨x, h, .refl x, List.Subset.refl _⟩

theorem of_modify (f : FunctionId)
    (heap : s'.heap = { s.heap with functions := s.heap.functions.modify f.index change })
    (hc : ∀ g, (change g).code = g.code) (hcalled : ∀ g, g.called = true → (change g).called = true)
    (links : s'.links = s.links) (problems : s'.problems = s.problems)
    (classes : s'.definitions.classes = s.definitions.classes) (units : s'.loading.units = s.loading.units) :
    Later s s' := by
  refine of_eq (by rw [heap]) (fun g c hg => ?_) (fun g hg => ?_) (by rw [heap]) links problems classes units (by rw [heap])
  · rw [heap, Heap.function_modify]
    split
    · rw [hc]
      exact hg
    · exact hg
  · rw [heap, Heap.function_modify]
    split
    · exact hcalled _ hg
    · exact hg

theorem markCalled (f : FunctionId) : Later s (s.markCalled f) :=
  of_modify f rfl (fun _ => rfl) (fun _ _ => rfl) rfl rfl rfl rfl

theorem enterCall (f : FunctionId) : Later s (s.enterCall f) := of_modify f rfl (fun _ => rfl) (fun _ h => h) rfl rfl rfl rfl

theorem leaveCall (f : FunctionId) (stack : List FunctionId) (yields : Option TypeId) :
    Later s (s.leaveCall f stack yields) := of_modify f rfl (fun _ => rfl) (fun _ h => h) rfl rfl rfl rfl

theorem recordCall (f : FunctionId) (key result : TypeId) : Later s (s.recordCall f key result) :=
  of_modify f rfl (fun _ => rfl) (fun _ h => h) rfl rfl rfl rfl

theorem define (code : Code) (function : Function) : Later s (s.define code function) := by
  have hold : ∀ g, g.index < s.heap.functions.size →
      Heap.function { s.heap with functions := s.heap.functions.push function } g = s.heap.function g := by
    intro g hlt
    rw [Heap.function_push, if_neg (fun heq => by simp [heq] at hlt)]
  refine of_eq rfl (fun g c hg => ?_) (fun g hg => ?_) rfl rfl rfl rfl rfl rfl
  · exact (congrArg Function.code (hold g (Heap.lt_of_code hg))).trans hg
  · exact (congrArg Function.called (hold g (Heap.lt_of_called hg))).trans hg

end Later

end Session

namespace Session.Change

section

variable (hc : Change env s s')
include hc

theorem later : Later s s' := by
  cases hc with
  | heap h hc => exact .of_evolves (.single hc)
  | newSite r =>
    refine ⟨.of_types_eq rfl, fun _ _ h => h, fun _ h => h, fun i q hq => ?_, fun i bs hb => ⟨bs, ?_, List.Subset.refl _⟩,
      fun _ h => h, fun _ h => h, fun _ h => h, fun _ x h => ⟨x, h, .refl x, List.Subset.refl _⟩⟩
    · exact (Array.getElem?_push_lt (Array.getElem?_eq_some_iff.1 hq).1).trans
        (Array.getElem?_eq_getElem _ ▸ hq)
    · exact (Array.getElem?_push_lt (Array.getElem?_eq_some_iff.1 hb).1).trans
        (Array.getElem?_eq_getElem _ ▸ hb)
  | link r b =>
    refine ⟨.of_types_eq rfl, fun _ _ h => h, fun _ h => h, fun _ _ h => h, fun i bs hb => ?_, fun _ h => h,
      fun _ h => h, fun _ h => h, fun i x hx => ?_⟩
    · show ∃ bs', (s.links.modify r.index _)[i]? = some bs' ∧ bs ⊆ bs'
      rw [Array.getElem?_modify, hb]
      split
      · exact ⟨_, rfl, fun c hc => mem_addOnce.2 (.inl hc)⟩
      · exact ⟨bs, rfl, List.Subset.refl _⟩
    · show ∃ x', (s.heap.bindings.modify b.index _)[i]? = some x' ∧ Heap.SameOrigin x x' ∧ x.refs ⊆ x'.refs
      rw [Array.getElem?_modify, hx]
      split
      · exact ⟨_, rfl, ⟨rfl, rfl, rfl, rfl, rfl, rfl, rfl, rfl, rfl⟩, fun q hq => mem_addOnce.2 (.inl hq)⟩
      · exact ⟨x, rfl, .refl x, List.Subset.refl _⟩
  | yields f t => exact .of_modify f rfl (fun _ => rfl) (fun _ h => h) rfl rfl rfl rfl
  | problem d =>
    refine ⟨.refl _, fun _ _ h => h, fun _ h => h, fun _ _ h => h, fun _ bs h => ⟨bs, h, List.Subset.refl _⟩, fun l hl => ?_,
      fun _ h => h, fun _ h => h, fun _ x h => ⟨x, h, .refl x, List.Subset.refl _⟩⟩
    obtain ⟨d', hd', hrest⟩ := hl
    exact ⟨d', List.mem_append_left _ hd', hrest⟩
  | _ => exact .of_eq rfl (fun _ _ h => h) (fun _ h => h) rfl rfl rfl rfl rfl rfl

theorem callStack : s'.callStack = s.callStack := by cases hc <;> rfl

theorem stack : s'.loading.stack = s.loading.stack := by cases hc <;> rfl

theorem directory : s'.loading.directory = s.loading.directory := by cases hc <;> rfl

theorem searchPath : s'.loading.searchPath = s.loading.searchPath := by cases hc <;> rfl

theorem finished : s'.finished = s.finished := by cases hc <;> rfl

end

end Session.Change

namespace Session.IsSound

variable {s : Session}

theorem of_evolves (hs : s.IsSound) (he : Heap.Evolves s.heap h) : IsSound (s.withHeap h) where
  heap := he.isSound hs.heap
  registered r f hf := by
    obtain ⟨c, hcode, href⟩ := hs.registered r f hf
    exact ⟨c, (he.code f).trans hcode, href⟩
  mirrored := by
    show Mirrored h.references h.bindings s.links
    rw [he.references]
    exact hs.mirrored.of_refs fun i => he.refs ⟨i⟩
  cached := hs.cached
  opened m hm := Nat.lt_of_lt_of_le (hs.opened m hm) he.modules_size
  waiting f hf := by
    obtain ⟨hcalled, c, hcode⟩ := hs.waiting f hf
    exact ⟨(he.called f).trans hcalled, c, (he.code f).trans hcode⟩

theorem of_modify (hs : s.IsSound) {s' : Session} (f : FunctionId)
    (heap : s'.heap = { s.heap with functions := s.heap.functions.modify f.index change })
    (hc : ∀ g, (change g).code = g.code)
    (waiting : ∀ g ∈ s'.uncalled, g ∈ s.uncalled ∧ (g ≠ f ∨ ∀ x, (change x).called = x.called))
    (sound : ∀ g : Function, g.IsSound s.heap → (change g).IsSound s.heap)
    (links : s'.links = s.links) (functions : s'.definitions.functions = s.definitions.functions)
    (loading : s'.loading = s.loading) : s'.IsSound where
  heap := by
    rw [heap]
    exact hs.heap.modifyFunction f sound
  registered r g hg := by
    rw [functions] at hg
    obtain ⟨c, hcode, href⟩ := hs.registered r g hg
    refine ⟨c, ?_, href⟩
    rw [heap, Heap.function_modify]
    split
    · rw [hc]
      exact hcode
    · exact hcode
  mirrored := by
    rw [links, heap]
    exact hs.mirrored
  cached := by
    rw [loading]
    exact hs.cached
  opened := by
    rw [loading, heap]
    exact hs.opened
  waiting g hg := by
    obtain ⟨hmem, hkeep⟩ := waiting g hg
    obtain ⟨hcalled, c, hcode⟩ := hs.waiting g hmem
    rw [heap, Heap.function_modify]
    split
    · rename_i heq
      rw [hc, (hkeep.resolve_left fun hne => hne heq.1) _]
      exact ⟨hcalled, c, hcode⟩
    · exact ⟨hcalled, c, hcode⟩

theorem markCalled (hs : s.IsSound) (f : FunctionId) : (s.markCalled f).IsSound :=
  hs.of_modify f rfl (fun _ => rfl) (fun g hg => ⟨List.mem_of_mem_filter hg, .inl (by simpa using (List.mem_filter.1 hg).2)⟩)
    (fun _ hg => { hg with }) rfl rfl rfl

theorem enterCall (hs : s.IsSound) (f : FunctionId) : (s.enterCall f).IsSound :=
  hs.of_modify f rfl (fun _ => rfl) (fun _ hg => ⟨hg, .inr fun _ => rfl⟩)
    (fun _ hg => { hg with yields := by simp }) rfl rfl rfl

theorem leaveCall (hs : s.IsSound) (f : FunctionId) (stack : List FunctionId)
    (hy : ∀ t ∈ yields, s.heap.IsValue t) : (s.leaveCall f stack yields).IsSound :=
  hs.of_modify f rfl (fun _ => rfl) (fun _ hg => ⟨hg, .inr fun _ => rfl⟩)
    (fun _ hg => { hg with yields := hy }) rfl rfl rfl

theorem withArrow_values {h : Heap} (hk : h.IsValue key) (hr : h.IsValue result) (ha : ∀ a ∈ arrows, h.IsValue a.1 ∧ h.IsValue a.2) :
    ∀ a ∈ h.withArrow key result arrows, h.IsValue a.1 ∧ h.IsValue a.2 := by
  intro a hm
  rcases Heap.mem_withArrow hm with hm | ⟨hresult, hkey | ⟨r, hm, _⟩⟩
  · exact ha a hm
  · exact ⟨hkey ▸ hk, hresult ▸ hr⟩
  · exact ⟨(ha _ hm).1, hresult ▸ hr⟩

section

variable (hs : s.IsSound)
include hs

theorem recordCall (f : FunctionId) (hk : s.heap.IsValue key)
    (hr : s.heap.IsValue result) : (s.recordCall f key result).IsSound :=
  hs.of_modify f rfl (fun _ => rfl) (fun _ hg => ⟨hg, .inr fun _ => rfl⟩)
    (fun _ hg => { hg with arrows := withArrow_values hk hr hg.arrows }) rfl rfl rfl

theorem enterFile (path : String) : (s.enterFile path).IsSound :=
  ⟨hs.heap, hs.registered, hs.mirrored, hs.cached, hs.opened, hs.waiting⟩

theorem addUnit (unit : SourceUnit) (made : m.index < s.heap.modules.size) :
    (s.addUnit m unit).IsSound := by
  refine ⟨hs.heap, hs.registered, hs.mirrored, hs.cached, fun m' hm' => ?_, hs.waiting⟩
  rcases Table.mem_keys_insert hm' with rfl | hm'
  · exact made
  · exact hs.opened m' hm'

theorem addLoaded (path : String) : (s.addLoaded path).IsSound :=
  ⟨hs.heap, hs.registered, hs.mirrored, hs.cached, hs.opened, hs.waiting⟩

theorem leaveFile (before : Loading) : (s.leaveFile before).IsSound :=
  ⟨hs.heap, hs.registered, hs.mirrored, hs.cached, hs.opened, hs.waiting⟩

theorem addClass (r : NodeRef) (c : ClassId) : (s.addClass r c).IsSound :=
  ⟨hs.heap, hs.registered, hs.mirrored, hs.cached, hs.opened, hs.waiting⟩

theorem define (sound : function.IsSound s.heap)
    (isCode : function.code = some code) (uncalled : function.called = false) : (s.define code function).IsSound where
  heap := by
    refine hs.heap.congr rfl (fun _ => rfl) rfl rfl rfl rfl fun g => ?_
    show (Heap.function { s.heap with functions := s.heap.functions.push function } g).IsSound s.heap
    rw [Heap.function_push]
    split
    · exact sound
    · exact hs.heap.functions g
  registered r g hg := by
    have hl := Session.Later.define (s := s) code function
    by_cases heq : r = code.ref
    · subst heq
      rw [Session.define, Table.get?_insert_self, Option.some.injEq] at hg
      refine ⟨code, ?_, rfl⟩
      show (Heap.function { s.heap with functions := s.heap.functions.push function } g).code = some code
      rw [Heap.function_push, if_pos hg.symm, isCode]
    · rw [Session.define, Table.get?_insert_of_ne heq] at hg
      obtain ⟨c, hcode, href⟩ := hs.registered r g hg
      exact ⟨c, hl.codes g c hcode, href⟩
  mirrored := hs.mirrored
  cached := hs.cached
  opened := hs.opened
  waiting g hg := by
    show (Heap.function { s.heap with functions := s.heap.functions.push function } g).called = false ∧
      ∃ c, (Heap.function { s.heap with functions := s.heap.functions.push function } g).code = some c
    rw [Heap.function_push]
    split
    · exact ⟨uncalled, code, isCode⟩
    · rename_i hne
      have hg : g ∈ if (⟨s.heap.functions.size⟩ : FunctionId) ∈ s.uncalled then s.uncalled
          else s.uncalled ++ [⟨s.heap.functions.size⟩] := hg
      refine hs.waiting g ?_
      split at hg
      · exact hg
      · exact (List.mem_append.1 hg).resolve_right fun h => hne (List.mem_singleton.1 h)

theorem link (recorded : r.index < s.heap.references.size)
    (bound : s.heap.HasBinding b) : (s.link r b).IsSound where
  heap := by
    refine hs.heap.congr rfl (fun c => ?_) (Array.size_modify ..) rfl rfl rfl hs.heap.functions
    show ((s.heap.bindings.modify b.index _).getD c.index default).type = _
    rw [getD_modify]
    split <;> rfl
  registered := hs.registered
  mirrored := mirrored_link hs.mirrored recorded bound
  cached := hs.cached
  opened := hs.opened
  waiting := hs.waiting

end

end Session.IsSound

theorem Session.Change.isSound (hc : Change env s s') (hs : s.IsSound) : s'.IsSound := by
  cases hc with
  | heap h hc => exact hs.of_evolves (.single hc)
  | newSite r fresh =>
    exact ⟨hs.heap.congr rfl (fun _ => rfl) rfl rfl rfl rfl hs.heap.functions, hs.registered,
      hs.mirrored.newSite r fresh, hs.cached, hs.opened, hs.waiting⟩
  | link r b recorded bound => exact hs.link recorded bound
  | yields f t value applied =>
    refine hs.of_modify f rfl (fun _ => rfl) (fun _ hg => ⟨hg, .inr fun _ => rfl⟩) (fun g hg => ?_) rfl rfl rfl
    exact { hg with yields := fun u hu => Option.some.inj hu ▸ value }
  | parse unit _ => exact hs.keep unit
  | forget _ => exact hs.forget
  | _ => exact ⟨hs.heap, hs.registered, hs.mirrored, hs.cached, hs.opened, hs.waiting⟩

namespace Run

section

variable (hr : Run env D b s s')
include hr

theorem mono : ∀ {D' : UnitRef → Item → Prop}, (∀ u x, D u x → D' u x) →
    Run env D' b s s' := by
  induction hr with
  | refl => exact fun _ => .refl
  | change hc => exact fun _ => .change hc
  | trans _ _ ih ih' => exact fun hd => .trans (ih hd) (ih' hd)
  | stop _ ih => exact fun hd => .stop (ih hd)
  | define code function owned unknown params covered setup made _ =>
    exact fun hd =>
      .define code function (hd _ _ owned) unknown params covered setup made
  | defineBroken code owned unknown params _ => exact fun hd => .defineBroken code (hd _ _ owned) unknown params
  | defineClass u node c body owned unknown setup _ covered ih =>
    exact fun hd => .defineClass u node c body (hd _ _ owned) unknown setup (ih hd) covered
  | mark f settled => exact fun _ => .mark f settled
  -- Inside applications and loadings it is up to the code there what may be defined.
  | apply f code key result isCode native outside setup body covered computed _ =>
    exact fun _ => .apply f code key result isCode native outside setup body covered computed
  | applyBroken f code isCode native outside setup body _ =>
    exact fun _ => .applyBroken f code isCode native outside setup body
  | load m unit canonical outside parsing opens body covered _ _ =>
    exact fun _ => .load m unit canonical outside parsing opens body covered
  | loadBroken m unit canonical outside parsing opens body _ _ =>
    exact fun _ => .loadBroken m unit canonical outside parsing opens body
  | loadFailed path canonical outside parsing _ => exact fun _ => .loadFailed path canonical outside parsing

theorem later : s.Later s' := by
  induction hr with
  | refl => exact .refl _
  | change hc => exact hc.later
  | trans _ _ ih ih' => exact ih.trans ih'
  | stop _ ih => exact ih
  | define code function _ _ _ _ setup _ ih => exact (ih.trans (.of_evolves setup)).trans (.define code function)
  | defineBroken _ _ _ _ ih => exact ih
  | defineClass u node c body _ _ setup _ _ ih =>
    exact ((Session.Later.of_evolves setup).trans (.addClass ⟨u.number, node⟩ c)).trans ih
  | mark f _ => exact .markCalled f
  | apply f _ key result _ _ _ setup _ _ _ ih =>
    exact ((((Session.Later.markCalled f).trans (.of_evolves setup)).trans (.enterCall f)).trans ih).trans
      ((Session.Later.leaveCall f _ _).trans (.recordCall f key result))
  | applyBroken f _ _ _ _ setup _ ih =>
    exact ((((Session.Later.markCalled f).trans (.of_evolves setup)).trans (.enterCall f)).trans ih).trans
      (.leaveCall f _ _)
  | load m unit _ _ _ opens _ _ ih ih' =>
    exact (((Session.Later.enterFile _).trans ih).trans (.addUnit unit opens.fresh)).trans
      (ih'.trans ((Session.Later.addLoaded _).trans (.leaveFile _)))
  | loadBroken m unit _ _ _ opens _ ih ih' =>
    exact (((Session.Later.enterFile _).trans ih).trans (.addUnit unit opens.fresh)).trans (ih'.trans (.leaveFile _))
  | loadFailed path _ _ _ ih => exact (Session.Later.enterFile _).trans (ih.trans (.leaveFile _))

theorem isSound (hs : s.IsSound) : s'.IsSound := by
  induction hr with
  | refl => exact hs
  | change hc => exact hc.isSound hs
  | trans _ _ ih ih' => exact ih' (ih hs)
  | stop _ ih => exact ih hs
  | define code function _ _ _ _ setup made ih =>
    exact ((ih hs).of_evolves setup).define made.sound made.code made.called
  | defineBroken _ _ _ _ ih => exact ih hs
  | defineClass u node c body _ _ setup _ _ ih =>
    exact ih ((hs.of_evolves setup).addClass _ c)
  | mark f _ => exact hs.markCalled f
  | apply f _ key result _ _ _ setup body _ computed ih =>
    have hs' := (hs.markCalled f).of_evolves setup
    have hl := (Session.Later.enterCall f).trans body.later
    -- What the function had yielded before is put back, and is the type of a value still.
    refine Session.IsSound.recordCall (.leaveCall (ih (hs'.enterCall f)) f _ fun t ht => ?_) f ?_ ?_
    · exact hl.isValue ((hs'.heap.functions f).yields t ht)
    · exact (Session.Later.leaveCall f _ _).isValue computed.isKey
    · exact (Session.Later.leaveCall f _ _).isValue computed.isResult
  | applyBroken f _ _ _ _ setup body ih =>
    have hs' := (hs.markCalled f).of_evolves setup
    have hl := (Session.Later.enterCall f).trans body.later
    exact (ih (hs'.enterCall f)).leaveCall f _ fun t ht => hl.isValue ((hs'.heap.functions f).yields t ht)
  | load m unit _ _ _ opens _ _ ih ih' =>
    exact ((ih' ((ih (hs.enterFile unit.path)).addUnit unit opens.made)).addLoaded unit.path).leaveFile _
  | loadBroken m unit _ _ _ opens _ ih ih' =>
    exact (ih' ((ih (hs.enterFile unit.path)).addUnit unit opens.made)).leaveFile _
  | loadFailed path _ _ _ ih =>
    exact (ih (hs.enterFile path)).leaveFile _

theorem callStack : s'.callStack = s.callStack := by
  induction hr with
  | refl | mark | apply | applyBroken => rfl
  | change hc => exact hc.callStack
  | trans _ _ ih ih' => exact ih'.trans ih
  | stop _ ih | define _ _ _ _ _ _ _ _ ih | defineBroken _ _ _ _ ih
  | defineClass _ _ _ _ _ _ _ _ _ ih => exact ih
  | load _ _ _ _ _ _ _ _ ih ih' | loadBroken _ _ _ _ _ _ _ ih ih' => exact ih'.trans ih
  | loadFailed _ _ _ _ ih => exact ih

theorem files :
    s'.loading.stack = s.loading.stack ∧ s'.loading.directory = s.loading.directory := by
  induction hr with
  -- Loading a file puts both back, however it ends.
  | refl | mark | load | loadBroken | loadFailed => exact ⟨rfl, rfl⟩
  | change hc => exact ⟨hc.stack, hc.directory⟩
  | trans _ _ ih ih' => exact ⟨ih'.1.trans ih.1, ih'.2.trans ih.2⟩
  | stop _ ih | define _ _ _ _ _ _ _ _ ih | defineBroken _ _ _ _ ih
  | defineClass _ _ _ _ _ _ _ _ _ ih => exact ih
  | apply _ _ _ _ _ _ _ _ _ _ _ ih | applyBroken _ _ _ _ _ _ _ ih => exact ih

theorem stack : s'.loading.stack = s.loading.stack := hr.files.1

theorem directory : s'.loading.directory = s.loading.directory := hr.files.2

theorem course :
    s'.loading.searchPath = s.loading.searchPath ∧ s'.finished = s.finished := by
  induction hr with
  | refl | mark => exact ⟨rfl, rfl⟩
  | change hc => exact ⟨hc.searchPath, hc.finished⟩
  | trans _ _ ih ih' | load _ _ _ _ _ _ _ _ ih ih' | loadBroken _ _ _ _ _ _ _ ih ih' =>
    exact ⟨ih'.1.trans ih.1, ih'.2.trans ih.2⟩
  | stop _ ih | define _ _ _ _ _ _ _ _ ih | defineBroken _ _ _ _ ih
  | defineClass _ _ _ _ _ _ _ _ _ ih => exact ih
  | apply _ _ _ _ _ _ _ _ _ _ _ ih | applyBroken _ _ _ _ _ _ _ ih => exact ih
  | loadFailed _ _ _ _ ih => exact ih

theorem searchPath : s'.loading.searchPath = s.loading.searchPath := hr.course.1

theorem finished : s'.finished = s.finished := hr.course.2

end

end Run

end Concordance
