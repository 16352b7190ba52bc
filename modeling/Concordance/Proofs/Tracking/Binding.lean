import Concordance.Proofs.Session.Naming
import Concordance.Proofs.Session.Order

/-!
# Binding names keeps a session in order

A name is bound in the scope that its declaration selects, which is within the module of the code, or as an attribute,
or by an import through a module. So a new binding may always be where it is put.
-/

namespace Concordance

open Session (globals moduleTable)
open Syntax (ExprText Ident Piece Span)

variable {u : SourceUnit}

variable {s : Session}

namespace Heap

variable {h : Heap}

section Targets

/-- A scope that a walk outwards comes to from the scopes of a module. -/
def Around (h : Heap) (m : ModuleId) (x : ScopeId) : Prop := h.Within x m ∨ x = globals

variable (hh : h.Housed)
include hh

theorem Around.parent (hx : h.Around m x) (hp : (h.scope x).parent = some y) : h.Around m y := by
  rcases hx with hw | rfl
  · cases hw with
    | table hm =>
      rw [(hh.rooms m hm).2.2, Option.some.injEq] at hp
      exact .inr hp.symm
    | inner hp' outer =>
      rw [hp', Option.some.injEq] at hp
      exact .inl (hp ▸ outer)
  · rw [hh.outermost.2] at hp
    cases hp

theorem Around.moduleScopeFrom (fuel : Nat) (hx : h.Around m x) : h.Around m (h.moduleScopeFrom fuel x) := by
  induction fuel generalizing x with
  | zero => exact hx
  | succ fuel ih =>
    unfold Heap.moduleScopeFrom
    split
    · exact hx
    · split
      · exact hx
      · rename_i p hp
        exact ih (hx.parent hh hp)

theorem Around.skipClasses (fuel : Nat) (ho : ∀ p, o = some p → h.Around m p)
    (hy : h.skipClasses fuel o = some y) : h.Around m y := by
  induction fuel generalizing o with
  | zero => exact ho y hy
  | succ fuel ih =>
    cases o with
    | none => cases hy
    | some p =>
      unfold Heap.skipClasses at hy
      split at hy
      · exact ih (fun q hq => (ho p rfl).parent hh hq) hy
      · exact ho y hy

theorem Around.outward (hx : h.Around m x) (hy : h.outward x = some y) : h.Around m y := by
  unfold Heap.outward at hy
  dsimp only at hy
  split at hy
  · exact Around.skipClasses hh _ (fun p hp => hx.parent hh hp) hy
  · exact hx.parent hh hy

theorem Around.lookupScope (hx : h.Around m x) (hy : h.lookupScope x name = some y) : h.Around m y := by
  obtain ⟨z, hz, hfound⟩ := found_of_walkFrom (fun _ hx => hx.moduleScopeFrom hh _) (fun _ _ hx hp => hx.outward hh hp) _
    hx hy
  split at hfound
  · exact Option.some.inj hfound ▸ hz
  · cases hfound

theorem Within.moduleScopeFrom_eq (hw : h.Within x m) (hx : x.index < fuel) :
    h.moduleScopeFrom fuel x = (h.module m).table := by
  induction fuel generalizing x with
  | zero => exact absurd hx (Nat.not_lt_zero _)
  | succ fuel ih =>
    unfold Heap.moduleScopeFrom
    cases hw with
    | table hm => rw [if_pos (hh.rooms m hm).2.1]
    | @inner _ p _ hp outer =>
      -- A scope of the kind of modules would be directly below the outermost one.
      have hkind : (h.scope x).kind ≠ .module := by
        intro hkind
        rw [hh.topmost x hkind, Option.some.injEq] at hp
        exact hh.not_within_globals (hp ▸ outer)
      have hlt := hh.enclosers x p hp
      rw [if_neg hkind, hp]
      exact ih outer (by omega)

theorem Within.moduleScope_eq (hw : h.Within x m) : h.moduleScope x = (h.module m).table :=
  hw.moduleScopeFrom_eq hh (hw.lt hh)

theorem Within.nonlocalScope (hw : h.Within x m) (name : String) : h.Within (h.nonlocalScope x name) m := by
  have haround : h.Around m x := .inl hw
  unfold Heap.nonlocalScope
  split
  · exact hw
  · rename_i outer houter
    split
    · exact hw
    · rename_i found hfound
      split
      · rename_i hkind
        have hnear := Around.lookupScope hh (Around.skipClasses hh _ (fun p hp => haround.parent hh hp) houter) hfound
        refine hnear.resolve_right fun heq => ?_
        -- The outermost scope is no function's.
        rw [heq, hh.outermost.1] at hkind
        cases hkind
      · exact hw

theorem Within.targetScope (hw : h.Within x m) (name : String) : h.Within (h.targetScope x name) m := by
  unfold Heap.targetScope
  split
  · rw [hw.moduleScope_eq hh]
    exact .table hw.module_lt
  · split
    · exact hw.nonlocalScope hh name
    · exact hw

omit hh in
theorem nonlocalScope_cases (h : Heap) (x : ScopeId) (name : String) :
    h.nonlocalScope x name = x ∨ (h.scope (h.nonlocalScope x name)).local? name ≠ none := by
  unfold Heap.nonlocalScope
  split
  · exact .inl rfl
  · split
    · exact .inl rfl
    · rename_i found hfound
      split
      · obtain ⟨z, _, hz⟩ := found_of_walkFrom (P := fun _ => True) (fun _ _ => trivial) (fun _ _ _ _ => trivial) _
          trivial hfound
        split at hz
        · rename_i hcontains
          rw [← Option.some.inj hz]
          exact .inr (Table.get?_ne_none_of_contains hcontains)
        · cases hz
      · exact .inl rfl

theorem Housed.kind_table_ne (m : ModuleId) : (h.scope (h.module m).table).kind ≠ .function := by
  by_cases hm : m.index < h.modules.size
  · rw [(hh.rooms m hm).2.1]
    simp
  · have hnone : h.module m = default := by
      rw [Heap.module, Array.getD_eq_getD_getElem?, Array.getElem?_eq_none (Nat.le_of_not_lt hm)]
      rfl
    have hglobals : (default : ModuleInfo).table = globals := rfl
    rw [hnone, hglobals, hh.outermost.1]
    simp

theorem Within.targetScope_spares (hw : h.Within x m) (name : String)
    (hkind : (h.scope (h.targetScope x name)).kind = .function)
    (hdeclared : name ∈ (h.scope (h.targetScope x name)).globals) :
    (h.scope (h.targetScope x name)).local? name ≠ none := by
  unfold Heap.targetScope at hkind hdeclared ⊢
  split at hkind
  · rw [hw.moduleScope_eq hh] at hkind
    exact absurd hkind (hh.kind_table_ne m)
  · rename_i hnot
    rw [if_neg hnot] at hdeclared ⊢
    split
    · rename_i hnonlocal
      rw [if_pos hnonlocal] at hdeclared
      refine (h.nonlocalScope_cases x name).resolve_left fun heq => hnot ?_
      rwa [heq] at hdeclared
    · rename_i hlocal
      rw [if_neg hlocal] at hdeclared
      exact absurd hdeclared hnot

end Targets

end Heap

theorem Site.introduce_source (site : Site) (b : Binding) : (site.introduce b).kind = b.kind ∧
    (site.introduce b).origin = some site.node ∧
      ((site.introduce b).file = b.file ∨ ∃ l, site.location = some l ∧ (site.introduce b).file = some l.file ∧
        (site.isModule = false → (site.introduce b).start = l.start ∧ (site.introduce b).stop = l.stop)) := by
  unfold Site.introduce
  dsimp only
  split
  · exact ⟨rfl, rfl, .inl rfl⟩
  · rename_i l hl
    split
    · rename_i hmodule
      exact ⟨rfl, rfl, .inr ⟨l, hl, rfl, fun hnot => by rw [hnot] at hmodule; cases hmodule⟩⟩
    · split <;> exact ⟨rfl, rfl, .inr ⟨l, hl, rfl, fun _ => ⟨rfl, rfl⟩⟩⟩

theorem SourceUnit.eq_of_locate (hl : u.ref.locate span = some l) :
    ∃ sp, span = some sp ∧ l = ⟨u.path, sp.start, sp.stop⟩ := by
  cases span with
  | none => cases hl
  | some sp => exact ⟨sp, rfl, (Option.some.inj hl).symm⟩

/-- What is put into a binding that is made at a site, if it is made at one. -/
def Site.description : Option Site → Binding → Binding
  | some site => site.introduce
  | none => id

namespace Session

section Texts

theorem Stands.contains (he : s.Stands place (.expr e)) (hl : place.locate e.span = some l) :
    s.Contains l.file fun body => ExprText body l.start l.stop := by
  obtain ⟨m, unit, region, hunit, hplace, _, hmem⟩ := he
  rw [Place.locate, hplace] at hl
  obtain ⟨span, hspan, rfl⟩ := SourceUnit.eq_of_locate hl
  exact ⟨m, unit, hunit, rfl, region, e, span, hmem, hspan, rfl, rfl⟩

theorem Stands.traced (hi : s.Stands place (.expr (.name i))) (extent : Option Span)
    (hfile : b.file = none) : s.Traced ((place.site i extent).introduce b) := by
  refine .inr (.inr fun path hpath => ?_)
  obtain ⟨_, _, hnone | ⟨l, hl, hl', htext⟩⟩ := (place.site i extent).introduce_source b
  · rw [hnone, hfile] at hpath
    cases hpath
  · rw [hl', Option.some.injEq] at hpath
    rw [(htext rfl).1, (htext rfl).2, ← hpath]
    exact hi.contains hl

end Texts

def Segment (s : Session) (site : Site) : Prop :=
  ∃ place stmt i, s.Stands place (.stmt stmt) ∧ i ∈ stmt.segments ∧ site = place.site i

theorem Segment.later (hs : s.Segment site) (hb : s.Before s') : s'.Segment site := by
  obtain ⟨place, stmt, i, hp, hi, heq⟩ := hs
  exact ⟨place, stmt, i, hp.later hb, hi, heq⟩

theorem Segment.spells (hs : s.Segment site) : s.Spells site.node := by
  obtain ⟨place, stmt, i, hp, hi, rfl⟩ := hs
  exact ⟨place, stmt, i, hp, hi, rfl⟩

theorem Segment.traced (hs : s.Segment site) (hfile : b.file = none) : s.Traced (site.introduce b) := by
  obtain ⟨place, stmt, i, hp, hi, rfl⟩ := hs
  exact (hp.part (Syntax.Stmt.segments_mem_parts hi)).traced none hfile

/-- A name may be bound in a scope: the binding that is made for it may be there and is at text of its file, and if the
scope is a function's and declares the name to belong to the module, it has an entry for it or takes one. -/
structure Allows (s : Session) (x : ScopeId) (name : String) (describe : Binding → Binding) (kind : BindingKind) : Prop where
  warranted : ∀ m, s.heap.Within x m → ∀ b : Binding, b.kind = kind → b.file = none → s.Warranted x m name (describe b)
  traced : ∀ b : Binding, b.kind = kind → b.file = none → s.Traced (describe b)
  spared : s.Declares x name → (s.heap.scope x).local? name = none → s.Takes x name

section Allows

theorem allows_attribute (site : Option Site) (hx : (s.heap.scope x).kind ≠ .function) :
    s.Allows x name (Site.description site) .attrName := by
  have hkeeps : ∀ b, (Site.description site b).kind = b.kind := by
    cases site with
    | none => exact fun _ => rfl
    | some site => exact fun b => (site.introduce_source b).1
  exact ⟨fun _ _ b hkind _ => .assigned ((hkeeps b).trans hkind), fun b hkind _ => .inl ((hkeeps b).trans hkind),
    fun hd _ => absurd hd.1 hx⟩

theorem allows_segment (hs : s.Segment site)
    (hspared : s.Declares x name → (s.heap.scope x).local? name = none → s.Takes x name) :
    s.Allows x name site.introduce kind where
  warranted _ _ b _ _ := .segment (site.introduce_source b).2.1 hs.spells
  traced _ _ hfile := hs.traced hfile
  spared := hspared

theorem Ordered.allows_site (ho : s.Ordered) (hi : s.Stands place (.expr (.name i)))
    (hu : s.loading.units.get? m = some u) (hplace : place.unit = u.ref) (hw : s.heap.Within x m)
    (hspared : s.Declares x name → (s.heap.scope x).local? name = none → s.Takes x name) (extent : Option Span) :
    s.Allows x name (place.site i extent).introduce kind where
  warranted m' hw' b _ hfile := by
    refine .own fun path hpath => ?_
    -- The scope is within one module only, and that was made from this unit.
    rw [hw'.unique ho.apart.housed hw, (ho.shelved.opened m u hu).2.2]
    obtain ⟨_, _, hnone | ⟨l, hl, hl', _⟩⟩ := (place.site i extent).introduce_source b
    · rw [hnone, hfile] at hpath
      cases hpath
    · rw [hl', Option.some.injEq] at hpath
      rw [Place.site, hplace] at hl
      obtain ⟨span, _, rfl⟩ := SourceUnit.eq_of_locate hl
      rw [← hpath]
  traced _ _ hfile := hi.traced extent hfile
  spared := hspared

end Allows

end Session

section Insertion

theorem Session.Ordered.insert (ho : s.Ordered) (hx : x ≠ moduleTable)
    (hallows : s.Allows x name describe kind) (type : TypeId) :
    s.Onward (s.withHeap ((insertName x name type kind describe).run s.heap).2) ∧
      (s.withHeap ((insertName x name type kind describe).run s.heap).2).Ordered := by
  have htame : Tame (· = x) s.heap (insertName x name type kind describe) := insertName_tame (W := (· = x)) rfl hx ..
  obtain ⟨hsteady, hapart⟩ := htame.run s.heap (.refl _) ho.apart
  have hal := Session.Alike.withHeap s ((insertName x name type kind describe).run s.heap).2
  have hb := ho.before_steady hal hsteady
  have hmade : ∀ b, ¬ s.heap.HasBinding b →
      (s.withHeap ((insertName x name type kind describe).run s.heap).2).heap.HasBinding b →
      (s.withHeap ((insertName x name type kind describe).run s.heap).2).Traced
        ((s.withHeap ((insertName x name type kind describe).run s.heap).2).heap.binding b) := by
    intro b hold hnew
    rw [Session.withHeap, insertName_made hold hnew]
    exact (hallows.traced _ rfl rfl).later hb (.refl _)
  rcases (s.heap.scope x).bound_cases name with hnone | ⟨b, bs, hbound⟩
  · -- The new binding is the only one that has to be accounted for.
    rw [run_insertName_new hnone] at hsteady hapart hal hb hmade ⊢
    refine ⟨ho.onwardIn hal hsteady (fun y _ n cs hcs => .inl ?_) (fun y hy n he => ?_) fun y hy n hd hfree => ?_,
      ho.steadyIn hal hsteady hapart ?_ hmade⟩
    · -- The name that is bound anew was not bound before.
      refine (Heap.bound_withName_of_ne fun hy hn => ?_).trans hcs
      rw [hy, hn, hnone] at hcs
      cases hcs
    · subst hy
      by_cases hn : n = name
      · subst hn
        exact Scope.local_ne_none_of_bound (Heap.bound_withName_self (Heap.lt_of_local he))
      · rw [Session.withHeap, Heap.local_withName_of_ne fun _ => hn]
        exact he
    · by_cases hn : n = name
      · subst hy hn
        exact .inr ((hallows.spared hd hfree).later hb)
      · exact .inl ((Heap.local_withName_of_ne fun _ => hn).trans hfree)
    · intro y m hy hw n cs hcs c hc
      rcases Heap.bound_withName hcs with ⟨rfl, rfl, rfl⟩ | hold
      · rw [List.mem_singleton.1 hc, Session.withHeap, Heap.binding_withName]
        have hold := hw.back ho.apart.housed hsteady.toBindsIn
          (Nat.lt_of_lt_of_eq (hw.lt hapart.housed) (Array.size_modify ..))
        refine (hallows.warranted m hold _ rfl rfl).later hb (.refl _) ?_
        rw [(hsteady.modules m hold.module_lt).2]
      · exact ho.warranted_later hb hsteady.toBindsIn hw hold hc
  · -- Where the name is bound already, scopes stay as they are.
    have hscope : ∀ y, (s.withHeap ((insertName x name type kind describe).run s.heap).2).heap.scope y =
        s.heap.scope y := by
      intro y
      rw [run_insertName_bound hbound, Session.withHeap]
      obtain ⟨types, heap, _⟩ := exists_types_union s.heap (s.heap.binding b).type type
      rw [heap]
      rfl
    refine ⟨ho.onwardIn hal hsteady (fun y _ n cs hcs => .inl ?_) (fun y _ n he => ?_) fun y _ n _ hfree => .inl ?_,
      ho.steadyIn hal hsteady hapart ?_ hmade⟩
    · rw [hscope]
      exact hcs
    · rw [hscope]
      exact he
    · rw [hscope]
      exact hfree
    · intro y m hy hw n cs hcs c hc
      rw [hscope] at hcs
      exact ho.warranted_later hb hsteady.toBindsIn hw hcs hc

end Insertion

section Records

theorem log_tracks (level : Level) (text : String) : Tracks env final s (log level text) (log level text) := by
  refine .read_bind ?_
  split
  · split
    · exact .change fun _ => ⟨⟨rfl, rfl, rfl, rfl, rfl, rfl, rfl, .of_eq rfl⟩, rfl⟩
    · exact .throw
  · exact .pure

theorem trace_tracks (text : String) : Tracks env final s (trace text) (trace text) := log_tracks ..

theorem countLookup_tracks (found : Bool) : Tracks env final s (countLookup found) (countLookup found) :=
  .change fun _ => ⟨⟨rfl, rfl, rfl, rfl, rfl, rfl, rfl, .of_eq rfl⟩, rfl⟩

theorem referenceAt_tracks (r : Reference) : Tracks env final s (referenceAt r) (referenceAt r) := by
  refine .theHeap_bind fun h _ => ?_
  split
  · exact .pure
  · exact .bind (.change fun _ => ⟨⟨rfl, rfl, rfl, rfl, rfl, rfl, rfl, .of_eq rfl⟩, rfl⟩) fun _ => .lift fun _ => newReference_tame r

theorem recordUse_tracks (site : Site) (bindings : List BindingId) (kind : RefKind) :
    Tracks env final s (recordUse site bindings kind) (recordUse site bindings kind) := by
  unfold recordUse
  split
  · exact .pure
  · refine (referenceAt_tracks _).bind fun r => .forM bindings fun b _ => ?_
    exact .bind (.change fun _ => ⟨⟨rfl, rfl, rfl, rfl, rfl, rfl, rfl, .of_eq rfl⟩, rfl⟩) fun _ => .lift fun _ => addReference_tame b r

theorem Session.Ordered.addProblem (ho : s.Ordered) (hd : s.Sited d)
    (hnew : s.problems.reported.any d.sameProblem = false) :
    s.Onward { s with problems := s.problems.add d } ∧ Session.Ordered { s with problems := s.problems.add d } := by
  have hb : s.Before { s with problems := s.problems.add d } := .of_same rfl rfl rfl
  refine ⟨⟨hb, .of_heap_eq rfl, rfl, rfl, fun _ _ h => h, fun _ _ h => .inl h, .of_eq rfl⟩, ho.unknown, ho.apart, { ho.filed with },
    { ho.shelved with }, ⟨ho.rooted.codes, ho.rooted.functions, ho.rooted.classes, ho.rooted.comprehensions⟩,
    ho.owned_same hb rfl, ho.stocked, fun e he => ?_, fun b hx => (ho.marked.bindings b hx).later hb (.refl _),
    List.pairwise_append.2 ⟨ho.marked.distinct, List.pairwise_singleton .., fun e he e' he' => ?_⟩⟩
  · rcases List.mem_append.1 he with he | he
    · exact (ho.marked.problems e he).later hb
    · rw [List.mem_singleton.1 he]
      exact hd.later hb
  · rw [List.mem_singleton.1 he']
    exact Bool.eq_false_iff.2 (List.any_eq_false.1 hnew e he)

theorem reportAt_tracks (hd : s.Sited ⟨file, start, stop, kind, message, severity⟩) :
    Tracks env final s (reportAt file start stop kind message severity)
      (reportAt file start stop kind message severity) := by
  refine .of_endures fun s1 hs1 ho => ?_
  have hrun : ((reportAt file start stop kind message severity).runOn env s1).2 =
      if s1.problems.reported.any (Diagnostic.mk file start stop kind message severity).sameProblem then s1
      else { s1 with problems := s1.problems.add ⟨file, start, stop, kind, message, severity⟩ } := rfl
  suffices h : s1.Onward ((reportAt file start stop kind message severity).runOn env s1).2 ∧
      ((reportAt file start stop kind message severity).runOn env s1).2.Ordered from ⟨h.1, h.2⟩
  rw [hrun]
  split
  · exact ⟨.refl s1, ho⟩
  · rename_i hnew
    exact ho.addProblem (hd.later hs1.toBefore) (by simpa using hnew)

theorem report_tracks
    (hl : ∀ l ∈ location, s.Contains l.file fun body => ExprText body l.start l.stop) (kind : ProblemKind)
    (message : String) : Tracks env final s (report location kind message) (report location kind message) := by
  cases location with
  | none => exact trace_tracks _
  | some l =>
    obtain ⟨m, unit, hunit, hpath, htext⟩ := hl l rfl
    exact reportAt_tracks ⟨m, unit, hunit, hpath, .inl htext⟩

end Records

section Names

theorem Session.Ordered.bindIn_endures (ho : s.Ordered) (hx : x ≠ moduleTable) {site : Option Site}
    (hallows : s.Allows x name (Site.description site) kind) (type : TypeId) :
    s.Endures env (bindIn x name site type kind) := by
  obtain ⟨hon, ho'⟩ := ho.insert hx hallows type
  have hinsert : s.Endures env (onHeap (insertName x name type kind (Site.description site))) := ⟨hon, ho'⟩
  cases site with
  | none =>
    refine hinsert.bind fun r ho1 => Tracks.endures ?_ ho1
    obtain ⟨b, existed⟩ := r
    cases existed <;> exact .pure
  | some site =>
    refine hinsert.bind fun r ho1 => Tracks.endures ?_ ho1
    obtain ⟨b, existed⟩ := r
    cases existed with
    | false => exact .pure
    | true =>
      refine .theHeap_bind fun h _ => ?_
      split
      · exact (recordUse_tracks ..).bind fun _ => .pure
      · exact .pure

theorem setAttr_tracks (t : TypeId) (name : String) (site : Option Site) (value : TypeId) :
    Tracks env final s (setAttr t name site value) (setAttr t name site value) := by
  refine .of_endures fun s1 _ ho => .theHeap_bind ?_
  split
  · exact Tracks.endures .pure ho
  · rename_i x hx
    have htakes := (Option.filter_eq_some_iff.1 hx).2
    -- Neither the table of modules nor the scope of a function takes attributes.
    have hkind : (s1.heap.scope x).kind ≠ .function := by
      intro hkind
      rw [hkind] at htakes
      cases htakes
    have htable : x ≠ moduleTable := by
      rintro rfl
      rw [ho.apart.kind] at htakes
      cases htakes
    exact ((ho.bindIn_endures htable (Session.allows_attribute site hkind) value).discard).bind fun _ ho' =>
      Tracks.endures .pure ho'

theorem Session.Ordered.bindWithin_endures (ho : s.Ordered) (hi : s.Stands place (.expr (.name i))) (hu : s.loading.units.get? m = some u) (hplace : place.unit = u.ref)
    (hw : s.heap.Within x m)
    (hspared : s.Declares x i.text → (s.heap.scope x).local? i.text = none → s.Takes x i.text) (extent : Option Span)
    (type : TypeId) (kind : BindingKind) : s.Endures env (bindIn x i.text (some (place.site i extent)) type kind) :=
  ho.bindIn_endures (fun heq => ho.apart.not_within (heq ▸ hw)) (ho.allows_site hi hu hplace hw hspared extent) type

theorem bindName_tracks (hi : s.Stands place (.expr (.name i))) (value : TypeId) (kind : BindingKind)
    (extent : Option Span) :
    Tracks env final s (bindName place i value kind extent) (bindName place i value kind extent) := by
  refine .of_endures fun s1 hs1 ho => ?_
  have hi1 := hi.later hs1.toBefore
  obtain ⟨m, u, hu, hplace, hw⟩ := ho.stands_within hi1
  have hh := ho.apart.housed
  refine .theHeap_bind (ho.bindWithin_endures hi1 hu hplace (hw.targetScope hh i.text) (fun hd hnone => ?_) ..).discard
  exact absurd hnone (hw.targetScope_spares hh i.text hd.1 hd.2)

end Names

end Concordance
