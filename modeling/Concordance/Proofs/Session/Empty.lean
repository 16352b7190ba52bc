import Concordance.Proofs.Heap.Distinct
import Concordance.Proofs.Heap.Shape
import Concordance.Proofs.Session.Move

/-!
# The empty session

Before anything is loaded, the names of the library are bound. Nothing is being evaluated then, there are no
functions with code and no references, and everything refers to what it should.
-/

namespace Concordance

/-- A heap before anything is loaded. -/
structure Heap.IsBare (h : Heap) : Prop where
  sound : h.IsSound
  codes : ∀ f, (h.function f).code = none
  yields : ∀ f, (h.function f).yields = none
  arrows : ∀ f, (h.function f).arrows = []
  references : h.references = #[]
  refs : ∀ b, (h.binding b).refs = []
  layered : h.Layered
  compared : h.Compared

namespace Heap.IsBare

variable {h h' : Heap}

theorem code_push (hb : h.IsBare) {function : Function} (native : function.code = none) (f : FunctionId) :
    (Heap.function { h with functions := h.functions.push function } f).code = none := by
  rw [Heap.function_push]
  split
  · exact native
  · exact hb.codes f

theorem code_modify (hb : h.IsBare) (f : FunctionId) (update : Function → Function)
    (same : ∀ g, (update g).code = g.code) (g : FunctionId) :
    (Heap.function { h with functions := h.functions.modify f.index update } g).code = none :=
  (Session.code_modify f g same).trans (hb.codes g)

theorem compared_of_codes (hb : h.IsBare) (types : h'.types = h.types) (codes : ∀ f, (h'.function f).code = none)
    (modules : h'.modules = h.modules) : h'.Compared := by
  have hf : h.Follows h' := .of_codes (.of_types_eq types) (fun f => (codes f).trans (hb.codes f).symm) modules
  exact hf.compared hb.sound hb.compared types

end Heap.IsBare

/-- Work on the heap before anything is loaded. -/
structure Prepares {α : Type} (h : Heap) (x : HeapM α) (Q : α → Heap → Prop) : Prop where
  run : h.IsBare → (x.run h).2.IsBare ∧ Q (x.run h).1 (x.run h).2

namespace Prepares

variable {α : Type} {h : Heap} {x : HeapM α}

theorem of_does (hx : Does h x Q) : Prepares h x Q := by
  refine ⟨fun hb => ?_⟩
  obtain ⟨he, hq⟩ := hx.run hb.sound
  exact ⟨⟨he.isSound hb.sound, fun f => (he.code f).trans (hb.codes f), fun f => (he.yields f).trans (hb.yields f),
    fun f => (he.sameCalls f).arrows.trans (hb.arrows f), he.references.trans hb.references, fun b => (he.refs b).trans (hb.refs b), he.layered hb.layered, (he.compared hb.sound hb.compared).2⟩, hq⟩

theorem of_bare (hx : h.IsBare → Prepares h x Q) : Prepares h x Q := ⟨fun hb => (hx hb).run hb⟩

theorem pure (hq : Q a h) : Prepares h (Pure.pure a) Q := ⟨fun hb => ⟨hb, hq⟩⟩

theorem bind (hx : Prepares h x Q) (hf : ∀ a h', Q a h' → Prepares h' (f a) R) : Prepares h (x >>= f) R := by
  refine ⟨fun hb => ?_⟩
  obtain ⟨hb', hq⟩ := hx.run hb
  exact (hf _ _ hq).run hb'

theorem discard (hx : Prepares h x Q) : Prepares h (discard x) fun _ _ => True := ⟨fun hb => ⟨(hx.run hb).1, trivial⟩⟩

theorem change (hg : h.IsBare → (g h).IsBare) : Prepares h (modify g) fun _ _ => True :=
  ⟨fun hb => ⟨hg hb, trivial⟩⟩

theorem get_bind (hf : Prepares h (f h) Q) : Prepares h (get >>= f) Q := ⟨hf.run⟩

theorem forM {xs : List β} (hf : ∀ x ∈ xs, ∀ h', Prepares h' (f x) fun _ _ => True) :
    Prepares h (xs.forM f) fun _ _ => True := by
  induction xs generalizing h with
  | nil => exact pure trivial
  | cons x xs ih =>
    rw [List.forM_eq_forM, List.forM_cons]
    exact (hf x (.head _) h).bind fun _ _ _ => ih fun y hy => hf y (.tail _ hy)

theorem foldlM {xs : List β} {a : α} (hf : ∀ x ∈ xs, ∀ a h', Prepares h' (f a x) fun _ _ => True) :
    Prepares h (xs.foldlM f a) fun _ _ => True := by
  induction xs generalizing h a with
  | nil => exact pure trivial
  | cons x xs ih =>
    rw [List.foldlM_cons]
    exact (hf x (.head _) a h).bind fun _ _ _ => ih fun y hy => hf y (.tail _ hy)

end Prepares

section Library

variable {h : Heap}

theorem Library.valueOf_plain (name : String) : ∀ r ∈ Library.valueOf? name, r.Plain := by
  unfold Library.valueOf?
  split <;> simp [Library.anyList, Recipe.Plain, Recipe.AllPlain, TypeId.bool, TypeId.bytes, TypeId.complex,
    TypeId.unknown, TypeId.float, TypeId.int, TypeId.str, TypeId.continues] <;> decide

theorem Library.resultOf_plain (name : String) : (Library.resultOf name).Plain := by
  unfold Library.resultOf
  split <;> simp [Library.anyList, Recipe.Plain, Recipe.AllPlain] <;> decide

theorem bindLibraryName_prepares (name : String) (kind : BindingKind) (ht : h.IsValue t) :
    Prepares h (bindLibraryName name t kind) fun _ _ => True := by
  refine (Prepares.of_does (insertName_does ht fun b => ?_)).discard
  exact ⟨rfl, rfl⟩

theorem newLibraryClass_prepares (known : Table String ClassId) (entry : String × List String) :
    Prepares h (newLibraryClass known entry) fun _ _ => True := by
  obtain ⟨name, bases⟩ := entry
  refine (Prepares.of_does (newClass_does name _)).bind fun c h1 _ => ?_
  have hfactory : Does h1 (modifyClass c fun cls => { cls with factory := Library.valueOf? name }) fun _ _ => True :=
    .change (.changeClass c _ (fun _ => ⟨rfl, rfl, rfl⟩) fun _ hx => ⟨hx.type, hx.canon, Library.valueOf_plain name⟩)
      trivial
  refine (Prepares.of_does hfactory).bind fun _ h2 _ => ?_
  refine (Prepares.forM fun base _ h3 => ?_).bind fun _ h3 _ => .of_bare fun hb => .get_bind ?_
  · split
    · exact .pure trivial
    · exact .get_bind (.of_does (addBase_does ..))
  · exact (bindLibraryName_prepares name _ (hb.sound.classes c).type).bind fun _ _ _ => .pure trivial

theorem newNative_prepares (name : String) (hr : result.Plain) (parent : Option ScopeId) :
    Prepares h (newNative name result parent) fun _ _ => True := by
  have hnew : Prepares h (newFunction name none parent none) fun _ _ => True := by
    refine .get_bind ?_
    have htype : Does h (newType (.function ⟨h.functions.size⟩ none)) fun t h' => h'.IsValue t :=
      newType_value _ (fun _ h => nomatch h) trivial (by simp)
    refine (Prepares.of_does htype).bind fun t h1 ht => ?_
    have hscope := fun scope empty => (newScope_does (h := h1) scope empty).mono fun _ _ he _ => he.isValue ht
    refine (Prepares.of_does (hscope _ rfl)).bind fun table h2 ht2 => ?_
    refine (Prepares.change fun hb => ?_).bind fun _ _ _ => .pure trivial
    refine ⟨hb.sound.congr rfl (fun _ => rfl) rfl rfl rfl rfl fun f => ?_, hb.code_push rfl, fun f => ?_, fun f => ?_,
      hb.references, hb.refs, hb.layered.congr rfl, hb.compared_of_codes rfl (hb.code_push rfl) rfl⟩
    · rw [Heap.function_push]
      split
      · exact ⟨ht2, hb.sound.isValue_unknown, by simp, by simp [Table.values], by simp, by simp⟩
      · exact hb.sound.functions f
    · rw [Heap.function_push]
      split
      · rfl
      · exact hb.yields f
    · rw [Heap.function_push]
      split
      · rfl
      · exact hb.arrows f
  -- Its result is filled in once the function is there.
  refine hnew.bind fun f h1 _ => (Prepares.of_does (build_value result hr)).bind fun t h2 ht => ?_
  refine (Prepares.change fun hb => ?_).bind fun _ _ _ => .pure trivial
  have hcodes := hb.code_modify f (fun g => { g with native := some result, returns := t }) fun _ => rfl
  refine ⟨hb.sound.modifyFunction f fun g hg => ?_, hcodes, fun g => ?_, fun g => ?_, hb.references, hb.refs,
    hb.layered.congr rfl, hb.compared_of_codes rfl hcodes rfl⟩
  · exact { hg with returns := ht, native := by simpa using hr }
  · rw [Heap.function_modify]
    split <;> exact hb.yields g
  · rw [Heap.function_modify]
    split <;> exact hb.arrows g

theorem bindLibrary_prepares : Prepares h bindLibrary fun _ _ => True := by
  refine (Prepares.of_does (newScope_does _ rfl)).discard.bind fun _ h1 _ => ?_
  refine (Prepares.of_does (newScope_does _ rfl)).discard.bind fun _ h2 _ => ?_
  refine (Prepares.foldlM fun entry _ known h3 => newLibraryClass_prepares known entry).bind fun classes h3 _ => ?_
  refine (Prepares.forM fun name _ h4 => .of_bare fun hb => ?_).bind fun _ h4 _ => ?_
  · exact bindLibraryName_prepares name _ hb.sound.isValue_unknown
  refine (Prepares.forM fun name _ h5 => ?_).bind fun _ h5 _ => ?_
  · refine (newNative_prepares name (Library.resultOf_plain name) _).bind fun f h6 _ => .of_bare fun hb => .get_bind ?_
    exact bindLibraryName_prepares name _ (hb.sound.functions f).type
  refine (Prepares.forM fun name _ h6 => .of_bare fun hb => ?_).bind fun _ _ _ => .pure trivial
  exact bindLibraryName_prepares name _ (hb.sound.isValue_singleton (by decide) (by decide))

theorem initial_isBare : Heap.initial.IsBare :=
  ⟨Heap.initial_isSound, fun _ => rfl, fun _ => rfl, fun _ => rfl, rfl, fun _ => rfl, Heap.initial_layered,
    Heap.initial_compared⟩

theorem Heap.IsBare.mirrored (hb : h.IsBare) : Mirrored h.references h.bindings #[] where
  aligned := congrArg Array.size hb.references.symm
  places i _ p _ hp := by
    rw [hb.references] at hp
    cases hp
  both r b := by
    have hrefs : (h.bindings.getD b.index default).refs = [] := hb.refs b
    rw [hrefs]
    exact ⟨fun hm => (nomatch hm), fun hm => (nomatch hm)⟩
  linksOnce _ := List.nodup_nil
  refsOnce i := by
    have hrefs : (h.bindings.getD i default).refs = [] := hb.refs ⟨i⟩
    rw [hrefs]
    exact List.nodup_nil

theorem Session.ofLibrary_idle {library : Table String ClassId × Heap} (hb : library.2.IsBare) :
    (Session.ofLibrary library).Idle where
  sound := ⟨hb.sound, fun _ _ h => (nomatch h), hb.mirrored, fun _ _ h => (nomatch h),
    fun _ h => (nomatch h), fun _ h => (nomatch h)⟩
  grounded := by
    have hknows : ∀ unit, ¬ (Session.ofLibrary library).Knows unit := by
      rintro unit (hunit | ⟨p, hp⟩)
      · cases hunit
      · cases hp
    have hcodes : ∀ f c, (library.2.function f).code ≠ some c := fun f c => by simp [hb.codes f]
    refine ⟨fun unit hu => absurd hu (hknows unit), fun a _ ha => absurd ha (hknows a), fun units hu _ => ?_,
      fun f c hc => absurd hc (hcodes f c), fun f c hc => absurd hc (hcodes f c)⟩
    cases units with
    | nil => exact Nat.zero_le _
    | cons unit rest => exact absurd (hu unit (.head _)) (hknows unit)
  calls := rfl
  files := rfl

theorem Session.empty_idle : Session.empty.Idle := ofLibrary_idle (bindLibrary_prepares.run initial_isBare).1

end Library

end Concordance
