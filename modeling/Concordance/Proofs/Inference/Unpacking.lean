import Concordance.Proofs.Inference.Target
import Concordance.Proofs.Session.Naming

/-!
# What a pattern takes apart

What the slots of a pattern get, said without the program.
-/

namespace Concordance

open Syntax (Expr Element Ident Span)

/-- The items of a value whose number is known: those of a tuple, or of a list display that is taken apart where it
stands. -/
inductive Heap.HasShape (h : Heap) (display : Bool) (value : TypeId) : List TypeId → Prop
  | tuple {items : List TypeId} (hv : h.ty value = .tuple items) : HasShape h display value items
  | display {e : TypeId} {items : List TypeId} (hd : display = true) (hv : h.ty value = .list e (some items)) :
      HasShape h display value items

theorem Heap.fixedShape?_eq_some_iff {h : Heap} :
    h.fixedShape? value display = some items ↔ h.HasShape display value items := by
  unfold fixedShape?
  constructor
  · intro hshape
    split at hshape
    · rename_i hv
      cases hshape
      exact .tuple hv
    · rename_i hv
      split at hshape
      · subst hshape
        exact .display ‹_› hv
      · cases hshape
    · cases hshape
  · rintro (hv | ⟨hd, hv⟩)
    · rw [hv]
    · simp [hv, hd]

section Rows

variable {slots : Slots}

def Slots.least (slots : Slots) : Nat := if slots.star.isSome then slots.count - 1 else slots.count

/-- The slots are filled from a row: those before the starred one by the values at the same distance from the front, those
after it by the values at the same distance from the back, the starred one by `rest`. -/
structure Slots.Places (slots : Slots) (star : Nat) (values : List TypeId) (rest : TypeId) (ts : List TypeId) : Prop where
  length_eq : ts.length = slots.count
  before : ∀ i < star, ts[i]? = values[i]?
  starred : ts[star]? = some rest
  after : ∀ d, 0 < d → d < slots.count - star → ts[slots.count - d]? = values[values.length - d]?

/-- What a row of values gives the slots of a pattern, and the heap then. -/
inductive Slots.Fits (slots : Slots) (values : List TypeId) (h : Heap) : Except Mismatch (List TypeId) → Heap → Prop
  | plain (hstar : slots.star = none) (hlen : values.length = slots.count) : Fits slots values h (.ok values) h
  | starred {j : Nat} {u rest : TypeId} {ts : List TypeId} {h1 h2 : Heap} (hstar : slots.star = some j)
      (hlen : slots.count ≤ values.length + 1)
      (hunion : (unionAll ((values.drop j).take (values.length + 1 - slots.count))).run h = (u, h1))
      (hlist : (newList u).run h1 = (rest, h2)) (hplaces : slots.Places j values rest ts) : Fits slots values h (.ok ts) h2
  | short (hlen : values.length < slots.least) : Fits slots values h
      (.error ⟨.notEnoughValues, "ValueError: need more than " ++ toString values.length ++ " values to unpack"⟩) h
  | long (hstar : slots.star = none) (hlen : slots.count < values.length) :
      Fits slots values h (.error ⟨.tooManyValues, "ValueError: too many values to unpack"⟩) h

theorem Slots.Places.unique (hj : j < slots.count) (ht : slots.Places j values rest ts)
    (hu : slots.Places j values rest us) : ts = us := by
  refine List.ext_getElem? fun i => ?_
  rcases Nat.lt_trichotomy i j with hi | rfl | hi
  · rw [ht.before i hi, hu.before i hi]
  · rw [ht.starred, hu.starred]
  · by_cases hk : i < slots.count
    · have hd : slots.count - (slots.count - i) = i := by omega
      rw [← hd, ht.after _ (by omega) (by omega), hu.after _ (by omega) (by omega)]
    · rw [List.getElem?_eq_none (by rw [ht.length_eq]; omega), List.getElem?_eq_none (by rw [hu.length_eq]; omega)]

theorem Slots.places_cut (hj : j < slots.count) (hlen : slots.count ≤ values.length + 1) (rest : TypeId) :
    slots.Places j values rest (values.take j ++ [rest] ++ values.drop (j + (values.length - (slots.count - 1)))) := by
  have htake : (values.take j).length = j := by rw [List.length_take]; omega
  refine ⟨?_, fun i hi => ?_, ?_, fun d hd hlt => ?_⟩
  · simp only [List.length_append, List.length_singleton, List.length_drop, htake]
    omega
  · rw [List.append_assoc, List.getElem?_append_left (by omega), List.getElem?_take_of_lt hi]
  · rw [List.append_assoc, List.getElem?_append_right (by omega), htake, Nat.sub_self]
    rfl
  · rw [List.getElem?_append_right (by simp only [List.length_append, List.length_singleton, htake]; omega),
      List.getElem?_drop]
    congr 1
    simp only [List.length_append, List.length_singleton, htake]
    omega

theorem Slots.Fits.run_fit (hslots : slots.IsSound) (hf : slots.Fits values h r h') :
    (slots.fit values).run h = (r, h') := by
  obtain ⟨count, star⟩ := slots
  cases hf with
  | plain hstar hlen =>
    cases hstar
    dsimp only at hlen
    simp [Slots.fit, hlen]
    rfl
  | @starred j u rest ts h1 h2 hstar hlen hunion hlist hplaces =>
    cases hstar
    have hj : j < count := hslots j rfl
    dsimp only at hlen
    have hsurplus : values.length - (count - 1) = values.length + 1 - count := by omega
    rw [hplaces.unique hj (Slots.places_cut hj hlen rest)]
    have hnot : ¬ values.length < count - 1 := by omega
    have hfit : Slots.fit ⟨count, some j⟩ values = (do
        let u ← unionAll ((values.drop j).take (values.length - (count - 1)))
        let rest ← newList u
        return .ok (values.take j ++ [rest] ++ values.drop (j + (values.length - (count - 1))))) := by
      simp only [Slots.fit, hnot, if_false]
    rw [hfit, StateT.run_bind, hsurplus, hunion]
    show (newList u >>= fun rest => _).run h1 = _
    rw [StateT.run_bind, hlist]
    rfl
  | short hlen =>
    cases star <;> simp [Slots.fit, Slots.least] at hlen ⊢ <;> simp [hlen] <;> rfl
  | long hstar hlen =>
    cases hstar
    dsimp only at hlen
    have hnot : ¬ values.length < count := by omega
    simp [Slots.fit, hnot, hlen]
    rfl

theorem Slots.fits_total (hslots : slots.IsSound) (values : List TypeId) (h : Heap) : ∃ r h', slots.Fits values h r h' := by
  by_cases hshort : values.length < slots.least
  · exact ⟨_, _, .short hshort⟩
  cases hstar : slots.star with
  | none =>
    rcases Nat.lt_trichotomy values.length slots.count with hlt | heq | hgt
    · rw [Slots.least, hstar] at hshort
      exact absurd hlt hshort
    · exact ⟨_, _, .plain hstar heq⟩
    · exact ⟨_, _, .long hstar hgt⟩
  | some j =>
    have hlen : slots.count ≤ values.length + 1 := by
      rw [Slots.least, hstar] at hshort
      simp only [Option.isSome_some, if_true] at hshort
      omega
    exact ⟨_, _, .starred hstar hlen rfl rfl (Slots.places_cut (hslots j hstar) hlen _)⟩

theorem Slots.Fits.length_eq (hf : slots.Fits values h (.ok ts) h') : ts.length = slots.count := by
  cases hf with
  | plain _ hlen => exact hlen
  | starred _ _ _ _ hplaces => exact hplaces.length_eq

end Rows

section Elements

def Ty.asksMethods : Ty → Bool
  | .continues | .function .. | .classObject _ | .object .. | .module _ => true
  | _ => false

def Heap.iterators (h : Heap) (value : TypeId) : List FunctionId :=
  h.functionsOf ((h.attrOf value "__iter__").getD [])

/-- What comes out of an iterator, its alternatives merged in order. -/
def itemsOfIterator (ev : Evaluator) (iterator : TypeId) : Analysis TypeId := do
  ((← theHeap).members iterator).foldlM (fun acc m => do union acc (← iteratorElement ev .unpacking m)) .unknown

/-- What comes out of a value that is taken apart and whose number of items is not known, if it can be gone through. -/
inductive Yields (env : Environment) (ev : Evaluator) (value : TypeId) (s : Session) :
    Except Fault (Option TypeId) → Session → Prop
  | unknown (hv : s.heap.ty value = .unknown) : Yields env ev value s (.ok (some .unknown)) s
  | list {e : TypeId} {shape : Option (List TypeId)} (hv : s.heap.ty value = .list e shape) :
      Yields env ev value s (.ok (some e)) s
  | dict {k v : TypeId} (hv : s.heap.ty value = .dict k v) : Yields env ev value s (.ok (some v)) s
  | text {name : String} (hv : s.heap.ty value = .scalar name) (ht : name = "str" ∨ name = "bytes") :
      Yields env ev value s (.ok (some value)) s
  | scalar {name : String} (hv : s.heap.ty value = .scalar name) (ht : ¬ (name = "str" ∨ name = "bytes")) :
      Yields env ev value s (.ok none) s
  | without (hv : (s.heap.ty value).asksMethods = true) (hf : s.heap.iterators value = []) :
      Yields env ev value s (.ok none) s
  | iterators {r : Except Fault TypeId} {s' : Session} (hv : (s.heap.ty value).asksMethods = true)
      (hf : s.heap.iterators value ≠ [])
      (hr : (applyAll ev (s.heap.iterators value) value {} >>= itemsOfIterator ev).runOn env s = (r, s')) :
      Yields env ev value s (r.map some) s'
  /-- No alternative of a value has alternatives; were it so, these would be merged. -/
  | alternatives {ms : List TypeId} {r : Except Fault (Option TypeId)} {s' : Session} (hv : s.heap.ty value = .union ms)
      (hr : (element? ev .unpacking value).runOn env s = (r, s')) : Yields env ev value s r s'

theorem element_of_asksMethods (hv : (s.heap.ty value).asksMethods = true) :
    (element? ev .unpacking value).runOn env s = (callMethod? ev value "__iter__" >>= fun
      | none => Pure.pure none
      | some iterator => do return some (← itemsOfIterator ev iterator)).runOn env s := by
  rw [element?, runOn_theHeap_bind]
  cases hty : s.heap.ty value <;> rw [hty] at hv <;> cases hv
  all_goals
    dsimp only
    rw [elementOfOne?, runOn_theHeap_bind, hty]
    rfl

theorem Yields.runOn_element (hy : Yields env ev value s r s') :
    (element? ev .unpacking value).runOn env s = (r, s') := by
  cases hy with
  | alternatives _ hr => exact hr
  | without hv hf =>
    rw [element_of_asksMethods hv, callMethod?, runOn_bind, runOn_theHeap_bind, ← Heap.iterators, hf]
    rfl
  | @iterators r s' hv hf hr =>
    rw [runOn_bind] at hr
    rw [element_of_asksMethods hv, callMethod?, runOn_bind, runOn_theHeap_bind, ← Heap.iterators]
    cases hfs : s.heap.iterators value with
    | nil => exact absurd hfs hf
    | cons f fs =>
      rw [hfs] at hr
      dsimp only
      rw [runOn_bind]
      rcases hiter : (applyAll ev (f :: fs) value {}).runOn env s with ⟨_ | iterator, s1⟩
      · rw [hiter] at hr
        cases hr
        rfl
      · rw [hiter] at hr
        show (itemsOfIterator ev iterator >>= fun t => Pure.pure (some t) : Analysis _).runOn env s1 = _
        rw [runOn_bind, show (itemsOfIterator ev iterator).runOn env s1 = (r, s') from hr]
        cases r <;> rfl
  | text hv ht | scalar hv ht =>
    rw [element?, runOn_theHeap_bind, hv]
    dsimp only
    rw [elementOfOne?, runOn_theHeap_bind, hv, Heap.isText, hv]
    simp only [Bool.or_eq_true, decide_eq_true_iff, ht, if_true, if_false]
    rfl
  | unknown hv | list hv | dict hv =>
    rw [element?, runOn_theHeap_bind, hv]
    dsimp only
    rw [elementOfOne?, runOn_theHeap_bind, hv]
    rfl

theorem yields_total (env : Environment) (ev : Evaluator) (ht : ∀ es, s.heap.ty value ≠ .tuple es) :
    ∃ r s', Yields env ev value s r s' := by
  cases hv : s.heap.ty value with
  | unknown => exact ⟨_, _, .unknown hv⟩
  | list e shape => exact ⟨_, _, .list hv⟩
  | tuple es => exact absurd hv (ht es)
  | dict k v => exact ⟨_, _, .dict hv⟩
  | scalar name =>
    by_cases htext : name = "str" ∨ name = "bytes"
    · exact ⟨_, _, .text hv htext⟩
    · exact ⟨_, _, .scalar hv htext⟩
  | union ms => exact ⟨_, _, .alternatives hv rfl⟩
  | _ =>
    have hasks : (s.heap.ty value).asksMethods = true := by rw [hv]; rfl
    by_cases hf : s.heap.iterators value = []
    · exact ⟨_, _, .without hasks hf⟩
    · exact ⟨_, _, .iterators hasks hf rfl⟩

end Elements

section Alternatives

/-- What one alternative of a value gives the slots of a pattern. -/
inductive Unpacks (env : Environment) (ev : Evaluator) (slots : Slots) (display : Bool) (value : TypeId) (s : Session) :
    Except Fault (Except Mismatch (List TypeId)) → Session → Prop
  | shaped {items : List TypeId} {r : Except Mismatch (List TypeId)} {h : Heap}
      (hshape : s.heap.HasShape display value items) (hfits : slots.Fits items s.heap r h) :
      Unpacks env ev slots display value s (.ok r) (s.withHeap h)
  | repeated {e : TypeId} {s1 : Session} (hshape : ∀ items, ¬ s.heap.HasShape display value items)
      (hy : Yields env ev value s (.ok (some e)) s1) (hstar : slots.star = none) :
      Unpacks env ev slots display value s (.ok (.ok (List.replicate slots.count e))) s1
  | starred {e list : TypeId} {j : Nat} {s1 : Session} {h : Heap} (hshape : ∀ items, ¬ s.heap.HasShape display value items)
      (hy : Yields env ev value s (.ok (some e)) s1) (hstar : slots.star = some j)
      (hlist : (newList e).run s1.heap = (list, h)) :
      Unpacks env ev slots display value s (.ok (.ok ((List.replicate slots.count e).set j list))) (s1.withHeap h)
  | barren {s1 : Session} (hshape : ∀ items, ¬ s.heap.HasShape display value items)
      (hy : Yields env ev value s (.ok none) s1) :
      Unpacks env ev slots display value s
        (.ok (.error ⟨.unpackNonIterable, "unpacking non-iterable: " ++ s1.heap.print value⟩)) s1
  | fault {f : Fault} {s1 : Session} (hshape : ∀ items, ¬ s.heap.HasShape display value items)
      (hy : Yields env ev value s (.error f) s1) : Unpacks env ev slots display value s (.error f) s1

theorem Unpacks.runOn_destructure (hslots : slots.IsSound)
    (hu : Unpacks env ev slots display value s r s') : (destructure ev slots display value).runOn env s = (r, s') := by
  have hunshaped : (∀ items, ¬ s.heap.HasShape display value items) → s.heap.fixedShape? value display = none := by
    intro hshape
    exact Option.eq_none_iff_forall_not_mem.2 fun items hitems => hshape items (Heap.fixedShape?_eq_some_iff.1 hitems)
  rw [destructure, runOn_theHeap_bind]
  cases hu with
  | @shaped items r h hshape hfits =>
    rw [Heap.fixedShape?_eq_some_iff.2 hshape]
    show (Except.ok ((slots.fit items).run s.heap).1, s.withHeap ((slots.fit items).run s.heap).2) = _
    rw [hfits.run_fit hslots]
  | repeated hshape hy hstar =>
    rw [hunshaped hshape]
    dsimp only
    rw [runOn_bind, hy.runOn_element]
    simp only [hstar]
    rfl
  | @starred e list j s1 h hshape hy hstar hlist =>
    rw [hunshaped hshape]
    dsimp only
    rw [runOn_bind, hy.runOn_element]
    simp only [hstar]
    show (Except.ok (Except.ok ((List.replicate slots.count e).set j ((newList e).run s1.heap).1)),
      s1.withHeap ((newList e).run s1.heap).2) = _
    rw [hlist]
  | barren hshape hy =>
    rw [hunshaped hshape]
    dsimp only
    rw [runOn_bind, hy.runOn_element]
    rfl
  | fault hshape hy =>
    rw [hunshaped hshape]
    dsimp only
    rw [runOn_bind, hy.runOn_element]

theorem unpacks_total (env : Environment) (ev : Evaluator) (hslots : slots.IsSound) (display : Bool) (value : TypeId)
    (s : Session) : ∃ r s', Unpacks env ev slots display value s r s' := by
  by_cases hshape : ∃ items, s.heap.HasShape display value items
  · obtain ⟨items, hitems⟩ := hshape
    obtain ⟨r, h, hfits⟩ := Slots.fits_total hslots items s.heap
    exact ⟨_, _, .shaped hitems hfits⟩
  · rw [not_exists] at hshape
    obtain ⟨r, s1, hy⟩ := yields_total env ev fun es hes => hshape es (.tuple hes)
    cases r with
    | error f => exact ⟨_, _, .fault hshape hy⟩
    | ok r =>
      cases r with
      | none => exact ⟨_, _, .barren hshape hy⟩
      | some e =>
        cases hstar : slots.star with
        | none => exact ⟨_, _, .repeated hshape hy hstar⟩
        | some j => exact ⟨_, _, .starred hshape hy hstar rfl⟩

theorem Unpacks.length_eq (hu : Unpacks env ev slots display value s (.ok (.ok ts)) s') : ts.length = slots.count := by
  cases hu with
  | shaped _ hfits => exact hfits.length_eq
  | repeated | starred => simp

/-- What the alternatives of a value give the slots of a pattern, in order: the types of the slots, if any alternative fits,
and what each alternative gave. -/
inductive Gathers (env : Environment) (ev : Evaluator) (slots : Slots) (display : Bool) (s : Session) :
    List TypeId → Option (List TypeId) → List (Except Mismatch (List TypeId)) → Session → Prop
  | start : Gathers env ev slots display s [] none [] s
  | unfit {ms : List TypeId} {m : TypeId} {types : Option (List TypeId)} {outcomes : List (Except Mismatch (List TypeId))}
      {mismatch : Mismatch} {s1 s2 : Session} (hg : Gathers env ev slots display s ms types outcomes s1)
      (hu : Unpacks env ev slots display m s1 (.ok (.error mismatch)) s2) :
      Gathers env ev slots display s (ms ++ [m]) types (outcomes ++ [.error mismatch]) s2
  | first {ms : List TypeId} {m : TypeId} {ts : List TypeId} {outcomes : List (Except Mismatch (List TypeId))}
      {s1 s2 : Session} (hg : Gathers env ev slots display s ms none outcomes s1)
      (hu : Unpacks env ev slots display m s1 (.ok (.ok ts)) s2) :
      Gathers env ev slots display s (ms ++ [m]) (some ts) (outcomes ++ [.ok ts]) s2
  /-- One more alternative that fits is merged with those before, slot by slot. -/
  | further {ms : List TypeId} {m : TypeId} {ts us vs : List TypeId} {outcomes : List (Except Mismatch (List TypeId))}
      {s1 s2 : Session} {h : Heap} (hg : Gathers env ev slots display s ms (some ts) outcomes s1)
      (hu : Unpacks env ev slots display m s1 (.ok (.ok us)) s2)
      (hunion : ((ts.zip us).mapM fun p => union p.1 p.2).run s2.heap = (vs, h)) :
      Gathers env ev slots display s (ms ++ [m]) (some vs) (outcomes ++ [.ok us]) (s2.withHeap h)

/-- An alternative of a value ends the work in a fault, after those before it. -/
def Halts (env : Environment) (ev : Evaluator) (slots : Slots) (display : Bool) (s : Session) (ms : List TypeId) (f : Fault)
    (s' : Session) : Prop :=
  ∃ before m after types outcomes s1, ms = before ++ m :: after ∧ Gathers env ev slots display s before types outcomes s1 ∧
    Unpacks env ev slots display m s1 (.error f) s'

def firstMismatch (outcomes : List (Except Mismatch (List TypeId))) : Option Mismatch :=
  outcomes.findSome? fun
    | .error mismatch => some mismatch
    | .ok _ => none

theorem firstMismatch_append (outcomes : List (Except Mismatch (List TypeId))) (r : Except Mismatch (List TypeId)) :
    firstMismatch (outcomes ++ [r]) = (firstMismatch outcomes).or (firstMismatch [r]) := List.findSome?_append

theorem runOn_foldlM_append {α : Type} {f : β → α → Analysis β} {b b' : β} {xs : List α}
    (hrun : (xs.foldlM f b).runOn env s = (.ok b', s1)) (x : α) :
    ((xs ++ [x]).foldlM f b).runOn env s = (f b' x).runOn env s1 := by
  rw [List.foldlM_append, runOn_bind, hrun]
  show (f b' x >>= fun b => List.foldlM f b []).runOn env s1 = _
  simp only [List.foldlM_nil, bind_pure]

theorem runOn_mapM_onHeap (f : α → HeapM β) (xs : List α) (s : Session) :
    (xs.mapM fun x => onHeap (f x)).runOn env s =
      (.ok ((xs.mapM f).run s.heap).1, s.withHeap ((xs.mapM f).run s.heap).2) := by
  induction xs generalizing s with
  | nil => rfl
  | cons x xs ih =>
    rw [List.mapM_cons, runOn_onHeap_bind, runOn_bind, ih, List.mapM_cons]
    rfl

theorem Gathers.runOn_fold (hslots : slots.IsSound) (hg : Gathers env ev slots display s ms types outcomes s') :
    (ms.foldlM (destructureStep ev slots display) (none, none)).runOn env s = (.ok (types, firstMismatch outcomes), s') := by
  induction hg with
  | start => rfl
  | unfit _ hu ih =>
    rw [runOn_foldlM_append ih, destructureStep, runOn_bind, hu.runOn_destructure hslots, firstMismatch_append]
    rfl
  | first _ hu ih =>
    rw [runOn_foldlM_append ih, destructureStep, runOn_bind, hu.runOn_destructure hslots, firstMismatch_append]
    show _ = (Except.ok (some _, (firstMismatch _).or none), _)
    rw [Option.or_none]
    rfl
  | further _ hu hunion ih =>
    rw [runOn_foldlM_append ih, destructureStep, runOn_bind, hu.runOn_destructure hslots, firstMismatch_append]
    show _ = (Except.ok (some _, (firstMismatch _).or none), _)
    rw [Option.or_none]
    dsimp only
    rw [runOn_bind]
    erw [runOn_mapM_onHeap (fun p : TypeId × TypeId => union p.1 p.2)]
    rw [hunion]
    rfl

theorem Halts.runOn_fold (hslots : slots.IsSound) (hh : Halts env ev slots display s ms f s') :
    (ms.foldlM (destructureStep ev slots display) (none, none)).runOn env s = (.error f, s') := by
  obtain ⟨before, m, after, types, outcomes, s1, rfl, hg, hu⟩ := hh
  rw [List.foldlM_append, runOn_bind, hg.runOn_fold hslots]
  dsimp only
  rw [List.foldlM_cons, runOn_bind, destructureStep, runOn_bind, hu.runOn_destructure hslots]

theorem gathers_or_halts (env : Environment) (ev : Evaluator) (hslots : slots.IsSound) (display : Bool) (s : Session)
    (ms : List TypeId) : (∃ types outcomes s', Gathers env ev slots display s ms types outcomes s') ∨
      ∃ f s', Halts env ev slots display s ms f s' := by
  induction ms using List.reverseRecOn with
  | nil => exact .inl ⟨_, _, _, .start⟩
  | append_singleton ms m ih =>
    rcases ih with ⟨types, outcomes, s1, hg⟩ | ⟨f, s', before, x, after, types, outcomes, s1, rfl, hg, hu⟩
    · obtain ⟨r, s2, hu⟩ := unpacks_total env ev hslots display m s1
      cases r with
      | error f => exact .inr ⟨f, s2, ms, m, [], types, outcomes, s1, rfl, hg, hu⟩
      | ok r =>
        cases r with
        | error mismatch => exact .inl ⟨_, _, _, .unfit hg hu⟩
        | ok ts =>
          cases types with
          | none => exact .inl ⟨_, _, _, .first hg hu⟩
          | some before => exact .inl ⟨_, _, _, .further hg hu rfl⟩
    · exact .inr ⟨f, s', before, x, after ++ [m], types, outcomes, s1, by simp, hg, hu⟩

theorem length_run_mapM (f : α → StateM σ β) (xs : List α) (h : σ) : ((xs.mapM f).run h).1.length = xs.length := by
  induction xs generalizing h with
  | nil => rfl
  | cons x xs ih =>
    rw [List.mapM_cons]
    exact congrArg (· + 1) (ih _)

theorem Gathers.fitting (hg : Gathers env ev slots display s ms types outcomes s') :
    (types = none ↔ ∀ o ∈ outcomes, ∃ mismatch, o = .error mismatch) ∧ ∀ ts, types = some ts → ts.length = slots.count := by
  induction hg with
  | start => simp
  | unfit _ _ ih =>
    refine ⟨ih.1.trans ?_, ih.2⟩
    rw [List.forall_mem_append, List.forall_mem_singleton]
    simp
  | first _ hu _ => simp [hu.length_eq]
  | @further ms m ts us vs _ _ s2 h _ hu hunion ih =>
    refine ⟨by simp, ?_⟩
    rintro _ ⟨⟩
    have hlen := length_run_mapM (fun p => union p.1 p.2) (ts.zip us) s2.heap
    rwa [hunion, List.length_zip, ih.2 ts rfl, hu.length_eq, Nat.min_self] at hlen

end Alternatives

section Patterns

end Patterns

end Concordance
