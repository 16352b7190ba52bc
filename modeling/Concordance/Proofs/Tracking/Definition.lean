import Concordance.Proofs.Inference.Definition
import Concordance.Proofs.Tracking.Call

/-!
# Targets and definitions keep a session in order

A target is bound within the module of its place, whatever its name is declared to be. The scope of a new function or
class is made where the definition stands, and what is inside stands in that scope from then on.
-/

namespace Concordance

open Session (moduleTable)
open Syntax (Element Expr Ident Index Pairs Param Params Part Piece Span Stmt)

variable {p : Piece} {c : ClassId} {code : Code} {body : List Stmt}

variable {env : Environment} {final s : Session} {ev ev' : Evaluator}

section Targets

theorem fit_tame (slots : Slots) (values : List TypeId) : Tame W h (slots.fit values) := by
  obtain ⟨count, star⟩ := slots
  unfold Slots.fit
  cases star with
  | none =>
    dsimp only
    split
    · exact .pure
    · split
      · exact .pure
      · exact .pure
  | some star =>
    dsimp only
    split
    · exact .pure
    · exact (unionAll_tame _).bind fun _ => .bind (newType_tame trivial) fun _ => .pure

theorem Session.Sources.contains (hs : s.Sources place pattern (some value))
    (hl : place.locate pattern.span = some l) (hr : place.locate value.span = some r) :
    s.Contains l.file fun body => ∃ stmt p v, Pairs body stmt p v ∧
      (l.start : Int) = p.start ∧ (r.stop : Int) = v.stop := by
  obtain ⟨stmt, whole, ⟨m, unit, region, hunit, hplace, _, hmem⟩, hpair, hu⟩ := hs value rfl
  rw [Place.locate, hplace] at hl hr
  obtain ⟨p, hp, rfl⟩ := SourceUnit.eq_of_locate hl
  obtain ⟨v, hv, rfl⟩ := SourceUnit.eq_of_locate hr
  exact ⟨m, unit, hunit, rfl, stmt, p, v, .mk hmem hpair hu hp hv, rfl, rfl⟩

theorem reportMismatch_tracks (hp : s.Stands place (.expr pattern))
    (hs : s.Sources place pattern source) (mismatch : Option Mismatch) :
    Tracks env final s (reportMismatch place pattern.span source mismatch)
      (reportMismatch place pattern.span source mismatch) := by
  unfold reportMismatch
  split
  · rename_i mismatch l hl
    refine reportAt_tracks ?_
    cases hstop : place.locate (source.bind Expr.span) with
    | none =>
      obtain ⟨m, unit, hunit, hpath, htext⟩ := hp.contains hl
      exact ⟨m, unit, hunit, hpath, .inl htext⟩
    | some r =>
      cases source with
      | none => cases hu : place.unit.file <;> simp [Place.locate, UnitRef.locate, hu] at hstop
      | some value =>
        obtain ⟨m, unit, hunit, hpath, htext⟩ := hs.contains hl hstop
        exact ⟨m, unit, hunit, hpath, .inr htext⟩
  · exact .pure

theorem storeAt_tame (key value container : TypeId) : Tame W h (storeAt key value container) := by
  refine .get_bind fun g _ _ => ?_
  split
  · exact widenList_tame ..
  · exact addEntry_tame ..
  · exact .pure

namespace Session

mutual

theorem Due.leaf {x : Expr} : ∀ {e : Expr}, s.Due place (.expr e) → x ∈ e.leaves → s.Due place (.expr x) := fun {e} he hx => by
  cases e with
  | list _ es | tuple _ es =>
    simp only [Expr.leaves] at hx
    refine Due.leafOf (fun e hmem => he.part ?_) hx
    exact List.mem_map.2 ⟨e.value, List.mem_map.2 ⟨e, hmem, rfl⟩, rfl⟩
  | starred _ inner =>
    simp only [Expr.leaves] at hx
    exact Due.leaf (he.part (List.mem_singleton.2 rfl)) hx
  | _ =>
    simp only [Expr.leaves, List.mem_singleton] at hx
    exact hx ▸ he

theorem Due.leafOf {x : Expr} : ∀ {es : List (Element Expr)}, (∀ e ∈ es, s.Due place (.expr e.value)) →
    x ∈ Expr.leavesOf es → s.Due place (.expr x)
  | [], _, hx => by simp [Expr.leavesOf] at hx
  | ⟨_, e⟩ :: rest, hes, hx => by
    simp only [Expr.leavesOf, List.mem_append] at hx
    rcases hx with hx | hx
    · exact Due.leaf (hes _ (.head _)) hx
    · exact Due.leafOf (fun y hy => hes y (.tail _ hy)) hx

end

end Session

variable (minds : Minds env final ev ev')
include minds

theorem destructure_tracks (slots : Slots) (display : Bool) (value : TypeId) :
    Tracks env final s (destructure ev slots display value) (destructure ev' slots display value) := by
  refine .theHeap_bind fun h _ => ?_
  split
  · exact .lift fun _ => fit_tame ..
  · refine (element_tracks minds .unpacking value).bind fun found => ?_
    cases found with
    | none => exact .theHeap_bind fun _ _ => .pure
    | some e =>
      dsimp only
      split
      · exact .pure
      · exact .bind (.lift fun _ => newType_tame trivial) fun _ => .pure

theorem destructureStep_tracks (slots : Slots) (display : Bool) (soFar : Option (List TypeId) × Option Mismatch)
    (member : TypeId) :
    Tracks env final s (destructureStep ev slots display soFar member)
      (destructureStep ev' slots display soFar member) := by
  refine (destructure_tracks minds slots display member).bind fun found => ?_
  cases found with
  | error mismatch => exact .pure
  | ok types =>
    dsimp only
    split
    · exact .pure
    · exact .bind (.mapM _ fun p _ => .lift fun _ => union_tame ..) fun _ => .pure

theorem bindPattern_tracks (hp : s.Stands place (.expr pattern)) (hs : s.Sources place pattern source)
    (hes : ∀ e ∈ elements, s.Due place (.expr e.value)) (value : TypeId) (kind : BindingKind) :
    Tracks env final s (bindPattern ev place pattern.span elements value kind source)
      (bindPattern ev' place pattern.span elements value kind source) := by
  refine .theHeap_bind fun h _ => .bind (.foldlM _ fun soFar m _ => destructureStep_tracks minds ..) fun x => ?_
  obtain ⟨types, mismatch⟩ := x
  cases types with
  | none =>
    refine (reportMismatch_tracks hp hs mismatch).bind fun _ => .forM _ fun leaf hleaf => ?_
    exact minds.bind (.leafOf hes hleaf) .none ..
  | some types => exact .forM _ fun p hp => minds.bind (hes p.1 (List.of_mem_zip hp).1) .none ..

theorem indexPart_tracks (hi : ∀ e ∈ index.values, s.Due place (.expr e)) :
    Tracks env final s (indexPart ev place index) (indexPart ev' place index) := by
  cases index with
  | single e => exact minds.expr (hi e (List.mem_singleton.2 rfl))
  | slice lower upper step =>
    simp only [Index.values, List.mem_append, Option.mem_toList] at hi
    refine (minds.exprOption fun e he => hi e (.inl (.inl he))).bind fun _ => ?_
    refine (minds.exprOption fun e he => hi e (.inl (.inr he))).bind fun _ => ?_
    exact (minds.exprOption fun e he => hi e (.inr he)).bind fun _ => .lift fun _ => newType_tame trivial

theorem indexType_tracks (hi : ∀ e ∈ index.flatMap Index.values, s.Due place (.expr e)) :
    Tracks env final s (indexType ev place index) (indexType ev' place index) := by
  refine .bind (.mapM index fun x hx => indexPart_tracks minds fun e he => ?_) fun ts => ?_
  · exact hi e (List.mem_flatMap.2 ⟨x, hx, he⟩)
  · split
    · exact .pure
    · exact .lift fun _ => newType_tame trivial

theorem bindTarget_tracks (ht : s.Due place (.expr target))
    (hs : s.Sources place target source) (value : TypeId) (kind : BindingKind) :
    Tracks env final s (bindTarget ev place target value kind source)
      (bindTarget ev' place target value kind source) := by
  unfold bindTarget
  split
  · exact bindName_tracks ht.stands ..
  · refine bindPattern_tracks minds ht.stands hs (fun e he => ht.part ?_) ..
    exact List.mem_map.2 ⟨e.value, List.mem_map.2 ⟨e, he, rfl⟩, rfl⟩
  · refine bindPattern_tracks minds ht.stands hs (fun e he => ht.part ?_) ..
    exact List.mem_map.2 ⟨e.value, List.mem_map.2 ⟨e, he, rfl⟩, rfl⟩
  · exact minds.bind (ht.part (List.mem_singleton.2 rfl)) hs.strip ..
  · refine (minds.expr (ht.part (.head _))).bind fun owner => .theHeap_bind fun h _ => ?_
    exact .forM _ fun m _ => (setAttr_tracks ..).discard
  · refine (minds.expr (ht.part (.head _))).bind fun container => ?_
    refine (indexType_tracks minds fun e he => ht.part ?_).bind fun key => .theHeap_bind fun h _ => ?_
    · exact List.mem_map.2 ⟨e, .tail _ he, rfl⟩
    · exact .forM _ fun m _ => .lift fun _ => storeAt_tame ..
  · exact report_tracks (fun l hl => ht.stands.contains hl) ..

end Targets

section Functions

theorem Session.Ordered.define (ho : s.Ordered)
    (hp : s.Stands ⟨code.unit, scope⟩ p) (hdef : Defines p code) (hcode : function.code = some code)
    (htable : function.table ≠ moduleTable) (hparent : (s.heap.scope function.table).parent = some scope)
    (hkind : (s.heap.scope function.table).kind = .function)
    (hcls : ∀ c, function.cls = some c → c.index < s.heap.classes.size) :
    s.Onward (s.define code function) ∧ (s.define code function).Ordered := by
  have hfunction : ∀ f, (s.define code function).heap.function f =
      if f.index = s.heap.functions.size then function else s.heap.function f := fun f => getD_push
  have hold : ∀ f c, (s.heap.function f).code = some c →
      (s.define code function).heap.function f = s.heap.function f := by
    intro f c hc
    rw [hfunction, if_neg (Nat.ne_of_lt (Heap.lt_of_code hc))]
  have hfirm : s.heap.Firm (s.define code function).heap :=
    ⟨.of_types_eq rfl, fun f c hc => by rw [hold f c hc]; exact ⟨hc, rfl⟩, fun _ hc => ⟨hc, rfl⟩, fun _ hm => ⟨hm, rfl⟩,
      fun _ _ hp => hp, Nat.le_of_lt (Nat.lt_of_lt_of_eq (Nat.lt_succ_self _) (Array.size_push _).symm)⟩
  have hg : s.Grows (s.define code function) := ⟨hfirm, fun _ _ h => h, fun _ _ h => h, fun _ _ h => h⟩
  have hbinds : s.heap.BindsIn Heap.Nowhere (s.define code function).heap := .ofSame rfl rfl rfl
  refine ⟨⟨ho.before hg, .ofSame hfirm rfl rfl, rfl, rfl, fun _ _ h => h, fun _ _ h => .inl h, .of_eq rfl⟩, ho.unknown,
    ⟨ho.apart.ofNewFunction htable, ho.apart.furnished.ofNewFunction hkind hcls⟩, ho.filed.later hfirm (fun _ _ h => h) rfl rfl rfl,
    ho.shelved.later hfirm (fun _ _ h => h) rfl rfl fun _ _ h => h, ⟨?_, ?_, ?_, ?_⟩,
    ho.owned_later (ho.before hg) hbinds fun _ _ hx => hx.elim, ho.stocked, ho.marked_same (ho.before hg) rfl rfl⟩
  · intro f c hc
    by_cases hf : f.index = s.heap.functions.size
    · rw [hfunction, if_pos hf, hcode, Option.some.injEq] at hc
      subst hc
      rw [hfunction, if_pos hf]
      have hbelongs := (ho.stands_belongs hp).inner hparent
      exact ⟨hbelongs.later (ho.before hg), scope, p, hp.later (ho.before hg), hdef, hparent⟩
    · rw [hfunction, if_neg hf] at hc
      exact ho.rooted.codes_later ho hg hc
  · intro r f hf
    rcases Table.get?_insert_cases hf with ⟨hr, hf⟩ | hf
    · refine ⟨code, ?_, hr.symm⟩
      rw [hfunction, if_pos (congrArg FunctionId.index hf), hcode]
    · obtain ⟨c, hc, href⟩ := ho.rooted.functions r f hf
      exact ⟨c, (hfirm.codes f c hc).1, href⟩
  · exact fun r c hc => ho.rooted.classes_later ho hg hc
  · exact fun r x hx => (ho.rooted.comprehensions r x hx).later ho hg

theorem Heap.Furnished.lt_of_classOf {h : Heap} (hf : h.Furnished)
    (hc : h.classOf? x = some c) : c.index < h.classes.size := by
  unfold Heap.classOf? at hc
  split at hc
  · cases hc
  · split at hc
    · rename_i hty
      exact Option.some.inj hc ▸ hf.lt_of_class hty
    · cases hc

theorem makeFunction_tracks (hp : s.Stands place p) (hdef : Defines p code)
    (hunit : code.unit = place.unit) (name : String) (defaults : Table String TypeId) (hf : Completes finish)
    (hcls : ∀ g : Function, g.cls = none → ∀ c, (finish g).cls = some c → c.index < s.heap.classes.size) :
    Tracks env final s (makeFunction place name code defaults finish)
      (makeFunction place name code defaults finish) := by
  refine ⟨fun s1 hs1 ho => ?_⟩
  rw [runOn_makeFunction env s1 place name code defaults hf]
  have hp1 := hp.later hs1.toBefore
  have hfunction : s1.Stands ⟨code.unit, place.scope⟩ p := by
    rw [hunit]
    exact hp1
  have htable : (finish (s1.heap.blank place.scope name code defaults)).table = ⟨s1.heap.scopes.size⟩ := hf.table _
  have hscope := s1.heap.scope_new (s1.heap.frame place.scope name)
  -- First its scope is made, then the function is known, then it has a type.
  obtain ⟨hon, ho1⟩ := ho.withHeap (ho.apart.addInner (s1.heap.frame place.scope name) (ho.mayEnclose hp1) rfl
    (.inl rfl) rfl rfl)
  obtain ⟨hon', ho2⟩ := ho1.define (hfunction.later hon.before) hdef (hf.same _).code (htable ▸ ho.apart.fresh)
    (htable ▸ congrArg Scope.parent hscope) (htable ▸ congrArg Scope.kind hscope)
    fun c hc => Nat.lt_of_lt_of_le (hcls _ rfl c hc) hs1.firm.classes_le
  obtain ⟨hon'', ho3⟩ := ho2.withHeap (ho2.apart.addType (.function ⟨s1.heap.functions.size⟩ none)
    (Nat.lt_of_lt_of_eq (Nat.lt_succ_self _) (Array.size_push _).symm))
  exact ⟨hon.trans (hon'.trans hon''), ho3, fun _ => rfl⟩

variable (minds : Minds env final ev ev')
include minds

theorem addDefault_tracks {p : Param Expr} (hp : ∀ e ∈ p.hint.toList ++ p.fallback.toList, s.Due place (.expr e))
    (defaults : Table String TypeId) :
    Tracks env final s (addDefault ev place defaults p) (addDefault ev' place defaults p) := by
  simp only [List.mem_append, Option.mem_toList] at hp
  refine (minds.exprOption fun e he => hp e (.inl he)).bind fun _ => ?_
  split
  · exact .pure
  · rename_i e he
    exact (minds.expr (hp e (.inr he))).bind fun _ => .pure

theorem defaultsOf_tracks     (hp : ∀ e, (none, .expr e) ∈ Part.ofParams node params → s.Due place (.expr e)) :
    Tracks env final s (defaultsOf ev place params) (defaultsOf ev' place params) := by
  obtain ⟨positionalOnly, ordinary, surplus, keywordOnly, keywordSurplus⟩ := params
  have hparam : ∀ p ∈ positionalOnly ++ ordinary ++ surplus.toList ++ keywordOnly ++ keywordSurplus.toList,
      ∀ e ∈ p.hint.toList ++ p.fallback.toList, s.Due place (.expr e) := by
    intro p hmem e he
    refine hp e (List.mem_flatMap.2 ⟨p, hmem, List.mem_cons_of_mem _ ?_⟩)
    exact List.mem_map.2 ⟨e, he, rfl⟩
  simp only [List.mem_append, Option.mem_toList] at hparam
  have hoption : ∀ o : Option (Param Expr), (∀ p ∈ o, ∀ e, e ∈ p.hint ∨ e ∈ p.fallback → s.Due place (.expr e)) →
      Tracks env final s (ev.exprOption place (o.bind Param.hint)) (ev'.exprOption place (o.bind Param.hint)) := by
    intro o ho
    refine minds.exprOption fun e he => ?_
    obtain ⟨p, hmem, hhint⟩ := Option.bind_eq_some_iff.1 he
    exact ho p hmem e (.inl hhint)
  refine .bind (.foldlM _ fun acc p hmem => addDefault_tracks minds (fun e he => ?_) acc) fun _ => ?_
  · simp only [List.mem_append, Option.mem_toList] at hmem he
    refine hparam p ?_ e he
    tauto
  · refine (hoption surplus fun p hmem => hparam p (.inl (.inl (.inr hmem)))).bind fun _ => ?_
    exact (hoption keywordSurplus fun p hmem => hparam p (.inr hmem)).bind fun _ => .pure

theorem functionOf_tracks (hp : s.Due place p) (hdef : Defines p code) (hunit : code.unit = place.unit)
    (hparams : ∀ e, (none, .expr e) ∈ Part.ofParams code.node code.params → s.Due place (.expr e)) (name : String) (hf : Completes finish)
    (hcls : ∀ g : Function, g.cls = none → ∀ c, (finish g).cls = some c → c.index < s.heap.classes.size) :
    Tracks env final s (functionOf ev place name code finish) (functionOf ev' place name code finish) := by
  refine .get_bind fun s' hs' _ => ?_
  split
  · exact .pure
  · -- Parameters are evaluated where the definition stands, before the function is made.
    refine (defaultsOf_tracks minds fun e he => (hparams e he).later hs').bind fun defaults => ?_
    exact makeFunction_tracks (hp.later hs').stands hdef hunit name defaults hf
      fun g hg c hc => Nat.lt_of_lt_of_le (hcls g hg c hc) hs'.firm.classes_le

theorem defineFunction_tracks         (hp : s.Due place (.stmt (.functionDef span node name params body decorators))) :
    Tracks env final s (defineFunction ev place span node name params body decorators)
      (defineFunction ev' place span node name params body decorators) := by
  refine (minds.exprs fun e he => hp.part ?_).bind fun _ => .theHeap_get fun s' hs' ho => ?_
  · exact List.mem_append_right _ (List.mem_map.2 ⟨e, he, rfl⟩)
  have hcomplete : Completes fun function => decorators.foldl Function.decorate
      { function with cls := s'.heap.classOf? place.scope } :=
    (Completes.decorators decorators).comp .withClass
  replace hp := hp.later hs'
  refine (functionOf_tracks minds hp .function rfl (fun e he => hp.part ?_) name.text hcomplete fun g _ c hc => ?_).bind
    fun f => ?_
  · exact List.mem_append_left _ (List.mem_append_left _ (List.mem_append_right _ he))
  · exact ho.apart.furnished.lt_of_classOf ((Function.cls_decorators ..).symm.trans hc)
  refine .theHeap_bind fun h' _ => (bindName_tracks (hp.stands.part ?_) ..).bind fun _ => ?_
  · simp [Piece.parts, Stmt.parts, Part.names]
  split
  · refine .theHeap_bind fun h'' _ => .forM _ fun b _ => .lift fun _ => ?_
    exact modifyBinding_tame (fun _ => ⟨rfl, rfl, rfl, rfl, rfl, rfl, rfl, rfl, rfl⟩) fun _ => rfl
  · exact .pure

theorem lambdaType_tracks {body : Expr}
    (hp : s.Due place (.expr (.lambda span node params body))) :
    Tracks env final s (lambdaType ev place node params body) (lambdaType ev' place node params body) := by
  refine (functionOf_tracks minds hp .lambda rfl (fun e he => hp.part ?_) "lambda" .id fun g hg c hc => ?_).bind
    fun f => ?_
  · exact List.mem_append_left _ he
  · cases hg.symm.trans hc
  · exact .theHeap_bind fun _ _ => .pure

end Functions

section Classes

namespace Session

theorem Ordered.learn (ho : s.Ordered) (heap : s'.heap = s.heap) (loading : s'.loading = s.loading)
    (problems : s'.problems = s.problems) (library : s'.library = s.library)
    (functions : s'.definitions.functions = s.definitions.functions)
    (classes : ∀ r c, s.definitions.classes.get? r = some c → s'.definitions.classes.get? r = some c)
    (comprehensions : ∀ r x, s.definitions.comprehensions.get? r = some x →
      s'.definitions.comprehensions.get? r = some x)
    (newClasses : ∀ r (c : ClassId), s'.definitions.classes.get? r = some c → s.definitions.classes.get? r = some c ∨
      c.index < s.heap.classes.size ∧ s.MadeFor r (s.heap.cls c).table)
    (newComprehensions : ∀ r x, s'.definitions.comprehensions.get? r = some x →
      s.definitions.comprehensions.get? r = some x ∨ s.MadeFor r x) : s.Onward s' ∧ s'.Ordered := by
  have hsteady : s.heap.Steady Heap.Nowhere s'.heap := heap ▸ .refl _
  have hannounced : ∀ q m, s.Announced q m → s'.Announced q m := fun _ _ h => h.steady hsteady
  have hg : s.Grows s' := ⟨hsteady.firm, by rw [loading]; exact fun _ _ h => h, classes, comprehensions⟩
  have hback : ∀ q m, s'.Announced q m → s.Announced q m := fun _ _ h => ho.announced_of_steady hsteady h
  refine ⟨⟨ho.before hg, .of_heap_eq heap, by rw [loading], by rw [loading], hannounced, fun q m h => .inl (hback q m h),
    .of_eq library⟩, heap ▸ ho.unknown, heap ▸ ho.apart,
    ho.filed.later hsteady.firm hannounced (by rw [loading]) (by rw [loading]) (by rw [loading]),
    ho.shelved.later hsteady.firm hannounced (by rw [loading]) (by rw [loading]) hback, ⟨?_, ?_, ?_, ?_⟩,
    ho.owned_same (ho.before hg) heap, ho.stocked.later (.of_eq library), ho.marked_same (ho.before hg) problems (by rw [heap])⟩
  · intro f c hc
    rw [heap] at hc
    exact ho.rooted.codes_later ho hg hc
  · rw [heap, functions]
    exact ho.rooted.functions
  · intro r c hc
    rcases newClasses r c hc with hold | ⟨hlt, hmade⟩
    · exact ho.rooted.classes_later ho hg hold
    · rw [heap]
      exact ⟨hlt, hmade.later ho hg⟩
  · intro r x hx
    rcases newComprehensions r x hx with hold | hmade
    · exact (ho.rooted.comprehensions r x hold).later ho hg
    · exact hmade.later ho hg

theorem Ordered.addClass (ho : s.Ordered) (hnew : s.definitions.classes.get? r = none)
    (hc : c.index < s.heap.classes.size) (hm : s.MadeFor r (s.heap.cls c).table) :
    s.Onward (s.addClass r c) ∧ (s.addClass r c).Ordered := by
  refine ho.learn rfl rfl rfl rfl rfl (fun _ _ h => Table.get?_insert_of_new hnew h) (fun _ _ h => h) (fun r' c' hc' => ?_)
    fun _ _ h => .inl h
  rcases Table.get?_insert_cases hc' with ⟨rfl, rfl⟩ | hold
  · exact .inr ⟨hc, hm⟩
  · exact .inl hold

end Session

theorem newClass_made (h : Heap) (name : String) (parent : Option ScopeId) :
    ((newClass name parent).run h).1.index < ((newClass name parent).run h).2.classes.size ∧
      (((newClass name parent).run h).2.scope
        (((newClass name parent).run h).2.cls ((newClass name parent).run h).1).table).parent = parent := by
  refine ⟨Nat.lt_of_lt_of_eq (Nat.lt_succ_self _) (Array.size_push _).symm, ?_⟩
  have hcls : ((newClass name parent).run h).2.cls ((newClass name parent).run h).1 =
      { name, type := ⟨h.types.size⟩, table := ⟨h.scopes.size⟩ } := getD_push.trans (if_pos rfl)
  rw [hcls]
  exact congrArg Scope.parent (getD_push.trans (if_pos rfl))

theorem classOf_bind {f g : ClassId × Bool → Analysis α} (hp : s.Stands place p)
    (hnode : node ∈ p.numbers) (name : String)
    (hf : ∀ c isNew s', s.Leads s' → s'.definitions.classes.get? ⟨place.unit.number, node⟩ = some c →
      Tracks env final s' (f (c, isNew)) (g (c, isNew))) :
    Tracks env final s (classOf place ⟨place.unit.number, node⟩ name >>= f)
      (classOf place ⟨place.unit.number, node⟩ name >>= g) := by
  refine ⟨fun s1 hs1 ho => ?_⟩
  rw [runOn_bind, runOn_bind]
  cases hknown : s1.definitions.classes.get? ⟨place.unit.number, node⟩ with
  | some c =>
    rw [runOn_classOf_known hknown]
    exact (hf c false s1 hs1 hknown).run s1 (.refl s1) ho
  | none =>
    have hplace : s1.heap.MayEnclose place.scope := ho.mayEnclose (hp.later hs1.toBefore)
    obtain ⟨hsteady, hapart⟩ := (newClass_tame (W := Heap.Nowhere) name hplace).run s1.heap (.refl _) ho.apart
    -- The class is made and then known by its node, before anything of it is evaluated.
    have hmade := newClass_made s1.heap name (some place.scope)
    rcases hmake : (newClass name (some place.scope)).run s1.heap with ⟨c, h⟩
    rw [hmake] at hsteady hapart hmade
    rw [runOn_classOf_new hknown hmake]
    have hal := Session.Alike.withHeap s1 h
    have hon := ho.onward hal hsteady
    have ho1 := ho.steady hal hsteady hapart
    have hp1 := hp.later (hs1.trans hon.leads).toBefore
    obtain ⟨hon', ho'⟩ := ho1.addClass hknown hmade.1
      ⟨(ho1.stands_belongs hp1).inner hmade.2, place, p, hp1, rfl, hnode, hmade.2⟩
    have hclass : ((s1.withHeap h).addClass ⟨place.unit.number, node⟩ c).definitions.classes.get?
        ⟨place.unit.number, node⟩ = some c := Table.get?_insert_self ..
    have hstep := hon.trans hon'
    obtain ⟨hon2, ho2, heq⟩ := (hf c true _ (hs1.trans hstep.leads) hclass).run _ (.refl _) ho'
    exact ⟨hstep.trans hon2, ho2, heq⟩

variable (minds : Minds env final ev ev')
include minds

theorem evaluateBase_tracks (hb : s.Due place (.expr base)) (hc : c.index < s.heap.classes.size) (isNew : Bool) :
    Tracks env final s (evaluateBase ev place c isNew base) (evaluateBase ev' place c isNew base) := by
  refine (minds.expr hb).bind fun t => ?_
  split
  · refine .theHeap_bind fun h _ => .forM _ fun m _ => .theHeap_get fun s1 hs1 _ => ?_
    split
    · rename_i d hd
      refine .lift_later fun s2 hs2 => addBase_tame ?_ (.inl ⟨d, hs2.firm.types.classObject hd⟩)
      exact Nat.lt_of_lt_of_le hc (hs1.firm.trans hs2.firm).classes_le
    · exact .pure
  · exact .pure

theorem evaluateClass_tracks (hp : s.Due place (.stmt (.classDef span node name bases keywords body decorators)))
    (hc : s.definitions.classes.get? ⟨place.unit.number, node⟩ = some c) (isNew : Bool) :
    Tracks env final s (evaluateClass ev place span name bases keywords body c isNew)
      (evaluateClass ev' place span name bases keywords body c isNew) := by
  refine .now fun s0 hs0 ho0 => ?_
  replace hp := hp.later hs0
  replace hc := hs0.classes _ _ hc
  have hlt := (ho0.rooted.classes _ c hc).1
  have hpart : ∀ e ∈ bases ++ keywords, s0.Due place (.expr e) := fun e he => hp.part
    (List.mem_append_left _ (List.mem_append_left _ (List.mem_append_right _ (List.mem_map.2 ⟨e, he, rfl⟩))))
  refine .bind (.forM bases fun e he => evaluateBase_tracks minds (hpart e (List.mem_append_left _ he)) hlt isNew)
    fun _ => ?_
  refine (minds.exprs fun e he => hpart e (List.mem_append_right _ he)).bind fun _ => ?_
  -- The scope of the class is read after bases and keywords; the class is still known by its node then.
  refine .theHeap_get fun s' hs' ho' => (bindName_tracks ((hp.later hs').stands.part ?_) ..).bind fun _ => ?_
  · simp [Piece.parts, Stmt.parts, Part.names]
  split
  · refine (block_tracks minds fun x hx => (hp.later hs').inside (.cls node) ?_ ?_).discard
    · exact List.mem_append_left _ (List.mem_append_right _ (List.mem_map.2 ⟨x, hx, rfl⟩))
    · exact ⟨c, hs'.classes _ _ hc, rfl⟩
  · exact .pure

theorem defineClass_tracks (hp : s.Due place (.stmt (.classDef span node name bases keywords body decorators))) :
    Tracks env final s (defineClass ev place span node name bases keywords body decorators)
      (defineClass ev' place span node name bases keywords body decorators) := by
  refine (minds.exprs fun e he => hp.part ?_).bind fun _ => ?_
  · exact List.mem_append_right _ (List.mem_map.2 ⟨e, he, rfl⟩)
  refine classOf_bind hp.stands (List.mem_singleton.2 rfl) name.text fun c isNew s' hs' hc => ?_
  exact evaluateClass_tracks minds (hp.later hs') hc isNew

end Classes

end Concordance
