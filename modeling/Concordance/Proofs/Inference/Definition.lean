import Concordance.Proofs.Inference.Target

/-!
# Definitions

A function is made when its definition is met for the first time, after its parameters have been evaluated. The
same goes for the body of a class, which is evaluated after the class is known.
-/

namespace Concordance

open Syntax (Expr Stmt Span Ident Param Params Item ownItems frameItems Collector)

variable {env : Environment} {R : Regime env}

section Parameters

theorem addDefault_agrees (fits : Fits R ev ev') (p : Param Expr)
    (hv : ∀ t ∈ defaults.values, s.heap.IsValue t) (hn : Expr.sizeOfParam p < n)
    (hd : Within D place.unit (frameItems.param p)) :
    Agrees R n D s (addDefault ev place defaults p) (addDefault ev' place defaults p) fun table s' =>
      (∀ t ∈ table.values, s'.heap.IsValue t) ∧ s'.Did place.unit (ownItems.param p) := by
  obtain ⟨name, hint, fallback⟩ := p
  simp only [Expr.sizeOfParam, Collector.param, Within.append, Session.Did.append] at hn hd ⊢
  refine .bind (fits.exprOption hint (by omega) hd.1) fun _ s1 hl1 hhint => ?_
  cases fallback with
  | none => exact .pure ⟨fun t ht => hl1.isValue (hv t ht), hhint, .nil⟩
  | some e =>
    refine .bind (fits.expr e (by simp only [Expr.sizeOfOption] at hn; omega) hd.2) ?_
    rintro t s2 hl2 ⟨ht, hdid⟩
    refine .pure ⟨fun u hu => ?_, hl2.did hhint, hdid⟩
    rcases Table.mem_values_insert hu with rfl | hu
    · exact ht
    · exact (hl1.trans hl2).isValue (hv u hu)

theorem surplusHint_agrees (fits : Fits R ev ev') (p : Option (Param Expr)) (hn : Expr.sizeOfParamOption p < n)
    (hd : Within D place.unit (frameItems.paramOption p)) :
    Agrees R n D s (ev.exprOption place (p.bind Param.hint)) (ev'.exprOption place (p.bind Param.hint))
      fun _ s' => s'.Did place.unit (ownItems.paramOption p) := by
  cases p with
  | none => exact .pure .nil
  | some p =>
    obtain ⟨name, hint, fallback⟩ := p
    simp only [Expr.sizeOfParamOption, Expr.sizeOfParam] at hn
    exact fits.exprOption hint (by omega) hd

theorem defaultsOf_agrees (fits : Fits R ev ev') (params : Params Expr) (hn : Expr.sizeOfParams params < n)
    (hd : Within D place.unit (frameItems.params params)) :
    Agrees R n D s (defaultsOf ev place params) (defaultsOf ev' place params) fun table s' =>
      (∀ t ∈ table.values, s'.heap.IsValue t) ∧ s'.Did place.unit (ownItems.params params) := by
  obtain ⟨positionalOnly, ordinary, surplus, keywordOnly, keywordSurplus⟩ := params
  simp only [Expr.sizeOfParams, Collector.params, Expr.sizeOfParamList_eq, Collector.paramList_eq] at hn hd ⊢
  simp only [Within.append, Session.Did.append, Within.flatMap, Session.Did.flatMap] at hn hd ⊢
  obtain ⟨hd1, hd2, hd3, hd4, hd5⟩ := hd
  -- The table of defaults holds values all along.
  refine .bind (.foldlM_did (I := fun table s => ∀ t ∈ table.values, s.heap.IsValue t)
    (P := fun p s => s.Did place.unit (ownItems.param p)) _ (fun _ _ _ hl => hl.did)
    (fun p hp acc s1 _ hacc => ?_) (by simp [Table.values])) ?_
  · have hmem : ∀ {ps : List (Param Expr)}, p ∈ ps → Expr.sizeOfParam p ≤ (ps.map Expr.sizeOfParam).sum :=
      fun hp => Syntax.le_sum_of_mem hp
    rcases List.mem_append.1 hp with hp | hp
    · rcases List.mem_append.1 hp with hp | hp
      · exact addDefault_agrees fits p hacc (Nat.lt_of_le_of_lt (hmem hp) (by dsimp only; omega)) (hd1 p hp)
      · exact addDefault_agrees fits p hacc (Nat.lt_of_le_of_lt (hmem hp) (by dsimp only; omega)) (hd2 p hp)
    · exact addDefault_agrees fits p hacc (Nat.lt_of_le_of_lt (hmem hp) (by dsimp only; omega)) (hd3 p hp)
  · rintro table s1 _ ⟨htable, hall⟩
    simp only [List.forall_mem_append] at hall
    refine .bind (surplusHint_agrees fits surplus (by omega) hd4) fun _ s2 hl2 hsurplus => ?_
    refine .bind (surplusHint_agrees fits keywordSurplus (by omega) hd5) fun _ s3 hl3 hkeyword => .pure ?_
    have hl := hl2.trans hl3
    exact ⟨fun t ht => hl.isValue (htable t ht), fun p hp => hl.did (hall.1.1 p hp),
      fun p hp => hl.did (hall.1.2 p hp), fun p hp => hl.did (hall.2 p hp), hl3.did hsurplus, hkeyword⟩

theorem keys_of_runOn_addDefault
    (hrun : (addDefault ev place defaults p).runOn env s = (.ok table, s')) (name : String) :
    name ∈ table.keys ↔ name ∈ defaults.keys ∨ p.fallback.isSome ∧ name = p.name.text := by
  obtain ⟨_, s1, _, hrun⟩ := exists_of_runOn_bind hrun
  cases hfallback : p.fallback with
  | none =>
    rw [hfallback] at hrun
    cases hrun
    simp
  | some e =>
    rw [hfallback] at hrun
    obtain ⟨t, s2, _, hrun⟩ := exists_of_runOn_bind hrun
    cases hrun
    simp only [Table.mem_keys_iff, Option.isSome_some, true_and]
    by_cases heq : name = p.name.text
    · simp [heq]
    · simp [Table.get?_insert_of_ne heq, heq]

theorem keys_of_runOn_defaultsOf (hrun : (defaultsOf ev place params).runOn env s = (.ok table, s')) (name : String) :
    name ∈ table.keys ↔ name ∈ params.optional := by
  -- One parameter after the other.
  have hfold : ∀ (ps : List (Param Expr)) (acc : Table String TypeId) {table : Table String TypeId} {s s' : Session},
      (ps.foldlM (addDefault ev place) acc).runOn env s = (.ok table, s') →
        (name ∈ table.keys ↔ name ∈ acc.keys ∨ name ∈ (ps.filter fun p => p.fallback.isSome).map fun p => p.name.text) := by
    intro ps
    induction ps with
    | nil =>
      intro acc table s s' hrun
      cases hrun
      simp
    | cons p ps ih =>
      intro acc table s s' hrun
      rw [List.foldlM_cons] at hrun
      obtain ⟨next, s1, hfirst, hrest⟩ := exists_of_runOn_bind hrun
      rw [ih next hrest, keys_of_runOn_addDefault hfirst, List.filter_cons]
      split
      · rename_i hsome
        simp [hsome, or_assoc]
      · rename_i hnone
        simp [hnone]
  obtain ⟨found, s1, hfound, hrun⟩ := exists_of_runOn_bind hrun
  obtain ⟨_, s2, _, hrun⟩ := exists_of_runOn_bind hrun
  obtain ⟨_, s3, _, hrun⟩ := exists_of_runOn_bind hrun
  cases hrun
  rw [hfold _ {} hfound, Syntax.Params.optional]
  simp [Table.keys]

end Parameters

section Functions

/-- A completion of a new function that leaves alone what it is made from and what has happened to it. -/
structure Completes (finish : Function → Function) : Prop where
  sound : ∀ (h : Heap) (g : Function), g.IsSound h → (finish g).IsSound h
  same : ∀ g : Function, g.SameCalls (finish g)
  yields : ∀ g, (finish g).yields = g.yields
  table : ∀ g, (finish g).table = g.table
  defaults : ∀ g, (finish g).defaults = g.defaults

theorem Completes.id : Completes id := ⟨fun _ _ h => h, fun _ => .refl _, fun _ => rfl, fun _ => rfl, fun _ => rfl⟩

theorem Completes.comp (hf : Completes f) (hg : Completes g) : Completes fun x => f (g x) where
  sound h x hx := hf.sound h _ (hg.sound h x hx)
  same x := (hg.same x).trans (hf.same _)
  yields x := (hf.yields _).trans (hg.yields x)
  table x := (hf.table _).trans (hg.table x)
  defaults x := (hf.defaults _).trans (hg.defaults x)

theorem Completes.withClass : Completes fun g => { g with cls } :=
  ⟨fun _ _ hg => { hg with }, fun _ => ⟨rfl, rfl, rfl, rfl⟩, fun _ => rfl, fun _ => rfl, fun _ => rfl⟩

theorem Completes.decorate (e : Expr) : Completes (Function.decorate · e) where
  sound h g hg := by
    simp only [Function.decorate]
    split
    · exact { hg with }
    · split
      · exact { hg with }
      · split
        · exact { hg with }
        · exact hg
  same g := by
    simp only [Function.decorate]
    split <;> (try split) <;> (try split) <;> exact ⟨rfl, rfl, rfl, rfl⟩
  yields g := by
    simp only [Function.decorate]
    split <;> (try split) <;> (try split) <;> rfl
  table g := by
    simp only [Function.decorate]
    split <;> (try split) <;> (try split) <;> rfl
  defaults g := by
    simp only [Function.decorate]
    split <;> (try split) <;> (try split) <;> rfl

theorem Completes.decorators (es : List Expr) : Completes fun g => es.foldl Function.decorate g := by
  induction es with
  | nil => exact .id
  | cons e es ih => exact ih.comp (.decorate e)

theorem Function.cls_decorators (es : List Expr) (g : Function) : (es.foldl Function.decorate g).cls = g.cls := by
  induction es generalizing g with
  | nil => rfl
  | cons e es ih =>
    rw [List.foldl_cons, ih, Function.decorate]
    split <;> (try split) <;> (try split) <;> rfl

theorem push_modify (xs : Array α) (a : α) (g : α → α) : (xs.push a).modify xs.size g = xs.push (g a) := by
  refine Array.ext (by simp) fun i hi _ => ?_
  rw [Array.getElem_modify, Array.getElem_push, Array.getElem_push]
  by_cases hlt : i < xs.size
  · rw [dif_pos hlt, dif_pos hlt, if_neg (by omega)]
  · rw [dif_neg hlt, dif_neg hlt, if_pos (by simp at hi; omega)]

/-- The scope of a new function, which is defined in the given scope. -/
def Heap.frame (h : Heap) (parent : ScopeId) (name : String) : Scope :=
  { kind := .function, path := h.pathIn (some parent) name, parent := some parent, owner := some ⟨h.types.size⟩ }

/-- The heap with the type and the scope of a new function, which is defined in the given scope. -/
def Heap.withFrame (h : Heap) (parent : ScopeId) (name : String) : Heap :=
  { h with
    types := h.types.push (.function ⟨h.functions.size⟩ none)
    scopes := h.scopes.push (h.frame parent name) }

def Heap.blank (h : Heap) (parent : ScopeId) (name : String) (code : Code) (defaults : Table String TypeId) : Function :=
  { name, code := some code, type := ⟨h.types.size⟩, table := ⟨h.scopes.size⟩, env := some (h.closureScope parent)
    returns := .unknown, defaults }

theorem runOn_makeFunction (env : Environment) (s : Session) (place : Place) (name : String) (code : Code)
    (defaults : Table String TypeId) (hf : Completes finish) :
    (makeFunction place name code defaults finish).runOn env s =
      (.ok ⟨s.heap.functions.size⟩, (s.withHeap (s.heap.withFrame place.scope name)).define code
        (finish (s.heap.blank place.scope name code defaults))) := by
  -- The session in the end, by its functions.
  let known (functions : Array Function) : Session :=
    let heap : Heap := { s.heap.withFrame place.scope name with functions }
    { s with
      heap
      definitions.functions := s.definitions.functions.insert code.ref ⟨s.heap.functions.size⟩
      uncalled :=
        if (heap.function ⟨s.heap.functions.size⟩).called || decide (⟨s.heap.functions.size⟩ ∈ s.uncalled)
        then s.uncalled else s.uncalled ++ [⟨s.heap.functions.size⟩] }
  let function := finish (s.heap.blank place.scope name code defaults)
  have hcalled : function.called = false := (hf.same _).called
  have hlast : ∀ heap : Heap, heap.functions = s.heap.functions.push function →
      heap.function ⟨s.heap.functions.size⟩ = function := by
    intro heap hheap
    rw [Heap.function, hheap, getD_push, if_pos rfl]
  show (Except.ok _, known ((s.heap.functions.push _).modify s.heap.functions.size _)) = _
  rw [push_modify]
  show (Except.ok _, known (s.heap.functions.push function)) = _
  simp only [known, hlast, hcalled, Bool.false_or, decide_eq_true_eq]
  rfl

theorem isNew_blank (hs : h.IsSound) (parent : ScopeId) (name : String) (code : Code) (hd : ∀ t ∈ defaults.values, h.IsValue t)
    (hkeys : ∀ name, name ∈ defaults.keys ↔ name ∈ code.params.optional) (hf : Completes finish) : Heap.Evolves h (h.withFrame parent name) ∧
      IsNew (h.withFrame parent name) code (finish (h.blank parent name code defaults)) := by
  obtain ⟨he1, ht⟩ := (newType_value (h := h) (.function ⟨h.functions.size⟩ none) (by simp [Heap.Fits])
    trivial (by simp)).run hs
  have he2 : Heap.Evolves h (h.withFrame parent name) := he1.trans (.single (.newScope (h.frame parent name) rfl))
  have hsame := hf.same (h.blank parent name code defaults)
  refine ⟨he2, ?_, by rwa [hf.defaults], hsame.code, hsame.called, hsame.arrows, hsame.native, hf.yields _⟩
  refine hf.sound _ _ ⟨?_, (he2.isSound hs).isValue_unknown, by simp [Heap.blank], fun t ht => he2.isValue (hd t ht),
    by simp [Heap.blank], by simp [Heap.blank]⟩
  exact (Heap.Evolves.single (.newScope (h.frame parent name) rfl)).isValue ht

theorem functionOf_agrees (fits : Fits R ev ev')
    (hunit : code.unit = place.unit) (hf : Completes finish) (hn : Expr.sizeOfParams code.params < n)
    (owned : D code.unit code.item) :
    Agrees R n D s (functionOf ev place name code finish) (functionOf ev' place name code finish)
      fun f s' => ∃ c, (s'.heap.function f).code = some c ∧ c.ref = code.ref := by
  refine .of_sound fun hs => .get_bind ?_
  split
  · rename_i f hknown
    exact .pure (hs.registered _ f hknown)
  rename_i hunknown
  refine ⟨fun _ hready => ?_⟩
  -- The parameters are a run of their own, which makes the definitions in them.
  obtain ⟨heq, hends⟩ := (defaultsOf_agrees fits (D := code.OwnsInParams) code.params hn
    fun x hx => ⟨hunit.symm, hx⟩).run hs (R.params hready owned)
  rw [runOn_bind, runOn_bind, ← heq]
  rcases hrun : (defaultsOf ev place code.params).runOn env s with ⟨e | defaults, s1⟩ <;> rw [hrun] at hends
  · exact ⟨rfl, .defineBroken code owned hunknown hends.1, hends.2⟩
  · obtain ⟨hparams, hvalues, hdid⟩ := hends
    obtain ⟨hevolves, hnew⟩ := isNew_blank (hparams.isSound hs).heap place.scope name code hvalues
      (keys_of_runOn_defaultsOf hrun) hf
    refine ⟨rfl, ?_⟩
    show Ends R D s _ ((makeFunction place name code defaults finish).runOn env s1)
    rw [runOn_makeFunction env s1 place name code defaults hf]
    refine ⟨.define code _ owned hunknown hparams (hunit ▸ hdid) hevolves hnew, code, ?_, rfl⟩
    show Function.code (Array.getD (Array.push ..) ..) = _
    rw [getD_push]
    exact (congrArg Function.code (if_pos rfl)).trans hnew.code

theorem defineFunction_agrees (fits : Fits R ev ev') {name : Ident}
    (hn : Expr.sizeOfParams params + Expr.sizeOfList decorators < n)
    (hd : Within D place.unit (frameItems.stmt (.functionDef span node name params body decorators))) :
    Agrees R n D s (defineFunction ev place span node name params body decorators)
      (defineFunction ev' place span node name params body decorators)
      fun _ s' => s'.Did place.unit (ownItems.stmt (.functionDef span node name params body decorators)) := by
  simp only [Collector.stmt, Within.append, Session.Did.append, Syntax.frameItems_function] at hd ⊢
  obtain ⟨hdec, hfun⟩ := hd
  refine .bind (fits.exprs decorators (by omega) hdec) fun _ s1 _ hdid => .theHeap_bind ?_
  have hcomplete : Completes fun function => decorators.foldl Function.decorate
      { function with cls := s1.heap.classOf? place.scope } :=
    (Completes.decorators decorators).comp .withClass
  refine .bind (functionOf_agrees fits rfl hcomplete (by dsimp only; omega) (hfun _ (.head _))) ?_
  rintro f s2 hl2 ⟨c, hcode, href⟩
  refine .of_sound fun hs2 => .theHeap_bind ?_
  refine .bind (bindName_agrees (hs2.heap.functions f).type) fun _ s3 hl3 _ => ?_
  -- From here on only a binding is marked, if at all.
  have hpost : ∀ {s4 : Session}, s3.Later s4 → s4.Did place.unit (ownItems.exprs decorators) ∧
      s4.Did place.unit [.function node params (.block body)] := by
    intro s4 hl4
    refine ⟨((hl2.trans hl3).trans hl4).did hdid, fun x hx => ?_⟩
    rw [List.mem_singleton.1 hx]
    exact (hl3.trans hl4).happened (x := .function node params (.block body)) ⟨f, c, hcode, href⟩
  split
  · refine .theHeap_bind ((Agrees.forM _ fun b _ s4 _ => ?_).mono fun _ s5 hl5 _ => hpost hl5)
    have hmark : Does s4.heap (modifyBinding b fun binding => { binding with isStatic := true }) fun _ _ => True :=
      .change (.markStatic b) trivial
    exact .lift hmark
  · exact .pure (hpost (.refl s3))

theorem lambdaType_agrees (fits : Fits R ev ev')     {body : Expr} (hn : Expr.sizeOfParams params < n)
    (hd : Within D place.unit (frameItems.expr (.lambda span node params body))) :
    Agrees R n D s (lambdaType ev place node params body) (lambdaType ev' place node params body) fun t s' =>
      s'.heap.IsValue t ∧ s'.Did place.unit (ownItems.expr (.lambda span node params body)) := by
  simp only [Collector.expr, Syntax.frameItems_function] at hd ⊢
  refine .bind (functionOf_agrees fits rfl .id hn (hd _ (.head _))) ?_
  rintro f s1 _ ⟨c, hcode, href⟩
  refine .of_sound fun hs1 => .theHeap_bind (.pure ⟨(hs1.heap.functions f).type, fun x hx => ?_⟩)
  rw [List.mem_singleton.1 hx]
  exact ⟨f, c, hcode, href⟩

end Functions

section Classes

theorem evaluateBase_agrees (fits : Fits R ev ev') (c : ClassId) (isNew : Bool) (base : Expr) (hn : base.size < n)
    (hd : Within D place.unit (frameItems.expr base)) :
    Agrees R n D s (evaluateBase ev place c isNew base) (evaluateBase ev' place c isNew base)
      fun _ s' => s'.Did place.unit (ownItems.expr base) := by
  refine .bind (fits.expr base hn hd) ?_
  rintro t s1 _ ⟨_, hdid⟩
  split
  · refine .theHeap_bind ((Agrees.forM _ fun m _ s2 _ => .theHeap_bind ?_).mono fun _ _ hl _ => hl.did hdid)
    split
    · exact .lift (addBase_does c m)
    · exact .pure trivial
  · exact .pure hdid

theorem evaluateClass_agrees (fits : Fits R ev ev') {name : Ident} (c : ClassId) (isNew : Bool)
    (hn : Expr.sizeOfList bases + Expr.sizeOfList keywords + Stmt.sizeOfBlock body < n)
    (hbases : Within D place.unit (frameItems.exprs bases))
    (hkeywords : Within D place.unit (frameItems.exprs keywords))
    (hbody : Within D place.unit (frameItems.block body)) :
    Agrees R n D s (evaluateClass ev place span name bases keywords body c isNew)
      (evaluateClass ev' place span name bases keywords body c isNew)
      fun _ s' => s'.Did place.unit (ownItems.exprs bases) ∧ s'.Did place.unit (ownItems.exprs keywords) ∧
        (isNew = true → s'.Did place.unit (ownItems.block body)) := by
  -- Bases are evaluated one by one, and each of them may become a superclass.
  simp only [Collector.exprs_eq _ bases] at hbases ⊢
  refine .bind (.forM_did (P := fun e s => s.Did place.unit (ownItems.expr e)) bases (fun _ _ _ hl => hl.did)
    fun e he s1 _ => ?_) fun _ s1 _ hall => ?_
  · refine evaluateBase_agrees fits c isNew e (Nat.lt_of_le_of_lt ?_ hn) (Within.flatMap.1 hbases e he)
    have := Syntax.le_sum_of_mem (f := Expr.size) he
    rw [← Expr.sizeOfList_eq] at this
    omega
  refine .bind (fits.exprs keywords (by omega) hkeywords) fun _ s2 hl2 hk => .of_sound fun hs2 => .theHeap_bind ?_
  refine .bind (bindName_agrees (hs2.heap.classes c).type) fun _ s3 hl3 _ => ?_
  have hl := hl2.trans hl3
  split
  · refine Agrees.discard (block_agrees fits body (by omega) hbody) ?_
    rintro _ s4 hl4 ⟨_, hdid⟩
    exact ⟨Session.Did.flatMap.2 fun e he => (hl.trans hl4).did (hall e he), (hl3.trans hl4).did hk, fun _ => hdid⟩
  · rename_i hold
    exact .pure ⟨Session.Did.flatMap.2 fun e he => hl.did (hall e he), hl3.did hk, fun hnew => absurd hnew hold⟩

theorem runOn_classOf_known (hknown : s.definitions.classes.get? ref = some c) :
    (classOf place ref name).runOn env s = (.ok (c, false), s) := by
  unfold classOf
  rw [runOn_get_bind, hknown]
  rfl

theorem runOn_classOf_new (hnew : s.definitions.classes.get? ref = none)
    (hmake : (newClass name (some place.scope)).run s.heap = (c, h)) :
    (classOf place ref name).runOn env s = (.ok (c, true), (s.withHeap h).addClass ref c) := by
  unfold classOf
  rw [runOn_get_bind, hnew]
  show (onHeap (newClass name (some place.scope)) >>= _).runOn env s = _
  rw [runOn_onHeap_bind, hmake]
  rfl

theorem defineClass_agrees (fits : Fits R ev ev') {name : Ident}
    (hn : (Stmt.classDef span node name bases keywords body decorators).size ≤ n)
    (hd : Within D place.unit (frameItems.stmt (.classDef span node name bases keywords body decorators))) :
    Agrees R n D s (defineClass ev place span node name bases keywords body decorators)
      (defineClass ev' place span node name bases keywords body decorators)
      fun _ s' => s'.Did place.unit (ownItems.stmt (.classDef span node name bases keywords body decorators)) := by
  simp only [Stmt.size, Collector.stmt, Within.append, Session.Did.append, Syntax.frameItems_cls] at hn hd ⊢
  obtain ⟨hdec, hbases, hkeywords, hcls⟩ := hd
  have howned : D place.unit (.cls node body) := hcls _ (.head _)
  have hbody : Within D place.unit (frameItems.block body) := fun x hx => hcls x (.tail _ hx)
  have hown : ∀ {s2 : Session}, s2.definitions.classes.get? ⟨place.unit.number, node⟩ ≠ none →
      s2.Did place.unit [.cls node body] := fun hne x hx => List.mem_singleton.1 hx ▸ hne
  refine .bind (fits.exprs decorators (by omega) hdec) fun _ s1 _ hdid => ⟨fun hs hready => ?_⟩
  rw [runOn_bind, runOn_bind]
  cases hknown : s1.definitions.classes.get? ⟨place.unit.number, node⟩ with
  | some c =>
    -- The body is left alone: it is being evaluated, or has been.
    rw [runOn_classOf_known hknown]
    refine ((evaluateClass_agrees fits c false (by omega) hbases hkeywords hbody).mono ?_).run hs hready
    rintro _ s2 hl2 ⟨hb, hk, _⟩
    exact ⟨hl2.did hdid, hb, hk, hown (hl2.classes _ (by simp [hknown]))⟩
  | none =>
    -- The class is known before its bases are evaluated, so these may refer to it.
    rcases hmake : (newClass name.text (some place.scope)).run s1.heap with ⟨c, h⟩
    obtain ⟨hevolves, _⟩ := (newClass_does name.text (some place.scope)).run hs.heap
    rw [hmake] at hevolves
    rw [runOn_classOf_new hknown hmake]
    have hs2 := hs.of_evolves hevolves
    obtain ⟨heq, hends⟩ := (evaluateClass_agrees (s := (s1.withHeap h).addClass ⟨place.unit.number, node⟩ c) fits
      c true (by omega) hbases hkeywords hbody).run (hs2.addClass _ c)
        (R.addClass (R.run hready (.of_evolves hevolves)) _ c)
    refine ⟨heq, ?_⟩
    have hl1 : s1.Later ((s1.withHeap h).addClass ⟨place.unit.number, node⟩ c) :=
      (Session.Later.of_evolves hevolves).trans (.addClass _ c)
    show Ends R D s1 _ ((evaluateClass ev place span name bases keywords body c true).runOn env _)
    rcases hrun : (evaluateClass ev place span name bases keywords body c true).runOn env
      ((s1.withHeap h).addClass ⟨place.unit.number, node⟩ c) with ⟨e | u, s3⟩ <;> rw [hrun] at hends
    · exact ⟨.defineClass place.unit node c body howned hknown hevolves hends.1 (by simp), hends.2⟩
    · obtain ⟨hrest, hb, hk, hdone⟩ := hends
      refine ⟨.defineClass place.unit node c body howned hknown hevolves hrest fun _ => hdone rfl,
        (hl1.trans hrest.later).did hdid, hb, hk, hown (hrest.later.classes _ ?_)⟩
      simp [Session.addClass]

end Classes

end Concordance
