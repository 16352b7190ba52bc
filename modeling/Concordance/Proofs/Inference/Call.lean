import Concordance.Proofs.Inference.Task

/-!
# Applications

Applying a function either finds a reason not to evaluate its body (it belongs to the library, it is being applied
already, it was applied to such parameters before) or evaluates the body as a run of its own.
-/

namespace Concordance

open Syntax (Expr Ident Param Item ownItems frameItems)

variable {args : CallArgs}

section Parameters

/-- Whatever fills parameters has a property. -/
structure Fillers.All (P : TypeId → Prop) (fill : Fillers) : Prop where
  items : ∀ t ∈ fill.items, P t
  defaults : ∀ t ∈ fill.defaults.values, P t
  entries : ∀ t ∈ fill.entries, P t

/-- All arguments have a property. -/
structure CallArgs.All (P : TypeId → Prop) (args : CallArgs) : Prop where
  positional : ∀ t ∈ args.positional, P t
  keywords : ∀ t ∈ args.keywords.values, P t
  items : ∀ t ∈ args.items, P t
  entries : ∀ t ∈ args.entries, P t

theorem CallArgs.All.mono (ha : args.All P) (hpq : ∀ t, P t → Q t) : args.All Q where
  positional t ht := hpq t (ha.positional t ht)
  keywords t ht := hpq t (ha.keywords t ht)
  items t ht := hpq t (ha.items t ht)
  entries t ht := hpq t (ha.entries t ht)

theorem CallArgs.All.empty : ({} : CallArgs).All P :=
  ⟨by simp, by simp [Table.values], by simp, by simp⟩

variable {P : TypeId → Prop} {fill : Fillers}

theorem all_or {a : Option TypeId} (ha : ∀ t ∈ a, P t) (hb : ∀ t ∈ b, P t) : ∀ t ∈ a.or b, P t := by
  cases a with
  | none => exact hb
  | some a => exact ha

theorem all_getD {a : Option TypeId} (ha : ∀ t ∈ a, P t) (hu : P .unknown) : P (a.getD .unknown) := by
  cases a with
  | none => exact hu
  | some a => exact ha a rfl

namespace Fillers.All

variable (hf : fill.All P) (hu : P .unknown) {argument : Option TypeId} (ha : ∀ t ∈ argument, P t) (name : String)

include hf

theorem default : ∀ t ∈ fill.defaults.get? name, P t := fun t ht => hf.defaults t (Table.mem_values_of_get? ht)

include hu ha

theorem positional : P (fill.positional argument name) :=
  all_getD (all_or (all_or ha hf.items) (all_or (hf.default name) hf.entries)) hu

theorem keyword : P (fill.keyword argument name) := all_getD (all_or (all_or ha (hf.default name)) hf.entries) hu

end Fillers.All

theorem bindPositional_all (hf : fill.All P) (hu : P .unknown) : ∀ (ps : List (Bool × Param Expr))
    (args : List TypeId) (keywords : Table String TypeId), (∀ t ∈ args, P t) → (∀ t ∈ keywords.values, P t) →
    (∀ b ∈ (bindPositional fill ps args keywords).1, P b.2) ∧
      (∀ t ∈ (bindPositional fill ps args keywords).2.1, P t) ∧
      ∀ t ∈ (bindPositional fill ps args keywords).2.2.values, P t
  | [], args, keywords, ha, hk => ⟨by simp [bindPositional], ha, hk⟩
  | (_, p) :: ps, t :: args, keywords, ha, hk => by
    obtain ⟨hb, hrest⟩ := bindPositional_all hf hu ps args keywords (fun u hu => ha u (.tail _ hu)) hk
    rw [bindPositional]
    exact ⟨List.forall_mem_cons.2 ⟨ha t (.head _), hb⟩, hrest⟩
  | (unnamed, p) :: ps, [], keywords, ha, hk => by
    have hk' : ∀ t ∈ (if unnamed then keywords else keywords.erase p.name.text).values, P t := by
      split
      · exact hk
      · exact fun t ht => hk t (Table.mem_values_of_erase ht)
    obtain ⟨hb, hrest⟩ := bindPositional_all hf hu ps [] _ ha hk'
    rw [bindPositional]
    refine ⟨List.forall_mem_cons.2 ⟨hf.positional hu ?_ _, hb⟩, hrest⟩
    intro t ht
    cases unnamed
    · exact hk t (Table.mem_values_of_get? ht)
    · cases ht

theorem bindKeywordOnly_all (hf : fill.All P) (hu : P .unknown) : ∀ (ps : List (Param Expr))
    (keywords : Table String TypeId), (∀ t ∈ keywords.values, P t) →
    (∀ b ∈ (bindKeywordOnly fill ps keywords).1, P b.2) ∧ ∀ t ∈ (bindKeywordOnly fill ps keywords).2.values, P t
  | [], keywords, hk => ⟨by simp [bindKeywordOnly], hk⟩
  | p :: ps, keywords, hk => by
    obtain ⟨hb, hrest⟩ := bindKeywordOnly_all hf hu ps (keywords.erase p.name.text) fun t ht =>
      hk t (Table.mem_values_of_erase ht)
    rw [bindKeywordOnly]
    exact ⟨List.forall_mem_cons.2 ⟨hf.keyword hu (fun t ht => hk t (Table.mem_values_of_get? ht)) _, hb⟩, hrest⟩

variable {h : Heap}

theorem Heap.IsSound.spreadItems (hs : h.IsSound) (ha : args.All h.IsValue) :
    (∀ t ∈ (h.spreadItems args).1, h.IsValue t) ∧ ∀ t ∈ (h.spreadItems args).2, h.IsValue t := by
  unfold Heap.spreadItems
  split
  · exact ⟨ha.positional, by simp⟩
  · rename_i t ht
    have hfits := hs.types t
    split <;> rename_i heq <;> try rw [heq] at hfits
    · exact ⟨List.forall_mem_append.2 ⟨ha.positional, hfits⟩, by simp⟩
    · exact ⟨ha.positional, by simpa using hfits.1⟩
    · exact ⟨ha.positional, by simpa using hs.isValue_unknown⟩

theorem Heap.IsSound.spreadEntries (args : CallArgs) (hs : h.IsSound) :
    ∀ t ∈ h.spreadEntries args, h.IsValue t := by
  unfold Heap.spreadEntries
  split
  · simp
  · rename_i t ht
    have hfits := hs.types t
    split <;> rename_i heq
    · rw [heq] at hfits
      simpa using hfits.2
    · simp

theorem takeReceiver_values
    (hr : ∀ t ∈ receiver, h.IsValue t) : ∀ b ∈ (takeReceiver function receiver named).1, h.IsValue b.2 := by
  unfold takeReceiver
  split
  · rename_i r _ p rest
    split
    · simp
    · simpa using hr
  · simp

theorem bindSurplus_values (p : Option (Param Expr))
    (hs : ∀ t ∈ surplus, h.IsValue t) (hi : ∀ t ∈ items, h.IsValue t) :
    Does h (bindSurplus surplus items p) fun bound h' => ∀ b ∈ bound, h'.IsValue b.2 := by
  refine .of_sound fun hsound => ?_
  unfold bindSurplus
  split
  · exact .pure (by simp)
  · split
    · refine (newList_value (all_getD hi hsound.isValue_unknown)).bind fun t h' _ ht => .pure ?_
      simpa using ht
    · refine (newTuple_value hs).bind fun t h' _ ht => .pure ?_
      simpa using ht

theorem bindKeywordSurplus_values
    (p : Option (Param Expr)) (hk : ∀ t ∈ keywords.values, h.IsValue t) (he : ∀ t ∈ entries, h.IsValue t) :
    Does h (bindKeywordSurplus keywords entries p) fun bound h' => ∀ b ∈ bound, h'.IsValue b.2 := by
  have hdict : ∀ (p : Param Expr) (h : Heap) (t : TypeId), h.IsValue t →
      Does h (do return [(p.name, ← newDict .str t)]) fun bound h' => ∀ b ∈ bound, h'.IsValue b.2 := by
    intro p h t ht
    refine .of_sound fun hsound => (newDict_value (hsound.isValue_singleton (by decide) (by decide)) ht).bind ?_
    exact fun t h' _ ht => .pure (by simpa using ht)
  unfold bindKeywordSurplus
  split
  · exact .pure (by simp)
  · refine (unionAll_value hk).bind fun t h1 he1 ht => ?_
    dsimp only
    split
    · exact (union_value ht (he1.isValue (he _ rfl))).bind fun w h2 _ hw => hdict _ h2 w hw
    · exact hdict _ h1 t ht

theorem bindParameters_values     (hf : function.IsSound h) (hr : ∀ t ∈ receiver, h.IsValue t) (ha : args.All h.IsValue) :
    Does h (bindParameters function code receiver args) fun bound h' => ∀ b ∈ bound, h'.IsValue b.2 := by
  refine .of_sound fun hs => .get_bind ?_
  obtain ⟨hpos, hitems⟩ := hs.spreadItems ha
  have hfill : Fillers.All h.IsValue ⟨(h.spreadItems args).2, function.defaults, h.spreadEntries args⟩ :=
    ⟨hitems, hf.defaults, hs.spreadEntries args⟩
  obtain ⟨hbound, hsurplus, hkeywords⟩ := bindPositional_all hfill hs.isValue_unknown
    (takeReceiver function receiver (code.params.positionalOnly.map (true, ·) ++ code.params.ordinary.map (false, ·))).2
    _ _ hpos ha.keywords
  obtain ⟨honly, hrest⟩ := bindKeywordOnly_all hfill hs.isValue_unknown code.params.keywordOnly _ hkeywords
  refine (bindSurplus_values _ hsurplus hitems).bind fun rest h1 he1 hrest1 => ?_
  refine (bindKeywordSurplus_values _ (fun t ht => he1.isValue (hrest t ht))
    fun t ht => he1.isValue (hfill.entries t ht)).bind fun krest h2 he2 hkrest => .pure ?_
  have he := he1.trans he2
  simp only [List.forall_mem_append]
  exact ⟨⟨⟨⟨fun b hb => he.isValue (takeReceiver_values hr b hb), fun b hb => he.isValue (hbound b hb)⟩,
    fun b hb => he2.isValue (hrest1 b hb)⟩, fun b hb => he.isValue (honly b hb)⟩, hkrest⟩

theorem impliedReceiver_values (function : Function) :
    Does h (impliedReceiver function) fun r h' => ∀ t ∈ r, h'.IsValue t := by
  refine .of_sound fun hs => ?_
  unfold impliedReceiver
  split
  · exact .pure (by simp)
  · rename_i c _
    split
    · exact .pure (by simp)
    · split
      · exact .get_bind (.pure (by simpa using (hs.classes c).type))
      · exact (canonOf_value c).bind fun t _ _ ht => .pure (by simpa using ht)

theorem bindPositional_idents (fill : Fillers) (ps : List (Bool × Param Expr)) (args : List TypeId)
    (keywords : Table String TypeId) :
    (bindPositional fill ps args keywords).1.map Prod.fst = ps.map fun p => p.2.name := by
  induction ps generalizing args keywords with
  | nil => rfl
  | cons p ps ih =>
    cases args with
    | nil => simp only [bindPositional, List.map_cons, ih]
    | cons t args => simp only [bindPositional, List.map_cons, ih]

theorem bindKeywordOnly_idents (fill : Fillers) (ps : List (Param Expr)) (keywords : Table String TypeId) :
    (bindKeywordOnly fill ps keywords).1.map Prod.fst = ps.map Param.name := by
  induction ps generalizing keywords with
  | nil => rfl
  | cons p ps ih => simp only [bindKeywordOnly, List.map_cons, ih]

theorem takeReceiver_idents (function : Function) (receiver : Option TypeId) (named : List (Bool × Param Expr)) :
    (takeReceiver function receiver named).1.map Prod.fst ++
      (takeReceiver function receiver named).2.map (fun p => p.2.name) = named.map fun p => p.2.name := by
  unfold takeReceiver
  split
  · split <;> simp
  · simp

theorem bindSurplus_idents (surplus : List TypeId) (items : Option TypeId) (p : Option (Param Expr)) :
    ((bindSurplus surplus items p).run h).1.map Prod.fst = p.toList.map Param.name := by
  cases p with
  | none => rfl
  | some p =>
    simp only [bindSurplus]
    split <;> rfl

theorem bindKeywordSurplus_idents (keywords : Table String TypeId) (entries : Option TypeId) (p : Option (Param Expr)) :
    ((bindKeywordSurplus keywords entries p).run h).1.map Prod.fst = p.toList.map Param.name := by
  cases p with
  | none => rfl
  | some p => cases entries <;> rfl

theorem bindParameters_idents (function : Function) (code : Code) (receiver : Option TypeId) (args : CallArgs) :
    ((bindParameters function code receiver args).run h).1.map Prod.fst = code.params.idents := by
  unfold bindParameters
  simp only [StateT.run_bind, StateT.run_get, pure_bind, StateT.run_pure]
  simp only [Bind.bind, Pure.pure, List.map_append, bindPositional_idents, bindSurplus_idents, bindKeywordOnly_idents,
    bindKeywordSurplus_idents, takeReceiver_idents]
  simp [Syntax.Params.idents, Function.comp_def]

/-- The parameters of an application with the types in its key. -/
structure Heap.Frames (h : Heap) (code : Code) (frame : List (Ident × TypeId) × TypeId) : Prop where
  values : ∀ b ∈ frame.1, h.IsValue b.2
  key : h.IsValue frame.2
  idents : frame.1.map Prod.fst = code.params.idents
  types : h.ty frame.2 = .tuple (frame.1.map Prod.snd)

theorem callFrame_frames (code : Code) {args : Option CallArgs}
    (hf : function.IsSound h) (hr : ∀ t ∈ receiver, h.IsValue t) (ha : ∀ a ∈ args, a.All h.IsValue) :
    Does h (callFrame function code receiver args) fun frame h' => h'.Frames code frame := by
  have hargs : ∀ h', Heap.Evolves h h' → (args.getD {}).All h'.IsValue := by
    intro h' he
    cases args with
    | none => exact .empty
    | some a => exact (ha a rfl).mono fun _ => he.isValue
  -- Whoever the receiver is, parameters are bound in the same way.
  have hrest : ∀ (receiver : Option TypeId) (h1 : Heap), Heap.Evolves h h1 → (∀ t ∈ receiver, h1.IsValue t) →
      Does h1 (do
        let bound ← bindParameters function code receiver (args.getD {})
        return (bound, ← newTuple (bound.map Prod.snd))) fun frame h' => h'.Frames code frame := by
    intro receiver h1 he1 hr1
    have hbind := (bindParameters_values (he1.toExtends.function hf) hr1 (hargs h1 he1)).and
      (P := fun bound _ => bound.map Prod.fst = code.params.idents) (bindParameters_idents function code ..)
    refine hbind.bind fun bound h2 he2 hb => ?_
    have hnew : Does h2 (newTuple (bound.map Prod.snd)) fun t h' => h'.IsValue t := by
      refine newTuple_value fun t ht => ?_
      obtain ⟨b, hm, rfl⟩ := List.mem_map.1 ht
      exact hb.1 b hm
    refine (hnew.and (P := fun t h' => h'.ty t = .tuple (bound.map Prod.snd)) (Heap.ty_push.trans (if_pos rfl))).bind ?_
    rintro t h3 he3 ⟨hkey, htypes⟩
    exact .pure ⟨fun b hm => he3.isValue (hb.1 b hm), hkey, hb.2, htypes⟩
  unfold callFrame
  split
  · exact (impliedReceiver_values function).bind fun r h1 he1 hr1 => hrest r h1 he1 hr1
  · exact hrest receiver h (.refl h) hr

end Parameters

variable {env : Environment} {R : Regime env} {s : Session}

section Application

theorem yieldedOr_agrees (f : FunctionId) (ht : s.heap.IsValue t) :
    Agrees R n D s (yieldedOr f t) (yieldedOr f t) fun t s' => s'.heap.IsValue t := by
  refine .of_sound fun hsound => .theHeap_bind ?_
  split
  · rename_i y hy
    exact .lift (newList_value ((hsound.heap.functions f).yields y hy))
  · exact .pure ht

theorem bodyType_agrees (fits : Fits R ev ev') (f : FunctionId) (code : Code) (scope : ScopeId) (hb : ∀ b ∈ bound, s.heap.IsValue b.2) :
    Agrees R (code.body.size + 1) code.Owns s (bodyType ev f code scope bound) (bodyType ev' f code scope bound)
      fun t s' => s'.heap.IsValue t ∧ s'.Did code.unit (ownItems.body code.body) := by
  have hd : Within code.Owns code.unit (frameItems.body code.body) := fun x hx => ⟨rfl, hx⟩
  refine .bind (.forM bound fun b hm s' hl => ?_) fun _ s1 _ _ => ?_
  · exact (bindIn_agrees (hl.isValue (hb b hm))).discard fun _ _ _ h => h
  dsimp only
  generalize code.body = body at hd ⊢
  cases body with
  | value e =>
    refine .bind (fits.expr e (Nat.lt_succ_self _) hd) ?_
    rintro t s2 _ ⟨ht, hdid⟩
    exact (yieldedOr_agrees f ht).mono fun _ _ hl hv => ⟨hv, hl.did hdid⟩
  | block b =>
    refine .bind (block_agrees fits b (Nat.lt_succ_self _) hd) ?_
    rintro t s2 _ ⟨ht, hdid⟩
    refine .of_sound fun hsound => ?_
    have hnone : s2.heap.IsValue .none := hsound.heap.isValue_singleton (by decide) (by decide)
    refine .bind (.lift (stripContinues_value ht.has hnone)) fun w s3 hl3 hw => ?_
    exact (yieldedOr_agrees f hw).mono fun _ _ hl4 hv => ⟨hv, (hl3.trans hl4).did hdid⟩

theorem runOn_applyBody (ev : Evaluator) (f : FunctionId) (code : Code) (bound : List (Ident × TypeId)) :
    (applyBody ev f code bound).runOn env s =
      (((bodyType ev f code (s.heap.function f).table bound).runOn env (s.enterCall f)).1,
        ((bodyType ev f code (s.heap.function f).table bound).runOn env (s.enterCall f)).2.leaveCall f s.callStack
          (s.heap.function f).yields) := rfl

theorem recordResult_ends (env : Environment) (D : UnitRef → Item → Prop) (f : FunctionId) {key result : TypeId}
    (hs : s.IsSound) (hk : s.heap.IsValue key) (hr : s.heap.IsValue result) :
    ∃ s', (do
        modify fun s : Session => { s with statistics.calls := s.statistics.calls + 1 }
        addArrow f key result
        return result : Analysis TypeId).runOn env s = (.ok result, s') ∧
      Run env D true (s.recordCall f key result) s' := by
  have hs' := hs.recordCall f hk hr
  have hl : s.Later (s.recordCall f key result) := .recordCall f key result
  have hwork : Does (s.recordCall f key result).heap (do
      let returns ← union (s.heap.function f).returns result
      modifyFunction f fun function => { function with returns }) fun _ _ => True := by
    refine (union_value (hl.isValue (hs.heap.functions f).returns) (hl.isValue hr)).bind fun w h' _ hw => ?_
    exact .change (.changeReturns f w hw) trivial
  exact ⟨_, rfl, .of_evolves (hwork.run hs'.heap).1⟩

theorem Session.table_enterCall (f : FunctionId) :
    ((s.enterCall f).heap.function f).table = (s.heap.function f).table := by
  rw [Session.enterCall, Heap.function_modify]
  split <;> rfl

theorem applyAnew_ends (fits : Fits R ev ev') (hs : s.IsSound) (hready : R.ready n D s)
    (isCode : (s.heap.function f).code = some code) (native : (s.heap.function f).native = none)
    (outside : f ∉ s.callStack) (setup : Heap.Evolves (s.markCalled f).heap h) (frames : h.Frames code (bound, key)) :
    (applyAnew ev f code bound key).runOn env ((s.markCalled f).withHeap h) =
        (applyAnew ev' f code bound key).runOn env ((s.markCalled f).withHeap h) ∧
      Ends R D s (fun t s' => s'.heap.IsValue t ∧ (s.markCalled f).Later s')
        ((applyAnew ev f code bound key).runOn env ((s.markCalled f).withHeap h)) := by
  have hs1 : Session.IsSound ((s.markCalled f).withHeap h) := (hs.markCalled f).of_evolves setup
  have hl1 : Session.Later ((s.markCalled f).withHeap h) (((s.markCalled f).withHeap h).enterCall f) :=
    .enterCall f
  obtain ⟨heq, hends⟩ := (bodyType_agrees fits f code (h.function f).table fun b hm => hl1.isValue (frames.values b hm)).run
    (hs1.enterCall f) (R.enter hready hs isCode native outside setup)
  have hstack : ((s.markCalled f).withHeap h).callStack = s.callStack := rfl
  have hheap : ((s.markCalled f).withHeap h).heap = h := rfl
  unfold applyAnew
  rw [runOn_bind, runOn_bind, runOn_applyBody, runOn_applyBody, hstack, hheap, ← heq]
  rcases hrun : (bodyType ev f code (h.function f).table bound).runOn env
    (((s.markCalled f).withHeap h).enterCall f) with ⟨e | t, s2⟩ <;> rw [hrun] at hends
  · exact ⟨rfl, .applyBroken f code isCode native outside setup hends.1, hends.2⟩
  · obtain ⟨hbody, ht, hdid⟩ := hends
    have hk2 : s2.heap.IsValue key := (hl1.trans hbody.later).isValue frames.key
    -- Recording starts from the session in which the stack has been put back.
    have hs3 : (s2.leaveCall f s.callStack (h.function f).yields).IsSound :=
      (hbody.isSound (hs1.enterCall f)).leaveCall f _ fun y hy =>
        (hl1.trans hbody.later).isValue ((hs1.heap.functions f).yields y hy)
    have hl3 : s2.Later (s2.leaveCall f s.callStack (h.function f).yields) := .leaveCall f _ _
    obtain ⟨s4, hrec, hr4⟩ := recordResult_ends env D f hs3 (hl3.isValue hk2) (hl3.isValue ht)
    have hran : ∃ fuel bound, bound.map Prod.fst = code.params.idents ∧ h.ty key = .tuple (bound.map Prod.snd) ∧
        (bodyType (.withFuel fuel) f code ((((s.markCalled f).withHeap h).enterCall f).heap.function f).table
          bound).runOn env (((s.markCalled f).withHeap h).enterCall f) = (.ok t, s2) := by
      obtain ⟨fuel, rfl⟩ := fits.plain
      refine ⟨fuel, bound, frames.idents, frames.types, ?_⟩
      rw [← hrun]
      exact congrArg (fun table => (bodyType _ f code table bound).runOn env _) (Session.table_enterCall f)
    have happly : Run env D true s _ :=
      .apply f code key t isCode native outside setup hbody hdid ⟨hk2, ht, hran⟩
    refine ⟨rfl, ?_⟩
    show Ends R D s _ (Analysis.runOn _ env (s2.leaveCall f s.callStack (h.function f).yields))
    rw [hrec]
    have hl4 : s2.Later s4 := (hl3.trans (.recordCall f key t)).trans hr4.later
    exact ⟨happly.trans hr4, hl4.isValue ht,
      ((Session.Later.of_evolves setup).trans (hl1.trans hbody.later)).trans hl4⟩

theorem runOn_apply (ev : Evaluator) (f : FunctionId) (receiver : Option TypeId) (args : Option CallArgs) :
    (apply ev f receiver args).runOn env s = (applyMarked ev f receiver args).runOn env (s.markCalled f) := rfl

theorem function_markCalled (f : FunctionId) :
    (s.markCalled f).heap.function f = { s.heap.function f with called := true } ∨
      (s.markCalled f).heap.function f = s.heap.function f := by
  have := Heap.function_modify (h := s.heap) f f fun g => { g with called := true }
  split at this
  · exact .inl this
  · exact .inr this

theorem native_markCalled (f : FunctionId) :
    ((s.markCalled f).heap.function f).native = (s.heap.function f).native := by
  rcases function_markCalled (s := s) f with h | h <;> rw [h]

theorem arrows_markCalled (f : FunctionId) :
    ((s.markCalled f).heap.function f).arrows = (s.heap.function f).arrows := by
  rcases function_markCalled (s := s) f with h | h <;> rw [h]

theorem runOn_applyMarked     {args : Option CallArgs}
    (isCode : (s.heap.function f).code = some code) (native : (s.heap.function f).native = none)
    (outside : f ∉ s.callStack) (hframe : (callFrame (s.heap.function f) code receiver args).run s.heap = (frame, h)) :
    (applyMarked ev f receiver args).runOn env s = match h.arrow? f frame.2 with
      | some result => (.ok result, s.withHeap h)
      | none => (applyAnew ev f code frame.1 frame.2).runOn env (s.withHeap h) := by
  unfold applyMarked
  rw [runOn_theHeap_bind]
  simp only [native, isCode, Option.isSome_none, Bool.false_eq_true, if_false]
  rw [runOn_get_bind, if_neg outside]
  show (onHeap (callFrame (s.heap.function f) code receiver args) >>= _).runOn env s = _
  rw [runOn_onHeap_bind, hframe]
  show (theHeap >>= _).runOn env (s.withHeap h) = _
  rw [runOn_theHeap_bind]
  show Analysis.runOn (match h.arrow? f frame.2 with
    | some result => Pure.pure result
    | none => applyAnew ev f code frame.1 frame.2) env (s.withHeap h) = _
  -- An arrow that is found spares the evaluation.
  cases h.arrow? f frame.2 <;> rfl

theorem apply_settled {args : Option CallArgs} (settled : s.Settled f)
    (hx : Agrees R n D (s.markCalled f) (applyMarked ev f receiver args) (applyMarked ev' f receiver args) Q) :
    Agrees R n D s (apply ev f receiver args) (apply ev' f receiver args) fun t s' =>
      Q t s' ∧ (s.markCalled f).Later s' := by
  refine ⟨fun hs hready => ?_⟩
  have hrun : Run env D true s (s.markCalled f) := .mark f settled
  obtain ⟨heq, hends⟩ := (hx.mono fun t s' hl hq => And.intro hq hl).run (hs.markCalled f) (R.run hready hrun)
  rw [runOn_apply, runOn_apply]
  exact ⟨heq, hends.after hrun⟩

theorem apply_body (fits : Fits R ev ev')     {args : Option CallArgs} (isCode : (s.heap.function f).code = some code)
    (native : (s.heap.function f).native = none) (outside : f ∉ s.callStack)
    (hr : ∀ t ∈ receiver, s.heap.IsValue t) (ha : ∀ a ∈ args, a.All s.heap.IsValue) :
    Agrees R n D s (apply ev f receiver args) (apply ev' f receiver args) fun t s' =>
      s'.heap.IsValue t ∧ (s.markCalled f).Later s' := by
  refine ⟨fun hs hready => ?_⟩
  have hm := hs.markCalled f
  have hl : s.Later (s.markCalled f) := .markCalled f
  obtain ⟨hevolves, hframes⟩ := (callFrame_frames code (hm.heap.functions f)
    (fun t ht => hl.isValue (hr t ht)) fun a hmem => (ha a hmem).mono fun _ => hl.isValue).run hm.heap
  rcases hframe : (callFrame ((s.markCalled f).heap.function f) code receiver args).run (s.markCalled f).heap
    with ⟨frame, h⟩
  rw [hframe] at hevolves hframes
  rw [runOn_apply, runOn_apply,
    runOn_applyMarked ((Session.code_markCalled f f).trans isCode) ((native_markCalled f).trans native) outside hframe,
    runOn_applyMarked ((Session.code_markCalled f f).trans isCode) ((native_markCalled f).trans native) outside hframe]
  cases harrow : h.arrow? f frame.2 with
  | none => exact applyAnew_ends fits hs hready isCode native outside hevolves hframes
  | some result =>
    obtain ⟨a, hfind, rfl⟩ := Option.map_eq_some_iff.1 harrow
    have hmem := List.mem_of_find?_eq_some hfind
    -- The arrow found was there before.
    have hne : (s.heap.function f).arrows ≠ [] := by
      obtain ⟨r, hsame⟩ := hevolves.function f
      rw [hsame] at hmem
      exact arrows_markCalled (s := s) f ▸ List.ne_nil_of_mem hmem
    have hrun : Run env D true s (s.markCalled f) := .mark f (.inr (.inr (.inr hne)))
    exact ⟨rfl, hrun.trans (.of_evolves hevolves), (((hevolves.isSound hm.heap).functions f).arrows a hmem).2,
      .of_evolves hevolves⟩

theorem apply_marks (fits : Fits R ev ev') (f : FunctionId) {args : Option CallArgs}
    (hr : ∀ t ∈ receiver, s.heap.IsValue t) (ha : ∀ a ∈ args, a.All s.heap.IsValue) :
    Agrees R n D s (apply ev f receiver args) (apply ev' f receiver args) fun t s' =>
      s'.heap.IsValue t ∧ (s.markCalled f).Later s' := by
  refine .of_sound fun hs => ?_
  have hunknown : (s.markCalled f).heap.IsValue .unknown := (hs.markCalled f).heap.isValue_unknown
  -- The cases follow the guards: native, without a body, being applied.
  cases hnative : (s.heap.function f).native with
  | some r =>
    refine apply_settled (.inl (by simp [hnative])) (.theHeap_bind ?_)
    simp only [native_markCalled, hnative, Option.isSome_some, if_true]
    exact .lift (nativeResult_value f)
  | none =>
    cases hcode : (s.heap.function f).code with
    | none =>
      refine apply_settled (.inr (.inl hcode)) (.theHeap_bind ?_)
      simp only [native_markCalled, hnative, Session.code_markCalled, hcode, Option.isSome_none,
        Bool.false_eq_true, if_false]
      exact .pure hunknown
    | some code =>
      by_cases hstack : f ∈ s.callStack
      · refine apply_settled (.inr (.inr (.inl hstack))) (.theHeap_bind ?_)
        simp only [native_markCalled, hnative, Session.code_markCalled, hcode, Option.isSome_none,
          Bool.false_eq_true, if_false]
        refine .get_bind ?_
        rw [if_pos (show f ∈ (s.markCalled f).callStack from hstack),
          if_pos (show f ∈ (s.markCalled f).callStack from hstack)]
        exact .pure hunknown
      · exact apply_body fits hcode hnative hstack hr ha

theorem apply_agrees (fits : Fits R ev ev') (f : FunctionId) {args : Option CallArgs}
    (hr : ∀ t ∈ receiver, s.heap.IsValue t) (ha : ∀ a ∈ args, a.All s.heap.IsValue) :
    Agrees R n D s (apply ev f receiver args) (apply ev' f receiver args) fun t s' => s'.heap.IsValue t :=
  (apply_marks fits f hr ha).mono fun _ _ _ h => h.1

theorem applyTo_agrees (fits : Fits R ev ev') (f : FunctionId) {receiver : TypeId}
    (hr : s.heap.IsValue receiver) (ha : args.All s.heap.IsValue) :
    Agrees R n D s (apply ev f (some receiver) (some args)) (apply ev' f (some receiver) (some args))
      fun t s' => s'.heap.IsValue t := by
  refine apply_agrees fits f ?_ ?_
  · rintro t ⟨⟩
    exact hr
  · rintro a ⟨⟩
    exact ha

theorem merge_agrees {α : Type} {f g : α → Analysis TypeId} (xs : List α)
    (hf : ∀ x ∈ xs, ∀ s', s.Later s' → Agrees R n D s' (f x) (g x) fun t s'' => s''.heap.IsValue t)
    (ht : s.heap.IsValue t) :
    Agrees R n D s (xs.foldlM (fun acc x => do union acc (← f x)) t) (xs.foldlM (fun acc x => do union acc (← g x)) t)
      fun t s' => s'.heap.IsValue t := by
  refine .foldlM (I := fun t s => s.heap.IsValue t) xs (fun x hx acc s' hl hacc => ?_) ht
  exact .bind (hf x hx s' hl) fun u s'' hl' hu => .lift (union_value (hl'.isValue hacc) hu)

section

variable (fits : Fits R ev ev')
include fits

theorem applyAll_agrees (fs : List FunctionId) {receiver : TypeId}
    (hr : s.heap.IsValue receiver) (ha : args.All s.heap.IsValue) :
    Agrees R n D s (applyAll ev fs receiver args) (applyAll ev' fs receiver args) fun t s' => s'.heap.IsValue t := by
  refine .of_sound fun hs => merge_agrees fs (fun f _ s' hl => ?_) hs.heap.isValue_unknown
  exact applyTo_agrees fits f (hl.isValue hr) (ha.mono fun _ => hl.isValue)

theorem initialise_agrees (bindings : List BindingId)
    (ho : s.heap.IsValue object) (ha : args.All s.heap.IsValue) :
    Agrees R n D s (initialise ev object args bindings) (initialise ev' object args bindings) fun _ _ => True := by
  refine .forM bindings fun b _ s1 hl1 => .theHeap_bind (.forM _ fun f _ s2 hl2 => ?_)
  have hl := hl1.trans hl2
  exact (applyTo_agrees fits f (hl.isValue ho) (ha.mono fun _ => hl.isValue)).discard fun _ _ _ _ => trivial

theorem construct_agrees (c : ClassId) (ha : args.All s.heap.IsValue) :
    Agrees R n D s (construct ev c args) (construct ev' c args) fun t s' => s'.heap.IsValue t := by
  refine .of_sound fun hs => .theHeap_bind ?_
  dsimp only
  split
  · rename_i r hr
    exact .lift (build_value r ((hs.heap.classes c).factory r hr))
  · refine .bind (.lift (canonOf_value c)) fun o s1 hl1 ho => .theHeap_bind ?_
    refine .bind (initialise_agrees fits _ ho (ha.mono fun _ => hl1.isValue)) fun _ s2 hl2 _ => .pure ?_
    exact hl2.isValue ho

theorem callOne_agrees (hc : s.heap.IsValue callee) (ha : args.All s.heap.IsValue) :
    Agrees R n D s (callOne ev callee args) (callOne ev' callee args) fun t s' => s'.heap.IsValue t := by
  refine .of_sound fun hs => .theHeap_bind ?_
  have hfits := hs.heap.types callee
  split <;> rename_i heq <;> try rw [heq] at hfits
  · refine apply_agrees fits _ hfits ?_
    rintro a ⟨⟩
    exact ha
  · exact construct_agrees fits _ ha
  · exact applyAll_agrees fits _ hc ha
  · exact .pure hs.heap.isValue_unknown

theorem call_agrees (hc : s.heap.IsValue callee) (ha : args.All s.heap.IsValue) :
    Agrees R n D s (call ev callee args) (call ev' callee args) fun t s' => s'.heap.IsValue t := by
  refine .of_sound fun hs => .theHeap_bind (merge_agrees _ (fun t ht s' hl => ?_) hs.heap.isValue_unknown)
  exact callOne_agrees fits (hl.isValue (hs.heap.isValue_of_mem_members hc ht)) (ha.mono fun _ => hl.isValue)

theorem callMethod_agrees {receiver : TypeId} (name : String)
    (hr : s.heap.IsValue receiver) :
    Agrees R n D s (callMethod? ev receiver name) (callMethod? ev' receiver name)
      fun t s' => ∀ u ∈ t, s'.heap.IsValue u := by
  refine .theHeap_bind ?_
  split
  · exact .pure (by simp)
  · refine .bind (applyAll_agrees fits _ hr .empty) fun t s' _ ht => .pure ?_
    simpa using ht

end

end Application

end Concordance
