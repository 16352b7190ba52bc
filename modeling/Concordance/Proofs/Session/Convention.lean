import Concordance.Proofs.Session.Vetting

/-!
# The calling convention

What a call without spread arguments gives the parameters of a function, as the language says it, and that the
parameters are bound to it.
-/

namespace Concordance

open Syntax (Expr Ident Item Param Params)

namespace Calling

/-- What a parameter is given by a call. -/
inductive Given
  | argument (type : TypeId)
  /-- The default of the parameter. -/
  | fallback
  /-- The positional arguments that are left. -/
  | surplus (types : List TypeId)
  /-- The keyword arguments that are left. -/
  | entries (types : List TypeId)
deriving DecidableEq

/-- The positional parameters, each marked if it cannot be named by a keyword. -/
def positionalParams (params : Params Expr) : List (Bool × Param Expr) :=
  params.positionalOnly.map (true, ·) ++ params.ordinary.map (false, ·)

section Rules

variable (params : Params Expr) (args : List TypeId) (keywords : Table String TypeId)

/-- A parameter gets the argument at its place, or else the keyword argument of its name, if it can be named, or else its
default. -/
def slot (named : Bool) (argument : Option TypeId) (p : Param Expr) : Ident × Given :=
  (p.name, ((argument.or (if named then keywords.get? p.name.text else none)).map .argument).getD .fallback)

/-- The names of the parameters that can be named. -/
def nameable : List String := (params.ordinary ++ params.keywordOnly).map fun p => p.name.text

/-- What the parameters are given, in the order of declaration. The receiver counts as the first positional argument. -/
def given : List (Ident × Given) :=
  (positionalParams params).mapIdx (fun i p => slot keywords (!p.1) args[i]? p.2) ++
    params.rest.toList.map (fun p => (p.name, .surplus (args.drop (positionalParams params).length))) ++
    params.keywordOnly.map (slot keywords true none) ++
    params.keywordRest.toList.map fun p =>
      (p.name, .entries ((keywords.entries.filter fun e => e.1 ∉ nameable params).map Prod.snd))

/-- A call is accepted: the positional arguments find places, the keyword arguments find names, no parameter is given two
arguments, and those that get their default have one. -/
structure Accepts : Prop where
  places : params.rest.isSome ∨ args.length ≤ (positionalParams params).length
  names : params.keywordRest.isSome ∨ ∀ k ∈ keywords.keys, k ∈ nameable params
  once : ∀ p ∈ params.ordinary.take (args.length - params.positionalOnly.length), p.name.text ∉ keywords.keys
  defaults : ∀ x ∈ given params args keywords, x.2 = .fallback → x.1.text ∈ params.optional

instance : Decidable (Accepts params args keywords) :=
  decidable_of_iff (_ ∧ _ ∧ _ ∧ _) ⟨fun h => ⟨h.1, h.2.1, h.2.2.1, h.2.2.2⟩, fun h => ⟨h.1, h.2, h.3, h.4⟩⟩

end Rules

/-- The type of what a parameter is given: a tuple of positional arguments, or a list of nothing known if there are none,
and a dictionary from texts to the merged types of keyword arguments. -/
def Given.build (defaults : Table String TypeId) (i : Ident) : Given → HeapM TypeId
  | .argument t => return t
  | .fallback => return (defaults.get? i.text).getD .unknown
  | .surplus [] => newList .unknown
  | .surplus ts => newTuple ts
  | .entries ts => do newDict .str (← unionAll ts)

def buildEntry (defaults : Table String TypeId) (x : Ident × Given) : HeapM (Ident × TypeId) := do
  return (x.1, ← x.2.build defaults x.1)

section Tables

variable {keywords : Table String TypeId} {names : List String}

/-- A table without certain keys. -/
def without (keywords : Table String TypeId) (names : List String) : Table String TypeId :=
  ⟨keywords.entries.filter fun e => e.1 ∉ names⟩

theorem without_nil : without keywords [] = keywords := by simp [without]

theorem without_without (more : List String) : without (without keywords names) more = without keywords (names ++ more) := by
  simp [without, List.filter_filter, Bool.and_comm]

theorem erase_eq_without : keywords.erase name = without keywords [name] := by simp [without, Table.erase]

theorem get?_without (hn : name ∉ names) : (without keywords names).get? name = keywords.get? name := by
  rw [Table.get?, Table.get?, without, List.find?_filter]
  congr 2
  funext e
  by_cases he : e.1 = name
  · simp [he, hn]
  · simp [he]

end Tables

section Binding

variable {fill : Fillers} {keywords : Table String TypeId}

/-- The keyword argument of a parameter, if it can be named. -/
def keywordOf (keywords : Table String TypeId) (named : Bool) (p : Param Expr) : Option TypeId :=
  if named then keywords.get? p.name.text else none

theorem keywordOf_without {p : Param Expr} (hp : p.name.text ∉ names) (named : Bool) :
    keywordOf (without keywords names) named p = keywordOf keywords named p := by
  rw [keywordOf, keywordOf, get?_without hp]

/-- What a positional parameter is bound to, given the argument at its place. -/
def bindAt (fill : Fillers) (keywords : Table String TypeId) (argument : Option TypeId) (p : Bool × Param Expr) :
    Ident × TypeId :=
  (p.2.name, argument.getD (fill.positional (keywordOf keywords (!p.1) p.2) p.2.name.text))

/-- The names by which some of the positional parameters can be reached. -/
def taken (ps : List (Bool × Param Expr)) : List String := (ps.filter fun p => !p.1).map fun p => p.2.name.text

theorem bindPositional_eq (ps : List (Bool × Param Expr)) (args : List TypeId)
    (hnames : (ps.map fun p => p.2.name.text).Nodup) :
    bindPositional fill ps args keywords =
      (ps.mapIdx fun i => bindAt fill keywords args[i]?, args.drop ps.length, without keywords (taken (ps.drop args.length))) := by
  induction ps generalizing args keywords with
  | nil => simp [bindPositional, taken, without_nil]
  | cons p ps ih =>
    obtain ⟨unnamed, p⟩ := p
    rw [List.map_cons, List.nodup_cons] at hnames
    cases args with
    | cons t args =>
      rw [bindPositional, ih args hnames.2, List.mapIdx_cons]
      simp [bindAt]
    | nil =>
      rw [bindPositional, ih [] hnames.2, List.mapIdx_cons]
      cases unnamed with
      | true => simp [bindAt, keywordOf, taken]
      | false =>
        -- The other parameters have other names, so the keyword of this one is not theirs.
        have hrest : (ps.mapIdx fun _ => bindAt fill (without keywords [p.name.text]) none) =
            ps.mapIdx fun _ => bindAt fill keywords none := by
          refine List.ext_getElem (by simp) fun i hi _ => ?_
          rw [List.getElem_mapIdx, List.getElem_mapIdx, bindAt, bindAt, keywordOf_without fun hmem => hnames.1 ?_]
          exact List.mem_singleton.1 hmem ▸ List.mem_map_of_mem (List.getElem_mem _)
        simp only [Bool.false_eq_true, if_false, List.getElem?_nil, erase_eq_without, hrest, without_without]
        simp [bindAt, keywordOf, taken]

theorem bindKeywordOnly_eq (ps : List (Param Expr)) (hnames : (ps.map fun p => p.name.text).Nodup) :
    bindKeywordOnly fill ps keywords =
      (ps.map fun p => (p.name, fill.keyword (keywords.get? p.name.text) p.name.text),
        without keywords (ps.map fun p => p.name.text)) := by
  induction ps generalizing keywords with
  | nil => simp [bindKeywordOnly, without_nil]
  | cons p ps ih =>
    rw [List.map_cons, List.nodup_cons] at hnames
    have hrest : ∀ q ∈ ps, (without keywords [p.name.text]).get? q.name.text = keywords.get? q.name.text :=
      fun q hq => get?_without fun hmem => hnames.1 (List.mem_singleton.1 hmem ▸ List.mem_map_of_mem hq)
    rw [bindKeywordOnly, ih hnames.2, erase_eq_without, without_without, List.map_congr_left fun q hq => by rw [hrest q hq]]
    rfl

/-- A receiver that goes to a parameter is bound like a first positional argument. -/
theorem takeReceiver_eq {function : Function} {receiver : Option TypeId}
    (hreceiver : ∀ r ∈ receiver, function.isStatic = false ∧ ps ≠ []) (fill : Fillers) (args : List TypeId)
    (keywords : Table String TypeId) : let kept := takeReceiver function receiver ps
    let bound := bindPositional fill kept.2 args keywords
    (kept.1 ++ bound.1, bound.2) = bindPositional fill ps (receiver.toList ++ args) keywords := by
  cases receiver with
  | none => rfl
  | some r =>
    obtain ⟨hstatic, hps⟩ := hreceiver r rfl
    obtain ⟨⟨unnamed, p⟩, ps, rfl⟩ := List.exists_cons_of_ne_nil hps
    simp [takeReceiver, hstatic, bindPositional]

theorem nodup_names {params : Params Expr} (hnames : (params.idents.map Ident.text).Nodup) :
    ((positionalParams params).map fun p => p.2.name.text).Nodup ∧ (params.keywordOnly.map fun p => p.name.text).Nodup ∧
      ∀ p ∈ params.keywordOnly, p.name.text ∉ (positionalParams params).map fun p => p.2.name.text := by
  rw [Syntax.Params.idents, List.map_map] at hnames
  have hsub : (params.positionalOnly ++ params.ordinary ++ params.keywordOnly).Sublist
      (params.positionalOnly ++ params.ordinary ++ params.rest.toList ++ params.keywordOnly ++ params.keywordRest.toList) := by
    refine (List.Sublist.append ?_ (List.Sublist.refl _)).trans (List.sublist_append_left _ _)
    exact List.sublist_append_left _ _
  have hnodup := (hsub.map _).nodup hnames
  rw [List.map_append, List.nodup_append] at hnodup
  have heq : ((positionalParams params).map fun p => p.2.name.text) =
      (params.positionalOnly ++ params.ordinary).map (Ident.text ∘ Param.name) := by
    simp [positionalParams, Function.comp_def]
  rw [heq]
  exact ⟨hnodup.1, hnodup.2.1, fun p hp hmem => hnodup.2.2 _ hmem _ (List.mem_map_of_mem hp) rfl⟩

theorem mem_taken_drop
    (hmem : name ∈ taken ((positionalParams params).drop n)) : name ∈ (positionalParams params).map fun p => p.2.name.text :=
  List.map_subset _ (fun _ hp => (List.drop_subset ..) (List.mem_filter.1 hp).1) hmem

/-- What the parameters are bound to. What is left goes to the parameters that collect it. -/
theorem run_bindParameters {function : Function} {code : Code} {receiver : Option TypeId} {call : CallArgs} (h : Heap)
    (hnames : (code.params.idents.map Ident.text).Nodup)
    (hreceiver : ∀ r ∈ receiver, function.isStatic = false ∧ positionalParams code.params ≠ []) :
    let fill : Fillers := ⟨(h.spreadItems call).2, function.defaults, h.spreadEntries call⟩
    let args := receiver.toList ++ (h.spreadItems call).1
    let ps := positionalParams code.params
    let left := taken (ps.drop args.length) ++ code.params.keywordOnly.map fun p => p.name.text
    (bindParameters function code receiver call).run h = (do
      let rest ← bindSurplus (args.drop ps.length) fill.items code.params.rest
      let keywordRest ← bindKeywordSurplus (without call.keywords left) fill.entries code.params.keywordRest
      return ps.mapIdx (fun i => bindAt fill call.keywords args[i]?) ++ rest ++
        code.params.keywordOnly.map (fun p => (p.name, fill.keyword (call.keywords.get? p.name.text) p.name.text)) ++
        keywordRest : HeapM (List (Ident × TypeId))).run h := by
  intro fill args ps left
  obtain ⟨hpositional, honly, hapart⟩ := nodup_names hnames
  have hbound := takeReceiver_eq hreceiver fill (h.spreadItems call).1 call.keywords
  rw [bindPositional_eq _ _ hpositional, Prod.mk.injEq] at hbound
  -- Keywords of positional parameters do not matter to those that only keywords reach.
  have hothers : ∀ p ∈ code.params.keywordOnly,
      (p.name, fill.keyword ((without call.keywords (taken (ps.drop args.length))).get? p.name.text) p.name.text) =
        (p.name, fill.keyword (call.keywords.get? p.name.text) p.name.text) := by
    intro p hp
    rw [get?_without fun hmem => hapart p hp (mem_taken_drop hmem)]
  let kept := takeReceiver function receiver ps
  let bound := bindPositional fill kept.2 (h.spreadItems call).1 call.keywords
  change (do
    let rest ← bindSurplus bound.2.1 fill.items code.params.rest
    let keywordRest ← bindKeywordSurplus (bindKeywordOnly fill code.params.keywordOnly bound.2.2).2 fill.entries
      code.params.keywordRest
    return kept.1 ++ bound.1 ++ rest ++ (bindKeywordOnly fill code.params.keywordOnly bound.2.2).1 ++ keywordRest :
      HeapM (List (Ident × TypeId))).run h = _
  rw [hbound.1, hbound.2, bindKeywordOnly_eq _ honly, without_without, List.map_congr_left hothers]

end Binding

section Agreement

theorem idents_given : (given params args keywords).map Prod.fst = params.idents := by
  have hslots : ((positionalParams params).mapIdx fun i p => slot keywords (!p.1) args[i]? p.2).map Prod.fst =
      (positionalParams params).map fun p => p.2.name := List.ext_getElem (by simp) fun i _ _ => by simp [slot]
  rw [given, List.map_append, List.map_append, List.map_append, hslots, positionalParams]
  simp [Syntax.Params.idents, Function.comp_def, slot]

theorem taken_positional (n : Nat) : taken ((positionalParams params).drop n) =
      (params.ordinary.drop (n - params.positionalOnly.length)).map fun p => p.name.text := by
  have hall : ∀ ps : List (Param Expr), taken (ps.map (true, ·)) = [] ∧ taken (ps.map (false, ·)) = ps.map fun p => p.name.text := by
    intro ps
    simp [taken, List.filter_map, Function.comp_def]
  rw [positionalParams, List.drop_append, ← List.map_drop, ← List.map_drop, List.length_map, taken, List.filter_append, List.map_append]
  exact congrArg₂ _ (hall _).1 (hall _).2

/-- What is left of the keyword arguments of a call that is accepted. -/
theorem without_taken (haccepts : Accepts params args keywords) :
    without keywords ((params.ordinary.drop (args.length - params.positionalOnly.length)).map (fun p => p.name.text) ++
      params.keywordOnly.map fun p => p.name.text) = without keywords (nameable params) := by
  refine congrArg Table.mk (List.filter_congr fun e he => decide_eq_decide.2 (not_congr ?_))
  have hkey : e.1 ∈ keywords.keys := List.mem_map_of_mem he
  rw [nameable, List.map_append, List.mem_append, List.mem_append]
  refine or_congr_left ⟨fun hmem => List.map_subset _ (List.drop_subset ..) hmem, fun hmem => ?_⟩
  obtain ⟨p, hp, heq⟩ := List.mem_map.1 hmem
  rw [← List.take_append_drop (args.length - params.positionalOnly.length) params.ordinary] at hp
  rcases List.mem_append.1 hp with hp | hp
  · exact absurd (heq ▸ hkey) (haccepts.once p hp)
  · exact List.mem_map.2 ⟨p, hp, heq⟩

theorem buildEntry_slot (defaults : Table String TypeId) (unnamed : Bool) (argument : Option TypeId) (p : Param Expr) :
    buildEntry defaults (slot keywords (!unnamed) argument p) =
      pure (bindAt ⟨none, defaults, none⟩ keywords argument (unnamed, p)) := by
  unfold slot bindAt Fillers.positional keywordOf
  cases argument <;> cases unnamed <;> cases keywords.get? p.name.text <;> simp [buildEntry, Given.build]

theorem mapM_slots (defaults : Table String TypeId) (ps : List (Bool × Param Expr)) (argument : Nat → Option TypeId) :
    (ps.mapIdx fun i p => slot keywords (!p.1) (argument i) p.2).mapM (buildEntry defaults) =
      pure (ps.mapIdx fun i => bindAt ⟨none, defaults, none⟩ keywords (argument i)) := by
  induction ps generalizing argument with
  | nil => rfl
  | cons p ps ih =>
    rw [List.mapIdx_cons, List.mapM_cons, buildEntry_slot, ih, List.mapIdx_cons]
    rfl

theorem mapM_keywordSlots (defaults : Table String TypeId) (ps : List (Param Expr)) :
    (ps.map (slot keywords true none)).mapM (buildEntry defaults) =
      pure (ps.map fun p => (p.name, Fillers.keyword ⟨none, defaults, none⟩ (keywords.get? p.name.text) p.name.text)) := by
  induction ps with
  | nil => rfl
  | cons p ps ih =>
    rw [List.map_cons, List.mapM_cons, show true = !false from rfl, buildEntry_slot, ← show true = !false from rfl, ih]
    simp [bindAt, keywordOf, Fillers.positional, Fillers.keyword]

/-- A call that is accepted binds the parameters to what they are given. -/
theorem bindParameters_eq {function : Function} {code : Code} {receiver : Option TypeId} {call : CallArgs}
    (hnames : (code.params.idents.map Ident.text).Nodup) (hitems : call.items = none) (hentries : call.entries = none)
    (hreceiver : ∀ r ∈ receiver, function.isStatic = false ∧ positionalParams code.params ≠ [])
    (haccepts : Accepts code.params (receiver.toList ++ call.positional) call.keywords) :
    bindParameters function code receiver call =
      (given code.params (receiver.toList ++ call.positional) call.keywords).mapM (buildEntry function.defaults) := by
  funext h
  refine (run_bindParameters h hnames hreceiver).trans ?_
  rw [Heap.spreadItems, hitems, Heap.spreadEntries, hentries]
  dsimp only
  rw [taken_positional, without_taken haccepts, given, List.mapM_append, List.mapM_append, List.mapM_append, mapM_slots,
    mapM_keywordSlots]
  have hrest : ∀ surplus, bindSurplus surplus none code.params.rest =
      (code.params.rest.toList.map fun p => (p.name, Given.surplus surplus)).mapM (buildEntry function.defaults) := by
    intro surplus
    cases code.params.rest <;> cases surplus <;> rfl
  have hkeywordRest : ∀ keywords, bindKeywordSurplus keywords none code.params.keywordRest =
      (code.params.keywordRest.toList.map fun p => (p.name, Given.entries keywords.values)).mapM
        (buildEntry function.defaults) := by
    intro keywords
    cases code.params.keywordRest <;> rfl
  rw [hrest, hkeywordRest]
  simp only [pure_bind, bind_assoc]
  rfl

end Agreement

end Calling

open Calling (Accepts Given buildEntry given positionalParams)

section Defaults

variable {env : Environment} {s : Session} {h h' : Heap}

/-- Functions have recorded the defaults of exactly those parameters that have one. -/
def Heap.RecordsDefaults (h : Heap) : Prop := ∀ f code, (h.function f).code = some code →
  ∀ name, name ∈ (h.function f).defaults.keys ↔ name ∈ code.params.optional

namespace Heap.RecordsDefaults

theorem congr (hd : h.RecordsDefaults) (same : ∀ f, (h'.function f).code = (h.function f).code ∧
    (h'.function f).defaults = (h.function f).defaults) : h'.RecordsDefaults := by
  intro f code hcode
  rw [(same f).1] at hcode
  rw [(same f).2]
  exact hd f code hcode

theorem modify (hd : h.RecordsDefaults) (f : FunctionId)
    (hc : ∀ g, (change g).code = g.code ∧ (change g).defaults = g.defaults) :
    RecordsDefaults { h with functions := h.functions.modify f.index change } := by
  refine hd.congr fun g => ?_
  rw [function_modify]
  split
  · exact hc _
  · exact ⟨rfl, rfl⟩

theorem evolves (hd : h.RecordsDefaults) (he : Evolves h h') : h'.RecordsDefaults := by
  refine hd.congr fun f => ?_
  obtain ⟨r, hr⟩ := he.function f
  rw [hr]
  exact ⟨rfl, rfl⟩

section

variable (hd : s.heap.RecordsDefaults)
include hd

theorem define {code : Code} {function : Function} (made : IsNew h code function) :
    (s.define code function).heap.RecordsDefaults := by
  intro f c hc
  have hfun : (s.define code function).heap.function f = if f = ⟨s.heap.functions.size⟩ then function else s.heap.function f :=
    Heap.function_push f function
  rw [hfun] at hc ⊢
  split at hc
  · rename_i heq
    rw [if_pos heq]
    cases made.code.symm.trans hc
    exact made.defaults
  · rename_i hne
    rw [if_neg hne]
    exact hd f c hc

theorem enter (setup : Evolves (s.markCalled f).heap h) :
    (((s.markCalled f).withHeap h).enterCall f).heap.RecordsDefaults := by
  have hmark : (s.markCalled f).heap.RecordsDefaults := hd.modify f fun _ => ⟨rfl, rfl⟩
  exact (hmark.evolves setup).modify f fun _ => ⟨rfl, rfl⟩

theorem leaveCall (f : FunctionId) (stack : List FunctionId) (yields : Option TypeId) :
    (s.leaveCall f stack yields).heap.RecordsDefaults := hd.modify f fun _ => ⟨rfl, rfl⟩

theorem recordCall (f : FunctionId) (key result : TypeId) :
    (s.recordCall f key result).heap.RecordsDefaults := hd.modify f fun _ => ⟨rfl, rfl⟩

end

/-- The functions of the library have no code. -/
theorem ofLibrary {library : Table String ClassId × Heap} (hb : library.2.IsBare) :
    (Session.ofLibrary library).heap.RecordsDefaults := by
  intro f code hcode
  cases (hb.codes f).symm.trans hcode

end Heap.RecordsDefaults

theorem Session.Change.recordsDefaults (hc : Session.Change env s s') (hd : s.heap.RecordsDefaults) :
    s'.heap.RecordsDefaults := by
  cases hc with
  | heap h hc => exact hd.evolves (.single hc)
  | yields f t => exact hd.modify f fun _ => ⟨rfl, rfl⟩
  | _ => exact hd

theorem Run.recordsDefaults (hr : Run env D b s s') (hd : s.heap.RecordsDefaults) : s'.heap.RecordsDefaults := by
  induction hr with
  | refl => exact hd
  | change hc => exact hc.recordsDefaults hd
  | trans _ _ ih ih' => exact ih' (ih hd)
  | stop _ ih | defineBroken _ _ _ _ ih => exact ih hd
  | define _ _ _ _ _ _ setup made ih => exact Heap.RecordsDefaults.define ((ih hd).evolves setup) made
  | defineClass _ _ _ _ _ _ setup _ _ ih => exact ih (hd.evolves setup)
  | mark f => exact hd.modify f fun _ => ⟨rfl, rfl⟩
  | apply f _ key result _ _ _ setup _ _ _ ih => exact ((ih (hd.enter setup)).leaveCall f _ _).recordCall f key result
  | applyBroken f _ _ _ _ setup _ ih => exact (ih (hd.enter setup)).leaveCall f _ _
  | load _ _ _ _ _ _ _ _ ih ih' | loadBroken _ _ _ _ _ _ _ ih ih' => exact ih' (ih hd)
  | loadFailed _ _ _ _ ih => exact ih hd

theorem Move.recordsDefaults (hm : Move env step b s s') (hd : s.heap.RecordsDefaults) : s'.heap.RecordsDefaults := by
  induction hm with
  | run hr => exact hr.recordsDefaults hd
  | trans _ _ ih ih' => exact ih' (ih hd)
  | recover _ _ ih | within _ _ ih => exact ih hd
  | _ => exact hd

theorem Reachable.recordsDefaults (hs : Reachable s) : s.heap.RecordsDefaults := by
  induction hs with
  | empty => exact .ofLibrary (bindLibrary_prepares.run initial_isBare).1
  | step hs env step ih =>
    obtain ⟨_, hm⟩ := hs.moves env step
    exact hm.recordsDefaults ih

def Regime.documented (env : Environment) : Regime env where
  ready _ _ s := s.heap.RecordsDefaults
  faults _ := True
  faults_of_cause _ _ := trivial
  params hd _ := hd
  run hd hr := hr.recordsDefaults hd
  addClass hd _ _ := hd
  enter hd _ _ _ _ setup := hd.enter setup
  enterFile hd _ _ parsing _ := parsing.recordsDefaults hd

end Defaults

/-- A call without spread arguments that is accepted, with a receiver only where a parameter takes it, binds every
parameter of a function to what it is given, and the defaults that are given are recorded. -/
def Heap.FollowsConvention (h : Heap) : Prop :=
  ∀ (f : FunctionId) (code : Code) (receiver : Option TypeId) (call : CallArgs),
    (h.function f).code = some code → (code.params.idents.map Ident.text).Nodup → call.items = none → call.entries = none →
    (∀ r ∈ receiver, (h.function f).isStatic = false ∧ positionalParams code.params ≠ []) →
    Accepts code.params (receiver.toList ++ call.positional) call.keywords →
    let given := given code.params (receiver.toList ++ call.positional) call.keywords
    given.map Prod.fst = code.params.idents ∧
      (∀ x ∈ given, x.2 = .fallback → ∃ t, (h.function f).defaults.get? x.1.text = some t) ∧
      bindParameters (h.function f) code receiver call = given.mapM (buildEntry (h.function f).defaults)

theorem Heap.RecordsDefaults.followsConvention {h : Heap} (hd : h.RecordsDefaults) : h.FollowsConvention := by
  intro f code receiver call hcode hnames hitems hentries hreceiver haccepts
  refine ⟨Calling.idents_given, fun x hx heq => ?_,
    Calling.bindParameters_eq hnames hitems hentries hreceiver haccepts⟩
  exact Option.ne_none_iff_exists'.1 (Table.mem_keys_iff.1 ((hd f code hcode _).2 (haccepts.defaults x hx heq)))

/-- Parameters are bound by the convention when a task is begun and when it is ended. -/
def Verdict.followsConvention : Verdict := fun _ _ s _ s' => s.heap.FollowsConvention ∧ s'.heap.FollowsConvention

theorem Regime.documented_upholds (env : Environment) : (Regime.documented env).Upholds .followsConvention where
  faults _ := trivial
  ready hd := hd
  passes _ _ _ s _ hd r s' hends := by
    refine ⟨hd.followsConvention, ?_⟩
    cases r with
    | error f => exact (hends.1.recordsDefaults hd).followsConvention
    | ok a => exact (hends.1.recordsDefaults hd).followsConvention

/-- In a reachable session, a call that the calling convention accepts binds the parameters of a function to what the
convention gives them. The same holds all through a step, when a task is begun and when it is ended: vetting the tasks
makes no difference. -/
theorem parameters_bound_by_convention {s : Session} (hs : Reachable s) : s.heap.FollowsConvention ∧
    ∀ (env : Environment) (step : SessionStep) (alarm : Fault),
      (step.runBy (.vetting .followsConvention alarm)).runOn env s = step.run.runOn env s :=
  ⟨hs.recordsDefaults.followsConvention, fun env step _ =>
    runBy_vetting (Regime.documented_upholds env) (I := fun s => s.heap.RecordsDefaults)
      (fun _ _ _ _ hd hm => hm.recordsDefaults hd) (fun _ _ hd => hd) hs.idle hs.recordsDefaults step⟩

/-- A file with a function that has parameters of all kinds. -/
def allKinds : Environment where
  workspace := .ofFiles [("m.py", ⟨.empty, .tree ⟨some ⟨0, 66⟩,
      [.functionDef (some ⟨0, 66⟩) 0 ⟨1, "f", some ⟨4, 5⟩⟩
        ⟨[⟨⟨2, "self", some ⟨6, 10⟩⟩, none, none⟩, ⟨⟨3, "a", some ⟨12, 13⟩⟩, none, none⟩],
          [⟨⟨4, "b", some ⟨18, 19⟩⟩, none, none⟩, ⟨⟨5, "c", some ⟨21, 22⟩⟩, none, some (.integer (some ⟨23, 24⟩) "1")⟩],
          some ⟨⟨6, "rest", some ⟨27, 31⟩⟩, none, none⟩,
          [⟨⟨7, "d", some ⟨33, 34⟩⟩, none, none⟩, ⟨⟨8, "e", some ⟨36, 37⟩⟩, none, some (.string (some ⟨38, 41⟩) false)⟩],
          some ⟨⟨9, "more", some ⟨45, 49⟩⟩, none, none⟩⟩ [] []], by decide, by decide⟩⟩)] [] none
  settings := default

/-- A call with positional and keyword arguments, one of these by a name that no keyword reaches. -/
def mixedCall : CallArgs :=
  { positional := [.str, .int, .none, .str, .int], keywords := ⟨[("d", .str), ("a", .int), ("z", .str)]⟩ }

/-- Whether the function made last accepts the call, with a number as receiver. -/
def Session.acceptsMixed (s : Session) : Bool :=
  let function := s.heap.function ⟨s.heap.functions.size - 1⟩
  !function.isStatic && function.code.any fun code =>
    decide ((positionalParams code.params).length = 4) && decide (code.params.idents.map Ident.text).Nodup &&
      decide (Accepts code.params (.int :: mixedCall.positional) mixedCall.keywords) &&
      decide ((given code.params (.int :: mixedCall.positional) mixedCall.keywords).map Prod.snd =
        [.argument .int, .argument .str, .argument .int, .argument .none, .surplus [.str, .int], .argument .str, .fallback,
          .entries [.int, .str]])

theorem allKinds_session : (Session.after [(allKinds, .load "m.py")]).acceptsMixed = true := by decide +kernel

/-- The parameters are bound to what they are given: the last positional arguments as a tuple, a keyword argument by the
name of a parameter that no keyword reaches with those that are left. -/
theorem parameters_bound_by_convention_allKinds : ∃ (s : Session) (f : FunctionId) (code : Code)
    (given : List (Ident × Given)), Reachable s ∧ (s.heap.function f).code = some code ∧
    given.map Prod.fst = code.params.idents ∧
    given.map Prod.snd = [.argument .int, .argument .str, .argument .int, .argument .none, .surplus [.str, .int],
      .argument .str, .fallback, .entries [.int, .str]] ∧
    bindParameters (s.heap.function f) code (some .int) mixedCall = given.mapM (buildEntry (s.heap.function f).defaults) := by
  obtain ⟨s, hs, htest⟩ := Reachable.exists_of_test Session.acceptsMixed allKinds_session
  simp only [Session.acceptsMixed, Bool.and_eq_true, Option.any_eq_true, Bool.not_eq_true', decide_eq_true_eq] at htest
  obtain ⟨hstatic, code, hcode, ⟨⟨hlength, hnames⟩, haccepts⟩, hgiven⟩ := htest
  have hreceiver : ∀ r ∈ some TypeId.int, _ ∧ positionalParams code.params ≠ [] :=
    fun _ _ => ⟨hstatic, List.length_pos_iff.1 (by omega)⟩
  obtain ⟨hidents, _, hbound⟩ :=
    (parameters_bound_by_convention hs).1 _ code (some .int) mixedCall hcode hnames rfl rfl hreceiver haccepts
  exact ⟨s, _, code, _, hs, hcode, hidents, hgiven, hbound⟩

end Concordance
