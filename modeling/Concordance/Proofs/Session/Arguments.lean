import Concordance.Proofs.Heap.Merge
import Concordance.Proofs.Session.Convention

/-!
# What becomes of the arguments of a call

There is room for one iterable and for one mapping that is spread, and for one keyword argument of each name: a later
argument takes the room of an earlier one. If a function collects surplus arguments of both kinds, all others reach its
parameters, but for the items of a list when there is a surplus already.
-/

namespace Concordance

open Syntax (Arg Expr Ident Param Params)

namespace Calling

section Gathering

/-- The same argument with its type. -/
def typed (t : TypeId) : Arg Expr → Arg TypeId
  | .positional _ => .positional t
  | .keyword name _ => .keyword name t
  | .items _ => .items t
  | .entries _ => .entries t

/-- Adds an argument to those before. -/
def add (args : CallArgs) : Arg TypeId → CallArgs
  | .positional t => { args with positional := args.positional ++ [t] }
  | .keyword name t => { args with keywords := args.keywords.insert name t }
  | .items t => { args with items := some t }
  | .entries t => { args with entries := some t }

def gather (given : List (Arg TypeId)) : CallArgs := given.foldl add {}

theorem addArgument_eq (ev : Evaluator) (place : Place) (args : CallArgs) (a : Arg Expr) :
    addArgument ev place args a = (fun t => add args (typed t a)) <$> ev.expr place a.value := by
  rw [addArgument, map_eq_pure_bind]
  cases a <;> rfl

def positional? : Arg TypeId → Option TypeId
  | .positional t => some t
  | _ => none

def items? : Arg TypeId → Option TypeId
  | .items t => some t
  | _ => none

/-- Positional arguments are kept in their order, and the last iterable is the one that is spread. -/
theorem rows_gather (given : List (Arg TypeId)) : (gather given).positional = given.filterMap positional? ∧
    (gather given).items = (given.filterMap items?).getLast? := by
  induction given using List.reverseRecOn with
  | nil => exact ⟨rfl, rfl⟩
  | append_singleton given a ih =>
    have hlast : gather (given ++ [a]) = add (gather given) a := by simp [gather]
    rw [hlast, List.filterMap_append, List.filterMap_append]
    cases a <;> simp [add, ih, positional?, items?]

/-- An argument takes the room of another one. -/
def Takes : Arg TypeId → Arg TypeId → Prop
  | .keyword name _, .keyword other _ => name = other
  | .items _, .items _ | .entries _, .entries _ => True
  | _, _ => False

def Holds (args : CallArgs) : Arg TypeId → Prop
  | .positional t => t ∈ args.positional
  | .keyword name t => args.keywords.get? name = some t
  | .items t => args.items = some t
  | .entries t => args.entries = some t

theorem holds_add (args : CallArgs) (a : Arg TypeId) : Holds (add args a) a := by
  cases a with
  | positional t => exact List.mem_append_right _ (.head _)
  | keyword name t => exact Table.get?_insert_self ..
  | items t | entries t => rfl

theorem Holds.add (ha : Holds args a) (hb : ¬ Takes b a) : Holds (add args b) a := by
  cases b with
  | positional t =>
    cases a with
    | positional u => exact List.mem_append_left _ ha
    | _ => exact ha
  | keyword name t =>
    cases a with
    | keyword other u => exact (Table.get?_insert_of_ne (fun heq => hb heq.symm) ..).trans ha
    | _ => exact ha
  | items t | entries t => cases a <;> first | exact ha | exact absurd trivial hb

/-- An argument is there in the end unless a later one takes its room. -/
theorem holds_gather (before : List (Arg TypeId)) (hlast : ∀ b ∈ after, ¬ Takes b a) :
    Holds (gather (before ++ a :: after)) a := by
  have hkept : ∀ args, Holds args a → Holds (after.foldl Calling.add args) a := by
    induction after with
    | nil => exact fun _ ha => ha
    | cons b after ih => exact fun args ha => ih (fun c hc => hlast c (.tail _ hc)) _ (ha.add (hlast b (.head _)))
  rw [gather, List.foldl_append]
  exact hkept _ (holds_add ..)

end Gathering

section Shares

/-- The shares of a call: what positional and keyword parameters are bound to, what is collected in a tuple or else as the
items of a list, and what is merged into the values of a dictionary. -/
structure Shares where
  direct : List (Ident × TypeId)
  surplus : List TypeId
  repeated : Option TypeId
  named : List (Ident × TypeId)
  merged : List TypeId

def Shares.build (rest more : Ident) (x : Shares) : HeapM (List (Ident × TypeId)) := do
  let t ← if x.surplus.isEmpty then newList (x.repeated.getD .unknown) else newTuple x.surplus
  let u ← newDict .str (← unionAll x.merged)
  return x.direct ++ [(rest, t)] ++ x.named ++ [(more, u)]

inductive Shares.Reached (x : Shares) (t : TypeId) : Prop
  | direct (ht : t ∈ (x.direct ++ x.named).map Prod.snd)
  | collected (ht : t ∈ x.surplus)
  | repeated (none : x.surplus = []) (ht : x.repeated = some t)
  | merged (ht : t ∈ x.merged)

/-- What an argument brings into a call: its type, those of the items of a tuple or a list, or that of the values of a
dictionary. -/
def brought (h : Heap) : Arg TypeId → List TypeId
  | .positional t | .keyword _ t => [t]
  | .items t =>
    match h.ty t with
    | .tuple es => es
    | .list e _ => [e]
    | _ => []
  | .entries t =>
    match h.ty t with
    | .dict _ v => [v]
    | _ => []

variable (h : Heap) (function : Function) (params : Params Expr) (receiver : Option TypeId) (call : CallArgs)

/-- What is matched by place. -/
def line : List TypeId := receiver.toList ++ (h.spreadItems call).1

/-- How a call is shared out: in the order of places, and by names. -/
def share : Shares :=
  let fill : Fillers := ⟨(h.spreadItems call).2, function.defaults, h.spreadEntries call⟩
  let ps := positionalParams params
  { direct := ps.mapIdx fun i => bindAt fill call.keywords (line h receiver call)[i]?
    surplus := (line h receiver call).drop ps.length
    repeated := fill.items
    named := params.keywordOnly.map fun p => (p.name, fill.keyword (call.keywords.get? p.name.text) p.name.text)
    merged := (without call.keywords (taken (ps.drop (line h receiver call).length) ++
      params.keywordOnly.map fun p => p.name.text)).values ++ fill.entries.toList }

variable {h function params receiver call}

theorem run_bindParameters_share {code : Code} (hnames : (code.params.idents.map Ident.text).Nodup)
    (hreceiver : ∀ r ∈ receiver, function.isStatic = false ∧ positionalParams code.params ≠ [])
    (hrest : code.params.rest = some p) (hmore : code.params.keywordRest = some q) :
    (bindParameters function code receiver call).run h =
      ((share h function code.params receiver call).build p.name q.name).run h := by
  have hrun : (bindParameters function code receiver call).run h = _ := run_bindParameters h hnames hreceiver
  rw [hrun, hrest, hmore]
  congr 1
  cases hempty : ((line h receiver call).drop (positionalParams code.params).length).isEmpty <;> rw [line] at hempty <;>
    simp only [bindSurplus, bindKeywordSurplus, Shares.build, share, line, hempty, Bool.false_eq_true, if_true, if_false] <;>
    cases h.spreadEntries call <;> simp [unionAll]

/-- What is matched by place reaches the parameters. -/
theorem reached_of_mem_line (ht : t ∈ line h receiver call) : (share h function params receiver call).Reached t := by
  obtain ⟨i, hi, rfl⟩ := List.getElem_of_mem ht
  by_cases hlt : i < (positionalParams params).length
  · refine .direct (List.mem_map.2 ⟨((positionalParams params)[i].2.name, _), List.mem_append_left _ ?_, rfl⟩)
    exact List.mem_mapIdx.2 ⟨i, hlt, by rw [List.getElem?_eq_getElem hi]; rfl⟩
  · refine .collected (List.mem_drop_iff_getElem.2 ⟨i - (positionalParams params).length, by omega, ?_⟩)
    congr 1
    omega

theorem reached_of_get? (hget : call.keywords.get? name = some t) : (share h function params receiver call).Reached t := by
  by_cases hleft : name ∈ taken ((positionalParams params).drop (line h receiver call).length) ++
      params.keywordOnly.map fun p => p.name.text
  · rcases List.mem_append.1 hleft with hleft | hleft
    · -- A parameter that no place is left for takes the argument of its name.
      obtain ⟨p, hp, rfl⟩ := List.mem_map.1 hleft
      obtain ⟨hp, hnamed⟩ := List.mem_filter.1 hp
      obtain ⟨j, hj, rfl⟩ := List.mem_drop_iff_getElem.1 hp
      refine .direct (List.mem_map.2 ⟨_, List.mem_append_left _ (List.mem_mapIdx.2 ⟨_, Nat.add_comm .. ▸ hj, rfl⟩), ?_⟩)
      rw [List.getElem?_eq_none (Nat.le_add_right ..)]
      simp [bindAt, keywordOf, hnamed, hget, Fillers.positional]
    · obtain ⟨p, hp, rfl⟩ := List.mem_map.1 hleft
      refine .direct (List.mem_map.2 ⟨(p.name, t), List.mem_append_right _ (List.mem_map.2 ⟨p, hp, ?_⟩), rfl⟩)
      simp [Fillers.keyword, hget]
  · exact .merged (List.mem_append_left _ (Table.mem_values_of_get? ((get?_without hleft).trans hget)))

/-- What a call holds reaches the parameters, unless it is a list and there is a surplus. -/
theorem Holds.reached (ha : Holds call a) (ht : t ∈ brought h a)
    (hroom : ∀ u e shape, a = .items u → h.ty u = .list e shape →
      (line h receiver call).length ≤ (positionalParams params).length) :
    (share h function params receiver call).Reached t := by
  cases a with
  | positional u =>
    obtain rfl := List.mem_singleton.1 ht
    refine reached_of_mem_line (List.mem_append_right _ ?_)
    unfold Heap.spreadItems
    repeat' split
    all_goals first | exact ha | exact List.mem_append_left _ ha
  | keyword name u =>
    obtain rfl := List.mem_singleton.1 ht
    exact reached_of_get? ha
  | items u =>
    have hitems : call.items = some u := ha
    rw [brought] at ht
    split at ht
    · rename_i es hes
      refine reached_of_mem_line (List.mem_append_right _ ?_)
      simp [Heap.spreadItems, hitems, hes, ht]
    · rename_i e shape hes
      obtain rfl := List.mem_singleton.1 ht
      exact .repeated (List.drop_eq_nil_of_le (hroom u t shape rfl hes)) (by simp [share, Heap.spreadItems, hitems, hes])
    · cases ht
  | entries u =>
    have hentries : call.entries = some u := ha
    rw [brought] at ht
    split at ht
    · rename_i k v hes
      obtain rfl := List.mem_singleton.1 ht
      exact .merged (List.mem_append_right _ (by simp [Heap.spreadEntries, hentries, hes]))
    · cases ht

end Shares

end Calling

open Calling

/-- A call adds its arguments up as they stand. If the function collects surplus arguments of both kinds, then the receiver
and every argument reach its parameters, unless a later argument takes the room of one, or it is a list that is spread when
there is a surplus already. What is matched by place goes to the parameters in order, and then to the surplus: the receiver,
positional arguments as they stand, and the items of the last iterable, if it is a tuple. -/
theorem arguments_reach_parameters_unless_displaced (h : Heap) (function : Function) (code : Code) {p q : Param Expr}
    (hnames : (code.params.idents.map Ident.text).Nodup) (hrest : code.params.rest = some p)
    (hmore : code.params.keywordRest = some q) (receiver : Option TypeId)
    (hreceiver : ∀ r ∈ receiver, function.isStatic = false ∧ positionalParams code.params ≠ []) (given : List (Arg TypeId)) :
    (∀ (ev : Evaluator) (place : Place) (args : CallArgs) (a : Arg Expr),
      addArgument ev place args a = (fun t => Calling.add args (typed t a)) <$> ev.expr place a.value) ∧
    ∃ x : Shares, (bindParameters function code receiver (gather given)).run h = (x.build p.name q.name).run h ∧
      (∀ r ∈ receiver, x.Reached r) ∧
      (∀ before a after, given = before ++ a :: after → (∀ b ∈ after, ¬ Takes b a) →
        (∀ u e shape, a = .items u → h.ty u = .list e shape →
          (line h receiver (gather given)).length ≤ (positionalParams code.params).length) →
        ∀ t ∈ brought h a, x.Reached t) ∧
      (∀ (i : Nat) p t, (positionalParams code.params)[i]? = some p → (line h receiver (gather given))[i]? = some t →
        x.direct[i]? = some (p.2.name, t)) ∧
      x.surplus = (line h receiver (gather given)).drop (positionalParams code.params).length ∧
      (gather given).positional = given.filterMap positional? ∧ (gather given).items = (given.filterMap items?).getLast? := by
  refine ⟨addArgument_eq, _, run_bindParameters_share hnames hreceiver hrest hmore, fun r hr => ?_, ?_,
    fun i p t hp ht => ?_, rfl, rows_gather given⟩
  · exact reached_of_mem_line (List.mem_append_left _ (Option.mem_toList.2 hr))
  · rintro before a after rfl hlast hroom t ht
    exact (holds_gather before hlast).reached ht hroom
  · simp [share, hp, ht, bindAt]

/-- A function with some parameters and two more that collect surplus arguments. -/
def collecting (ordinary : List String) : Code where
  unit := default
  node := 0
  params := ⟨[], ordinary.map fun name => ⟨⟨0, name, none⟩, none, none⟩, some ⟨⟨1, "args", none⟩, none, none⟩, [],
    some ⟨⟨2, "kw", none⟩, none, none⟩⟩
  body := .block []

/-- The receiver, a positional argument and the last of two keyword arguments with one name reach the parameters. -/
theorem arguments_reach_parameters_unless_displaced_twice : ∃ x : Shares,
    (bindParameters default (collecting ["self"]) (some .int)
      (gather [.keyword "a" .str, .positional .none, .keyword "a" .bytes])).run Heap.initial =
        (x.build ⟨1, "args", none⟩ ⟨2, "kw", none⟩).run Heap.initial ∧
      x.Reached .int ∧ x.Reached .none ∧ x.Reached .bytes ∧ x.surplus = [.none] := by
  obtain ⟨_, x, hrun, hself, hall, _, hsurplus, _⟩ := arguments_reach_parameters_unless_displaced Heap.initial default
    (collecting ["self"]) (by decide) rfl rfl (some .int) (fun _ _ => by decide)
    [.keyword "a" .str, .positional .none, .keyword "a" .bytes]
  refine ⟨x, hrun, hself .int rfl, ?_, ?_, hsurplus⟩
  · exact hall [.keyword "a" .str] (.positional .none) [.keyword "a" .bytes] rfl (by simp [Takes]) (by simp) .none (.head _)
  · exact hall [.keyword "a" .str, .positional .none] (.keyword "a" .bytes) [] rfl (by simp) (by simp) .bytes (.head _)

/-- Two tuples, one with a number and one with a text. -/
def twoTuples : Heap := .withTypes (.tuple [.existing .int]) (.tuple [.existing .str])

/-- If two tuples are spread, the items of the first do not reach the parameters: the surplus is a tuple with the text, and
nothing is merged. -/
theorem first_tuple_does_not_arrive : ∃ (code : Code) (given : List (Arg TypeId)),
    given.flatMap (brought twoTuples) = [.int, .str] ∧
    ((bindParameters default code none (gather given)).run twoTuples).1 =
      [(⟨1, "args", none⟩, ⟨11⟩), (⟨2, "kw", none⟩, ⟨12⟩)] ∧
    ((bindParameters default code none (gather given)).run twoTuples).2.ty ⟨11⟩ = .tuple [.str] ∧
    ((bindParameters default code none (gather given)).run twoTuples).2.ty ⟨12⟩ = .dict .str .unknown :=
  ⟨collecting [], [.items ⟨9⟩, .items ⟨10⟩], by decide +kernel⟩

end Concordance
