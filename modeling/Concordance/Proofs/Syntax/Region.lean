import Mathlib.Data.List.Chain
import Concordance.Proofs.Syntax.Item

/-!
# Regions are closed and told apart by numbers

The parts of a piece of code in a tree are in the tree, each in its region. As the numbers ascend along the text, a
number belongs to one piece of code, which stands in one region.
-/

namespace Concordance.Syntax

variable {x : Part} {s : Stmt} {p : Piece} {body : List Stmt} {node : Nat}

section Sizes

/-- The size of a piece of code; a name has no parts and counts for nothing. -/
def Piece.size : Piece → Nat
  | .expr (.name _) => 0
  | .expr e => e.size
  | .stmt s => s.size
  | .pattern p => p.size

theorem Piece.size_expr_le (e : Expr) : (Piece.expr e).size ≤ e.size := by
  cases e with
  | name _ => exact Nat.zero_le _
  | _ => exact Nat.le_refl _

def Part.weight (ps : List Part) : Nat := (ps.map fun x => x.2.size).sum

namespace Expr

@[simp] theorem sizeOfList_append (a b : List Expr) : sizeOfList (a ++ b) = sizeOfList a + sizeOfList b := by
  simp [sizeOfList_eq]

@[simp] theorem sizeOfList_toList (o : Option Expr) : sizeOfList o.toList = sizeOfOption o := by
  cases o <;> simp [sizeOfList, sizeOfOption]

theorem sizeOfList_flatMap (f : α → List Expr) (xs : List α) :
    sizeOfList (xs.flatMap f) = (xs.map fun x => sizeOfList (f x)).sum := by
  induction xs with
  | nil => rfl
  | cons x xs ih => rw [List.flatMap_cons, sizeOfList_append, ih, List.map_cons, List.sum_cons]

@[simp] theorem sizeOfList_elements (es : List (Element Expr)) : sizeOfList (es.map Element.value) = sizeOfElements es := by
  rw [sizeOfList_eq, sizeOfElements_eq, List.map_map]
  rfl

@[simp] theorem sizeOfList_args (es : List (Arg Expr)) : sizeOfList (es.map Arg.value) = sizeOfArgs es := by
  rw [sizeOfList_eq, sizeOfArgs_eq, List.map_map]
  rfl

@[simp] theorem sizeOfList_index (es : List (Index Expr)) : sizeOfList (es.flatMap Index.values) = sizeOfIndex es := by
  rw [sizeOfList_flatMap, sizeOfIndex_eq]
  congr 2
  funext x
  cases x <;> simp [Index.values, sizeOfList, sizeOfIndex, Nat.add_assoc]

@[simp] theorem sizeOfList_items (es : List (DictItem Expr)) : sizeOfList (es.flatMap DictItem.values) = sizeOfItems es := by
  rw [sizeOfList_flatMap, sizeOfItems_eq]
  congr 2
  funext x
  cases x <;> simp [DictItem.values, sizeOfList, sizeOfItems]

end Expr

namespace Part

@[simp] theorem mem_exprs : (none, .expr e) ∈ exprs es ↔ e ∈ es := by simp [exprs]

@[simp] theorem mem_block : (none, .stmt s) ∈ block b ↔ s ∈ b := by simp [block]

@[simp] theorem mem_patterns {p : Pattern} : (none, .pattern p) ∈ patterns ps ↔ p ∈ ps := by
  simp [patterns]

@[simp] theorem weight_nil : weight [] = 0 := rfl

@[simp] theorem weight_cons (x : Part) (ps : List Part) : weight (x :: ps) = x.2.size + weight ps := by simp [weight]

@[simp] theorem weight_append (a b : List Part) : weight (a ++ b) = weight a + weight b := by simp [weight]

theorem weight_flatMap_le (size : α → Nat) (xs : List α) (hf : ∀ x, weight (f x) ≤ size x) :
    weight (xs.flatMap f) ≤ (xs.map size).sum := by
  induction xs with
  | nil => exact Nat.le_refl 0
  | cons x xs ih =>
    rw [List.flatMap_cons, weight_append, List.map_cons, List.sum_cons]
    exact Nat.add_le_add (hf x) ih

theorem size_le_weight (hx : x ∈ ps) : x.2.size ≤ weight ps :=
  le_sum_of_mem (f := fun x : Part => x.2.size) hx

theorem weight_exprs_le (es : List Expr) : weight (exprs es) ≤ Expr.sizeOfList es := by
  induction es with
  | nil => exact Nat.le_refl 0
  | cons e es ih => exact Nat.add_le_add (Piece.size_expr_le e) ih

@[simp] theorem weight_names (is : List Ident) : weight (names is) = 0 := by
  induction is with
  | nil => rfl
  | cons i is ih =>
    show Piece.size (.expr (.name i)) + weight (names is) = 0
    rw [ih, Piece.size]

@[simp] theorem weight_patterns (ps : List Pattern) : weight (patterns ps) = Pattern.sizeOfList ps := by
  rw [Pattern.sizeOfList_eq, weight, patterns, List.map_map]
  rfl

@[simp] theorem weight_block (b : List Stmt) : weight (block b) = Stmt.sizeOfBlock b := by
  rw [Stmt.sizeOfBlock_eq, weight, block, List.map_map]
  rfl

@[simp] theorem weight_stmts (region : Option Region) (b : List Stmt) :
    weight (b.map fun s => (region, .stmt s)) = Stmt.sizeOfBlock b := by
  rw [Stmt.sizeOfBlock_eq, weight, List.map_map]
  rfl

theorem weight_ofParam_le (node : Nat) (p : Param Expr) : weight (ofParam node p) ≤ Expr.sizeOfParam p := by
  obtain ⟨name, hint, fallback⟩ := p
  have := weight_exprs_le (hint.toList ++ fallback.toList)
  simpa [ofParam, Piece.size, Expr.sizeOfParam] using this

theorem weight_ofParams_le (node : Nat) (ps : Params Expr) : weight (ofParams node ps) ≤ Expr.sizeOfParams ps := by
  have hoption : ∀ o : Option (Param Expr), (o.toList.map Expr.sizeOfParam).sum = Expr.sizeOfParamOption o := by
    intro o
    cases o <;> simp [Expr.sizeOfParamOption]
  refine Nat.le_trans (weight_flatMap_le _ _ (weight_ofParam_le node)) ?_
  obtain ⟨positionalOnly, ordinary, surplus, keywordOnly, keywordSurplus⟩ := ps
  simp only [List.map_append, List.sum_append, hoption, Expr.sizeOfParams, Expr.sizeOfParamList_eq]
  exact Nat.le_refl _

theorem weight_ofClause_le (node : Nat) (outer : Option Region) (c : Clause Expr) :
    weight (ofClause node outer c) ≤ Expr.sizeOfClauses [c] := by
  obtain ⟨target, iterable, conditions⟩ := c
  have hconditions : weight (conditions.map fun e => (some (.comprehension node), .expr e)) ≤ Expr.sizeOfList conditions := by
    induction conditions with
    | nil => exact Nat.le_refl 0
    | cons e es ih => exact Nat.add_le_add (Piece.size_expr_le e) ih
  have htarget := Piece.size_expr_le target
  have hiterable := Piece.size_expr_le iterable
  simp only [ofClause, weight_cons, Expr.sizeOfClauses]
  omega

theorem weight_ofClauses_le (node : Nat) (cs : List (Clause Expr)) :
    weight (ofClauses node cs) ≤ Expr.sizeOfClauses cs := by
  have hrow : ∀ cs : List (Clause Expr), (cs.map fun c => Expr.sizeOfClauses [c]).sum = Expr.sizeOfClauses cs := by
    intro cs
    induction cs with
    | nil => rfl
    | cons c cs ih => rw [List.map_cons, List.sum_cons, ih]; simp [Expr.sizeOfClauses]
  cases cs with
  | nil => exact Nat.le_refl 0
  | cons c rest =>
    rw [← hrow, List.map_cons, List.sum_cons, ofClauses, weight_append]
    exact Nat.add_le_add (weight_ofClause_le ..) (weight_flatMap_le _ _ (weight_ofClause_le node _))

end Part

theorem Expr.weight_parts_lt (e : Expr) : Part.weight e.parts < e.size := by
  cases e
  case name | integer | float | imaginary | string | ellipsis => exact Nat.one_pos
  case attr value i =>
    have := Part.weight_exprs_le [value]
    simp only [parts, Part.weight_append, Part.weight_names, sizeOfList, size] at this ⊢
    omega
  case comprehension node element clauses =>
    have := Part.weight_ofClauses_le node clauses
    have := Piece.size_expr_le element
    simp only [parts, Part.weight_cons, size]
    omega
  case dictComprehension node key value clauses =>
    have := Part.weight_ofClauses_le node clauses
    have := Piece.size_expr_le key
    have := Piece.size_expr_le value
    simp only [parts, Part.weight_cons, size]
    omega
  case lambda node params body =>
    have := Part.weight_ofParams_le node params
    have := Piece.size_expr_le body
    simp only [parts, Part.weight_append, Part.weight_cons, Part.weight_nil, size]
    omega
  -- All others are made of expressions that stand where they stand.
  all_goals
    refine Nat.lt_succ_of_le (Nat.le_trans (Part.weight_exprs_le _) (Nat.le_of_eq ?_))
    simp [sizeOfList, Nat.add_assoc]

theorem Pattern.weight_parts_lt (p : Pattern) : Part.weight p.parts < p.size := by
  cases p
  case value e => exact Nat.lt_succ_of_le (Part.weight_exprs_le [e])
  case capture inner name => cases inner <;> simp [parts, size, sizeOfOption, sizeOfList]
  case star name => simp [parts, size]
  case mapping entries rest =>
    have := Part.weight_flatMap_le (f := fun e : Expr × Pattern => [(none, .expr e.1), (none, .pattern e.2)])
      (fun e => e.1.size + e.2.size) entries fun e => by
        simpa [Piece.size] using Piece.size_expr_le e.1
    simp only [parts, Part.weight_append, Part.weight_names, size, sizeOfEntries_eq]
    omega
  case classOf cls positional keyword =>
    have := Part.weight_exprs_le [cls]
    simp only [parts, Part.weight_append, Part.weight_patterns, size, Expr.sizeOfList, sizeOfList_eq, List.map_append,
      List.sum_append] at this ⊢
    omega
  all_goals simp [parts, size]

theorem Stmt.weight_parts_lt (s : Stmt) : Part.weight s.parts < s.size := by
  have hoption : ∀ b : Option (List Stmt), sizeOfBlock (b.getD []) = sizeOfBlockOption b := by
    intro b
    cases b <;> rfl
  have hnames : ∀ as : List Alias, Part.weight (as.flatMap Part.ofAlias) ≤ 0 := by
    intro as
    refine Nat.le_trans (Part.weight_flatMap_le (fun _ => 0) as fun a => ?_) (by simp)
    exact Nat.le_of_eq (Part.weight_names _)
  cases s
  case functionDef node name params body decorators =>
    have := Part.weight_ofParams_le node params
    have := Part.weight_exprs_le decorators
    simp only [parts, Part.weight_append, Part.weight_names, Part.weight_stmts, size]
    omega
  case classDef node name bases keywords body decorators =>
    have hbases := Part.weight_exprs_le (bases ++ keywords)
    have := Part.weight_exprs_le decorators
    rw [Expr.sizeOfList_append] at hbases
    simp only [parts, Part.weight_append, Part.weight_names, Part.weight_stmts, size]
    omega
  case typeAlias name value =>
    have := Part.weight_exprs_le [value]
    simp only [parts, Part.weight_append, Part.weight_names, Expr.sizeOfList, size] at this ⊢
    omega
  case importModules modules => exact Nat.lt_succ_of_le (hnames modules)
  case importNames level source names =>
    simp only [parts, Part.weight_append, Part.weight_names, Nat.zero_add]
    exact Nat.lt_succ_of_le (hnames names)
  case branch test body orelse | whileLoop test body orelse =>
    have := Part.weight_exprs_le [test]
    simp only [parts, Part.weight_append, Part.weight_block, Expr.sizeOfList, hoption, size] at this ⊢
    omega
  case forLoop target iterable body orelse =>
    have := Part.weight_exprs_le [target, iterable]
    simp only [parts, Part.weight_append, Part.weight_block, Expr.sizeOfList, hoption, size] at this ⊢
    omega
  case tryBlock body handlers orelse final =>
    have := Part.weight_flatMap_le (fun h => sizeOfHandlers [h]) handlers fun h => by
      show Part.weight (Part.exprs (h.caught.toList ++ h.target.toList) ++ Part.block h.body) ≤ sizeOfHandlers [h]
      have := Part.weight_exprs_le (h.caught.toList ++ h.target.toList)
      simp only [Part.weight_append, Part.weight_block, Expr.sizeOfList_append, Expr.sizeOfList_toList,
        sizeOfHandlers] at this ⊢
      omega
    simp only [parts, Part.weight_append, Part.weight_block, hoption, size, ← sizeOfHandlers_eq] at this ⊢
    omega
  case withBlock contexts body =>
    have := Part.weight_exprs_le (contexts.flatMap fun c => c.value :: c.target.toList)
    simp only [parts, Part.weight_append, Part.weight_block, Expr.sizeOfList_flatMap, Expr.sizeOfList,
      Expr.sizeOfList_toList, size, ← sizeOfContexts_eq] at this ⊢
    omega
  case matchBlock subject cases =>
    have := Part.weight_exprs_le [subject]
    have hcases := Part.weight_flatMap_le (fun c => sizeOfCases [c]) cases fun c => by
      show Part.weight (Part.patterns [c.pattern] ++ Part.exprs c.guard.toList ++ Part.block c.body) ≤ sizeOfCases [c]
      have := Part.weight_exprs_le c.guard.toList
      simp only [Part.weight_append, Part.weight_patterns, Part.weight_block, Expr.sizeOfList_toList,
        Pattern.sizeOfList, sizeOfCases] at this ⊢
      omega
    simp only [parts, Part.weight_append, Expr.sizeOfList, size, ← sizeOfCases_eq] at this hcases ⊢
    omega
  case line | importAll | global | nonlocal | pass | leaveLoop | nextRound => simp [parts, size]
  -- All others are made of expressions that stand where they stand.
  all_goals
    refine Nat.lt_succ_of_le (Nat.le_trans (Part.weight_exprs_le _) (Nat.le_of_eq ?_))
    simp [Expr.sizeOfList, Nat.add_assoc]

theorem Piece.size_part_lt (hx : x ∈ p.parts) : x.2.size < p.size := by
  refine Nat.lt_of_le_of_lt (Part.size_le_weight hx) ?_
  cases p with
  | stmt s => exact s.weight_parts_lt
  | pattern p => exact p.weight_parts_lt
  | expr e =>
    have hlt := e.weight_parts_lt
    cases e with
    | name i => cases hx
    | _ => exact hlt

end Sizes

section Closed

theorem Piece.below_closed (hdepth : whole.size ≤ depth)
    (hp : (region, p) ∈ below depth outer whole) (hx : x ∈ p.parts) :
    (x.1.getD region, x.2) ∈ below depth outer whole := by
  have hself : ∀ depth region (q : Piece), (region, q) ∈ below depth region q := by
    intro depth region q
    cases depth <;> exact .head _
  induction depth generalizing outer whole with
  | zero =>
    obtain ⟨rfl, rfl⟩ := Prod.mk.injEq .. ▸ List.mem_singleton.1 hp
    exact absurd (size_part_lt hx) (by omega)
  | succ depth ih =>
    rw [below] at hp ⊢
    refine .tail _ (List.mem_flatMap.2 ?_)
    rcases List.mem_cons.1 hp with heq | hp
    · obtain ⟨rfl, rfl⟩ := Prod.mk.injEq .. ▸ heq
      exact ⟨x, hx, hself ..⟩
    · obtain ⟨y, hy, hp⟩ := List.mem_flatMap.1 hp
      have := size_part_lt hy
      exact ⟨y, hy, ih (by omega) hp⟩

theorem piecesOf_closed (hp : (region, p) ∈ piecesOf body)
    (hx : x ∈ p.parts) : (x.1.getD region, x.2) ∈ piecesOf body := by
  obtain ⟨s, hs, hp⟩ := List.mem_flatMap.1 hp
  refine List.mem_flatMap.2 ⟨s, hs, Piece.below_closed ?_ hp hx⟩
  exact Stmt.sizeOfBlock_eq body ▸ le_sum_of_mem hs

theorem mem_piecesOf (hs : s ∈ body) : (.file, .stmt s) ∈ piecesOf body := by
  refine List.mem_flatMap.2 ⟨s, hs, ?_⟩
  cases Stmt.sizeOfBlock body <;> exact .head _

end Closed

/-- The code of a region is in the body of a function: the region is that of the function, or is opened by code in such a
region. -/
inductive Enclosed (body : List Stmt) : Region → Prop
  | function (node : Nat) : Enclosed body (.function node)
  | opened {outer region : Region} {p q : Piece} (hp : (outer, p) ∈ piecesOf body) (hq : (some region, q) ∈ p.parts)
      (ho : Enclosed body outer) : Enclosed body region

section Opened

namespace Part

@[simp] theorem not_mem_exprs (es : List Expr) : (some region, q) ∉ exprs es := by simp [exprs]

@[simp] theorem not_mem_names (is : List Ident) : (some region, q) ∉ names is := by simp [names]

@[simp] theorem not_mem_patterns (ps : List Pattern) : (some region, q) ∉ patterns ps := by simp [patterns]

@[simp] theorem not_mem_block (b : List Stmt) : (some region, q) ∉ block b := by simp [block]

@[simp] theorem not_mem_ofAlias (a : Alias) : (some region, q) ∉ ofAlias a := not_mem_names _

theorem eq_function_of_mem_ofParams (h : (some region, q) ∈ ofParams node ps) : region = .function node := by
  obtain ⟨p, _, hp⟩ := List.mem_flatMap.1 h
  rcases List.mem_cons.1 hp with heq | hp
  · cases heq
    rfl
  · exact absurd hp (not_mem_exprs _)

theorem eq_comprehension_of_mem_ofClause
    (h : (some region, q) ∈ ofClause node outer c) : region = .comprehension node ∨ outer = some region := by
  simp only [ofClause, List.mem_cons, List.mem_map, Prod.mk.injEq, Option.some.injEq] at h
  rcases h with ⟨h, _⟩ | ⟨h, _⟩ | ⟨e, _, h, _⟩
  · exact .inl h
  · exact .inr h.symm
  · exact .inl h.symm

theorem eq_comprehension_of_mem_ofClauses
    (h : (some region, q) ∈ ofClauses node cs) : region = .comprehension node := by
  cases cs with
  | nil => cases h
  | cons c rest =>
    rcases List.mem_append.1 h with h | h
    · exact (eq_comprehension_of_mem_ofClause h).resolve_right (Option.some_ne_none _).symm
    · obtain ⟨c', _, h⟩ := List.mem_flatMap.1 h
      rcases eq_comprehension_of_mem_ofClause h with h | h
      · exact h
      · exact (Option.some.inj h).symm

end Part

theorem Expr.ne_file_of_part {e : Expr} (h : (some region, q) ∈ e.parts) : region ≠ .file := by
  cases e
  case comprehension =>
    simp only [Expr.parts, List.mem_cons, Prod.mk.injEq, Option.some.injEq] at h
    rcases h with ⟨rfl, _⟩ | h
    · simp
    · simp [Part.eq_comprehension_of_mem_ofClauses h]
  case dictComprehension =>
    simp only [Expr.parts, List.mem_cons, Prod.mk.injEq, Option.some.injEq] at h
    rcases h with ⟨rfl, _⟩ | ⟨rfl, _⟩ | h
    · simp
    · simp
    · simp [Part.eq_comprehension_of_mem_ofClauses h]
  case lambda =>
    simp only [Expr.parts, List.mem_append, List.mem_singleton, Prod.mk.injEq, Option.some.injEq] at h
    rcases h with h | ⟨rfl, _⟩
    · simp [Part.eq_function_of_mem_ofParams h]
    · simp
  all_goals simp [Expr.parts] at h

theorem Stmt.ne_file_of_part (h : (some region, q) ∈ s.parts) : region ≠ .file := by
  cases s
  case functionDef =>
    simp only [Stmt.parts, List.mem_append, Part.not_mem_names, Part.not_mem_exprs, List.mem_map, Prod.mk.injEq,
      Option.some.injEq, false_or, or_false] at h
    rcases h with h | ⟨_, _, rfl, _⟩
    · simp [Part.eq_function_of_mem_ofParams h]
    · simp
  case classDef =>
    simp only [Stmt.parts, List.mem_append, Part.not_mem_names, Part.not_mem_exprs, List.mem_map, Prod.mk.injEq,
      Option.some.injEq, false_or, or_false] at h
    obtain ⟨_, _, rfl, _⟩ := h
    simp
  all_goals simp [Stmt.parts] at h

theorem Pattern.ne_file_of_part {p : Pattern} (h : (some region, q) ∈ p.parts) : region ≠ .file := by
  cases p <;> simp [Pattern.parts] at h

theorem not_enclosed_file (body : List Stmt) : ¬ Enclosed body .file := by
  intro h
  cases h with
  | @opened outer _ p q hp hq ho =>
    rcases p with e | s | p
    · exact e.ne_file_of_part hq rfl
    · exact s.ne_file_of_part hq rfl
    · exact p.ne_file_of_part hq rfl

end Opened

section Numbers

theorem pairwise_of_ascends (hn : ascends ns = true) : ns.Pairwise (· < ·) := by
  rw [← List.isChain_iff_pairwise]
  fun_induction ascends ns with
  | case1 a b rest ih =>
    rw [Bool.and_eq_true, decide_eq_true_eq] at hn
    exact .cons_cons hn.1 (ih hn.2)
  | case2 ns hno =>
    rcases ns with _ | ⟨a, _ | ⟨b, rest⟩⟩
    · exact .nil
    · exact .singleton a
    · exact absurd rfl (hno a b rest)

theorem Module.piece_unique (m : Module)
    (hp : (region, p) ∈ piecesOf m.body) (hp' : (region', p') ∈ piecesOf m.body) (hn : n ∈ p.numbers)
    (hn' : n ∈ p'.numbers) : region = region' ∧ p = p' := by
  have hnodup := (pairwise_of_ascends m.numbered).imp Nat.ne_of_lt
  have heq := mem_unique_of_nodup_flatMap hnodup hp hp' hn hn'
  exact ⟨congrArg Prod.fst heq, congrArg Prod.snd heq⟩

end Numbers

/-- A number stands directly in a piece of code: it is that of the piece, or stands so in a part in the same region. -/
inductive Piece.Bears : Piece → Nat → Prop
  | self {p : Piece} {n : Nat} (hn : n ∈ p.numbers) : Bears p n
  | part {p q : Piece} {n : Nat} (hq : (none, q) ∈ p.parts) (hn : Bears q n) : Bears p n

theorem Piece.Bears.exists_piece (hb : p.Bears n)
    (hp : (region, p) ∈ piecesOf body) : ∃ q, (region, q) ∈ piecesOf body ∧ n ∈ q.numbers := by
  induction hb with
  | self hn => exact ⟨_, hp, hn⟩
  | part hq _ ih => exact ih (piecesOf_closed hp hq)

end Concordance.Syntax
