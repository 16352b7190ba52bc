import Concordance.Proofs.Syntax.Size

/-!
# What collectors find

A collector goes through a row part by part.
-/

namespace Concordance.Syntax

namespace Collector

variable {α β : Type}

section Rows

theorem eq_flatMap {f : List α → List β} {g : α → List β} (hnil : f [] = []) (hcons : ∀ x xs, f (x :: xs) = g x ++ f xs)
    (xs : List α) : f xs = xs.flatMap g := by
  induction xs with
  | nil => exact hnil
  | cons x xs ih => rw [hcons, ih, List.flatMap_cons]

variable (c : Collector β)

theorem exprs_eq (es : List Expr) : c.exprs es = es.flatMap c.expr := eq_flatMap rfl (fun _ _ => rfl) es

theorem elements_eq (es : List (Element Expr)) : c.elements es = es.flatMap fun e => c.expr e.value :=
  eq_flatMap rfl (fun _ _ => rfl) es

theorem targets_eq (es : List (Element Expr)) : c.targets es = es.flatMap fun e => c.target e.value :=
  eq_flatMap rfl (fun _ _ => rfl) es

theorem arguments_eq (es : List (Arg Expr)) : c.arguments es = es.flatMap fun e => c.expr e.value :=
  eq_flatMap rfl (fun e _ => by cases e <;> rfl) es

theorem dictItems_eq (es : List (DictItem Expr)) : c.dictItems es = es.flatMap fun e => c.dictItems [e] :=
  eq_flatMap rfl (fun e _ => by cases e <;> simp [dictItems]) es

theorem indexes_eq (es : List (Index Expr)) : c.indexes es = es.flatMap fun e => c.indexes [e] :=
  eq_flatMap rfl (fun e _ => by cases e <;> simp [indexes]) es

theorem paramList_eq (ps : List (Param Expr)) : c.paramList ps = ps.flatMap c.param := eq_flatMap rfl (fun _ _ => rfl) ps

theorem patterns_eq (ps : List Pattern) : c.patterns ps = ps.flatMap c.pattern := eq_flatMap rfl (fun _ _ => rfl) ps

theorem entries_eq (es : List (Expr × Pattern)) : c.entries es = es.flatMap fun e => c.expr e.1 ++ c.pattern e.2 :=
  eq_flatMap rfl (fun _ _ => by simp [entries]) es

theorem block_eq (b : List Stmt) : c.block b = b.flatMap c.stmt := eq_flatMap rfl (fun _ _ => rfl) b

theorem handlers_eq (hs : List (Handler Stmt)) : c.handlers hs = hs.flatMap fun h => c.handlers [h] :=
  eq_flatMap rfl (fun _ _ => by simp [handlers]) hs

theorem cases_eq (cs : List (Case Stmt)) : c.cases cs = cs.flatMap fun x => c.cases [x] :=
  eq_flatMap rfl (fun _ _ => by simp [cases]) cs

end Rows

/-- Two collectors are related if they are so at every name and definition, and the relation goes along with
putting rows together. -/
structure Related (c : Collector α) (d : Collector β) (R : List α → List β → Prop) : Prop where
  nil : R [] []
  append : ∀ {a a' b b'}, R a b → R a' b' → R (a ++ a') (b ++ b')
  use : ∀ i, R (c.use i) (d.use i)
  function : ∀ node ps b, R (c.params ps) (d.params ps) → R (c.body b) (d.body b) →
    R (c.function node ps b (c.params ps) (c.body b)) (d.function node ps b (d.params ps) (d.body b))
  cls : ∀ node b, R (c.block b) (d.block b) → R (c.cls node b (c.block b)) (d.cls node b (d.block b))

namespace Related

variable {c : Collector α} {d : Collector β} {R : List α → List β → Prop} (hr : Related c d R)

include hr

mutual

theorem expr : ∀ e, R (c.expr e) (d.expr e)
  | .name i => hr.use i
  | .integer .. | .float _ | .imaginary _ | .string .. | .ellipsis _ => hr.nil
  | .attr _ e _ | .unary _ _ e | .yieldFrom _ e | .await _ e | .starred _ e => expr e
  | .subscript _ value index => hr.append (expr value) (indexes index)
  | .call _ callee args => hr.append (expr callee) (arguments args)
  | .concatenated _ left right | .binary _ _ left right | .boolean _ left right => hr.append (expr left) (expr right)
  | .formatted _ parts | .unmodelled _ parts => exprs parts
  | .list _ es | .set _ es | .tuple _ es => elements es
  | .dict _ items => dictItems items
  | .comprehension _ _ element cs => hr.append (clauses cs) (expr element)
  | .dictComprehension _ _ key value cs => hr.append (clauses cs) (hr.append (expr key) (expr value))
  | .lambda _ node ps body => hr.function node ps (.value body) (params ps) (expr body)
  | .comparison _ first others => hr.append (expr first) (exprs others)
  | .conditional _ test body orelse => hr.append (expr test) (hr.append (expr body) (expr orelse))
  | .assignment _ goal value => hr.append (expr value) (target goal)
  | .yield _ value => exprOption value

theorem target : ∀ e, R (c.target e) (d.target e) := fun e => by
  cases e with
  | attr _ object _ => exact expr object
  | subscript _ object index => exact hr.append (expr object) (indexes index)
  | list _ es | tuple _ es => exact targets es
  | starred _ inner => exact target inner
  | _ => exact hr.nil

theorem targets : ∀ es, R (c.targets es) (d.targets es)
  | [] => hr.nil
  | ⟨_, e⟩ :: rest => hr.append (target e) (targets rest)

theorem exprOption : ∀ e, R (c.exprOption e) (d.exprOption e)
  | none => hr.nil
  | some e => expr e

theorem exprs : ∀ es, R (c.exprs es) (d.exprs es)
  | [] => hr.nil
  | e :: rest => hr.append (expr e) (exprs rest)

theorem elements : ∀ es, R (c.elements es) (d.elements es)
  | [] => hr.nil
  | ⟨_, e⟩ :: rest => hr.append (expr e) (elements rest)

theorem dictItems : ∀ es, R (c.dictItems es) (d.dictItems es)
  | [] => hr.nil
  | .entry key value :: rest => hr.append (expr key) (hr.append (expr value) (dictItems rest))
  | .spread value :: rest => hr.append (expr value) (dictItems rest)

theorem arguments : ∀ es, R (c.arguments es) (d.arguments es)
  | [] => hr.nil
  | .positional e :: rest | .keyword _ e :: rest | .items e :: rest | .entries e :: rest =>
    hr.append (expr e) (arguments rest)

theorem indexes : ∀ es, R (c.indexes es) (d.indexes es)
  | [] => hr.nil
  | .single e :: rest => hr.append (expr e) (indexes rest)
  | .slice lower upper step :: rest =>
    hr.append (exprOption lower) (hr.append (exprOption upper) (hr.append (exprOption step) (indexes rest)))

theorem clauses : ∀ es, R (c.clauses es) (d.clauses es)
  | [] => hr.nil
  | ⟨goal, iterable, conditions⟩ :: rest =>
    hr.append (expr iterable) (hr.append (target goal) (hr.append (exprs conditions) (clauses rest)))

theorem param : ∀ p, R (c.param p) (d.param p)
  | ⟨_, hint, fallback⟩ => hr.append (exprOption hint) (exprOption fallback)

theorem paramOption : ∀ p, R (c.paramOption p) (d.paramOption p)
  | none => hr.nil
  | some ⟨_, hint, _⟩ => exprOption hint

theorem paramList : ∀ ps, R (c.paramList ps) (d.paramList ps)
  | [] => hr.nil
  | p :: rest => hr.append (param p) (paramList rest)

theorem params : ∀ ps, R (c.params ps) (d.params ps)
  | ⟨positionalOnly, ordinary, surplus, keywordOnly, keywordSurplus⟩ =>
    hr.append (paramList positionalOnly) (hr.append (paramList ordinary) (hr.append (paramList keywordOnly)
      (hr.append (paramOption surplus) (paramOption keywordSurplus))))

end

mutual

theorem pattern : ∀ p, R (c.pattern p) (d.pattern p)
  | .value e => hr.expr e
  | .capture inner _ => patternOption inner
  | .star _ => hr.nil
  | .mapping es _ => entries es
  | .classOf cls positional keyword =>
    hr.append (hr.expr cls) (hr.append (patterns positional) (patterns keyword))
  | .sequence ps | .alternatives ps => patterns ps

theorem patternOption : ∀ p, R (c.patternOption p) (d.patternOption p)
  | none => hr.nil
  | some p => pattern p

theorem entries : ∀ es, R (c.entries es) (d.entries es)
  | [] => hr.nil
  | (key, p) :: rest => hr.append (hr.expr key) (hr.append (pattern p) (entries rest))

theorem patterns : ∀ ps, R (c.patterns ps) (d.patterns ps)
  | [] => hr.nil
  | p :: rest => hr.append (pattern p) (patterns rest)

end

theorem flatMap (xs : List γ) (hf : ∀ x, R (f x) (g x)) : R (xs.flatMap f) (xs.flatMap g) := by
  induction xs with
  | nil => exact hr.nil
  | cons x xs ih => exact hr.append (hf x) ih

theorem context (x : Context) : R (c.context x) (d.context x) := by
  obtain ⟨value, goal⟩ := x
  cases goal with
  | none => exact hr.append (hr.expr value) hr.nil
  | some e => exact hr.append (hr.expr value) (hr.target e)

mutual

theorem stmt : ∀ s, R (c.stmt s) (d.stmt s)
  | .functionDef _ node _ ps body decorators =>
    hr.append (hr.exprs decorators) (hr.function node ps (.block body) (hr.params ps) (block body))
  | .classDef _ node _ bases keywords body decorators =>
    hr.append (hr.exprs decorators)
      (hr.append (hr.exprs bases) (hr.append (hr.exprs keywords) (hr.cls node body (block body))))
  | .line parts => block parts
  | .assign goals value => hr.append (hr.expr value) (hr.flatMap goals hr.target)
  | .declare goal hint value => hr.append (hr.expr hint) (hr.append (hr.exprOption value) (hr.target goal))
  | .augment goal _ value => hr.append (hr.expr goal) (hr.expr value)
  | .typeAlias _ value | .delete value | .expr value => hr.expr value
  | .importModules _ | .importNames .. | .importAll .. | .global _ | .nonlocal _ => hr.nil
  | .pass | .leaveLoop | .nextRound => hr.nil
  | .giveBack value => hr.exprOption value
  | .raise exception cause => hr.append (hr.exprOption exception) (hr.exprOption cause)
  | .assert test message => hr.append (hr.expr test) (hr.exprOption message)
  | .branch test body orelse | .whileLoop test body orelse =>
    hr.append (hr.expr test) (hr.append (block body) (blockOption orelse))
  | .forLoop goal iterable body orelse =>
    hr.append (hr.expr iterable)
      (hr.append (hr.target goal) (hr.append (block body) (blockOption orelse)))
  | .tryBlock body hs orelse final =>
    hr.append (block body) (hr.append (handlers hs) (hr.append (blockOption orelse) (blockOption final)))
  | .withBlock contexts body => hr.append (hr.flatMap contexts hr.context) (block body)
  | .matchBlock subject cs => hr.append (hr.expr subject) (cases cs)
  | .unmodelled parts => hr.exprs parts

theorem block : ∀ b, R (c.block b) (d.block b)
  | [] => hr.nil
  | s :: rest => hr.append (stmt s) (block rest)

theorem blockOption : ∀ b, R (c.blockOption b) (d.blockOption b)
  | none => hr.nil
  | some b => block b

theorem handlers : ∀ hs, R (c.handlers hs) (d.handlers hs)
  | [] => hr.nil
  | ⟨caught, none, body⟩ :: rest =>
    hr.append (hr.exprOption caught) (hr.append hr.nil (hr.append (block body) (handlers rest)))
  | ⟨caught, some goal, body⟩ :: rest =>
    hr.append (hr.exprOption caught) (hr.append (hr.target goal) (hr.append (block body) (handlers rest)))

theorem cases : ∀ cs, R (c.cases cs) (d.cases cs)
  | [] => hr.nil
  | ⟨p, guard, body⟩ :: rest =>
    hr.append (hr.pattern p) (hr.append (hr.exprOption guard) (hr.append (block body) (cases rest)))

end

theorem body : ∀ b, R (c.body b) (d.body b)
  | .block statements => hr.block statements
  | .value e => hr.expr e

end Related

theorem target_subset_expr (c : Collector β) : ∀ e, c.target e ⊆ c.expr e := fun e => by
  cases e with
  | attr | subscript => exact List.Subset.refl _
  | list _ es | tuple _ es => exact targets_subset_elements c es
  | starred _ inner => exact target_subset_expr c inner
  | _ => exact List.nil_subset _
where
  targets_subset_elements (c : Collector β) : ∀ es, c.targets es ⊆ c.elements es
  | [] => List.Subset.refl _
  | ⟨_, e⟩ :: rest => by
    simp only [targets, elements]
    exact List.append_subset.2 ⟨List.subset_append_of_subset_left _ (target_subset_expr c e),
      List.subset_append_of_subset_right _ (targets_subset_elements c rest)⟩

mutual

theorem target_eq_leaves (c : Collector β) : ∀ e : Expr, c.target e = e.leaves.flatMap c.target := fun e => by
  cases e with
  | list _ es | tuple _ es =>
    simp only [target, Expr.leaves]
    exact targets_eq_leavesOf c es
  | starred _ inner =>
    simp only [target, Expr.leaves]
    exact target_eq_leaves c inner
  | _ => simp [Expr.leaves]

theorem targets_eq_leavesOf (c : Collector β) : ∀ es, c.targets es = (Expr.leavesOf es).flatMap c.target
  | [] => rfl
  | ⟨_, e⟩ :: rest => by
    simp only [targets, Expr.leavesOf, List.flatMap_append]
    rw [target_eq_leaves c e, targets_eq_leavesOf c rest]

end

/-- A measure of what a collector finds that is bounded by sizes at every name and definition. -/
structure Measured (c : Collector β) (f : List β → Nat) : Prop where
  nil : f [] = 0
  append : ∀ a b, f (a ++ b) ≤ f a + f b
  use : ∀ i, f (c.use i) ≤ 1
  function : ∀ node ps b, f (c.params ps) ≤ Expr.sizeOfParams ps → f (c.body b) ≤ b.size →
    f (c.function node ps b (c.params ps) (c.body b)) ≤ Expr.sizeOfParams ps + b.size + 1
  cls : ∀ node b, f (c.block b) ≤ Stmt.sizeOfBlock b → f (c.cls node b (c.block b)) ≤ Stmt.sizeOfBlock b + 1

namespace Measured

variable {c : Collector β} {f : List β → Nat} (hf : Measured c f)

include hf

theorem add (ha : f a ≤ m) (hb : f b ≤ n) : f (a ++ b) ≤ m + n :=
  Nat.le_trans (hf.append a b) (Nat.add_le_add ha hb)

theorem join (ha : f a ≤ m) (hb : f b ≤ n) : f (a ++ b) ≤ m + n + 1 := Nat.le_succ_of_le (hf.add ha hb)

theorem within (ha : f a ≤ m) (hb : f b ≤ n) (hk : m + n ≤ k) : f (a ++ b) ≤ k := Nat.le_trans (hf.add ha hb) hk

theorem zero : f [] ≤ n := hf.nil ▸ Nat.zero_le n

mutual

theorem expr : ∀ e, f (c.expr e) ≤ e.size
  | .name i => hf.use i
  | .integer .. | .float _ | .imaginary _ | .string .. | .ellipsis _ => hf.zero
  | .attr _ e _ | .unary _ _ e | .yieldFrom _ e | .await _ e | .starred _ e => Nat.le_succ_of_le (expr e)
  | .subscript _ value index => hf.join (expr value) (indexes index)
  | .call _ callee args => hf.join (expr callee) (arguments args)
  | .concatenated _ left right | .binary _ _ left right | .boolean _ left right => hf.join (expr left) (expr right)
  | .formatted _ parts | .unmodelled _ parts => Nat.le_succ_of_le (exprs parts)
  | .list _ es | .set _ es | .tuple _ es => Nat.le_succ_of_le (elements es)
  | .dict _ items => Nat.le_succ_of_le (dictItems items)
  | .comprehension _ _ element cs => hf.within (clauses cs) (expr element) (by simp only [Expr.size]; omega)
  | .dictComprehension _ _ key value cs =>
    hf.within (clauses cs) (hf.add (expr key) (expr value)) (by simp only [Expr.size]; omega)
  | .lambda _ node ps body => hf.function node ps (.value body) (params ps) (expr body)
  | .comparison _ first others => hf.join (expr first) (exprs others)
  | .conditional _ test body orelse =>
    hf.within (expr test) (hf.add (expr body) (expr orelse)) (by simp only [Expr.size]; omega)
  | .assignment _ goal value => hf.within (expr value) (target goal) (by simp only [Expr.size]; omega)
  | .yield _ value => Nat.le_succ_of_le (exprOption value)

theorem target : ∀ e, f (c.target e) ≤ e.size := fun e => by
  cases e with
  | attr _ object _ => exact Nat.le_succ_of_le (expr object)
  | subscript _ object index => exact hf.join (expr object) (indexes index)
  | list _ es | tuple _ es => exact Nat.le_succ_of_le (targets es)
  | starred _ inner => exact Nat.le_succ_of_le (target inner)
  | _ => exact hf.zero

theorem targets : ∀ es, f (c.targets es) ≤ Expr.sizeOfElements es
  | [] => hf.zero
  | ⟨_, e⟩ :: rest => hf.add (target e) (targets rest)

theorem exprOption : ∀ e, f (c.exprOption e) ≤ Expr.sizeOfOption e
  | none => hf.zero
  | some e => expr e

theorem exprs : ∀ es, f (c.exprs es) ≤ Expr.sizeOfList es
  | [] => hf.zero
  | e :: rest => hf.add (expr e) (exprs rest)

theorem elements : ∀ es, f (c.elements es) ≤ Expr.sizeOfElements es
  | [] => hf.zero
  | ⟨_, e⟩ :: rest => hf.add (expr e) (elements rest)

theorem dictItems : ∀ es, f (c.dictItems es) ≤ Expr.sizeOfItems es
  | [] => hf.zero
  | .entry key value :: rest =>
    hf.within (expr key) (hf.add (expr value) (dictItems rest)) (by simp only [Expr.sizeOfItems]; omega)
  | .spread value :: rest => hf.add (expr value) (dictItems rest)

theorem arguments : ∀ es, f (c.arguments es) ≤ Expr.sizeOfArgs es
  | [] => hf.zero
  | .positional e :: rest | .keyword _ e :: rest | .items e :: rest | .entries e :: rest =>
    hf.add (expr e) (arguments rest)

theorem indexes : ∀ es, f (c.indexes es) ≤ Expr.sizeOfIndex es
  | [] => hf.zero
  | .single e :: rest => hf.add (expr e) (indexes rest)
  | .slice lower upper step :: rest =>
    hf.within (exprOption lower) (hf.add (exprOption upper) (hf.add (exprOption step) (indexes rest)))
      (by simp only [Expr.sizeOfIndex]; omega)

theorem clauses : ∀ es, f (c.clauses es) ≤ Expr.sizeOfClauses es
  | [] => hf.zero
  | ⟨goal, iterable, conditions⟩ :: rest =>
    hf.within (expr iterable) (hf.add (target goal) (hf.add (exprs conditions) (clauses rest)))
      (by simp only [Expr.sizeOfClauses]; omega)

theorem param : ∀ p, f (c.param p) ≤ Expr.sizeOfParam p
  | ⟨_, hint, fallback⟩ => hf.add (exprOption hint) (exprOption fallback)

theorem paramOption : ∀ p, f (c.paramOption p) ≤ Expr.sizeOfParamOption p
  | none => hf.zero
  | some ⟨_, hint, _⟩ => Nat.le_trans (exprOption hint) (Nat.le_add_right ..)

theorem paramList : ∀ ps, f (c.paramList ps) ≤ Expr.sizeOfParamList ps
  | [] => hf.zero
  | p :: rest => hf.add (param p) (paramList rest)

theorem params : ∀ ps, f (c.params ps) ≤ Expr.sizeOfParams ps
  | ⟨positionalOnly, ordinary, surplus, keywordOnly, keywordSurplus⟩ =>
    hf.within (paramList positionalOnly) (hf.add (paramList ordinary) (hf.add (paramList keywordOnly)
      (hf.add (paramOption surplus) (paramOption keywordSurplus)))) (by simp only [Expr.sizeOfParams]; omega)

end

mutual

theorem pattern : ∀ p, f (c.pattern p) ≤ p.size
  | .value e => Nat.le_succ_of_le (hf.expr e)
  | .capture inner _ => Nat.le_succ_of_le (patternOption inner)
  | .star _ => hf.zero
  | .mapping es _ => Nat.le_succ_of_le (entries es)
  | .classOf cls positional keyword =>
    hf.within (hf.expr cls) (hf.add (patterns positional) (patterns keyword)) (by simp only [Pattern.size]; omega)
  | .sequence ps | .alternatives ps => Nat.le_succ_of_le (patterns ps)

theorem patternOption : ∀ p, f (c.patternOption p) ≤ Pattern.sizeOfOption p
  | none => hf.zero
  | some p => pattern p

theorem entries : ∀ es, f (c.entries es) ≤ Pattern.sizeOfEntries es
  | [] => hf.zero
  | (key, p) :: rest =>
    hf.within (hf.expr key) (hf.add (pattern p) (entries rest)) (by simp only [Pattern.sizeOfEntries]; omega)

theorem patterns : ∀ ps, f (c.patterns ps) ≤ Pattern.sizeOfList ps
  | [] => hf.zero
  | p :: rest => hf.add (pattern p) (patterns rest)

end

theorem flatMap (xs : List γ) (hg : ∀ x, f (g x) ≤ size x) : f (xs.flatMap g) ≤ (xs.map size).sum := by
  induction xs with
  | nil => exact hf.zero
  | cons x xs ih => exact hf.add (hg x) ih

theorem context (x : Context) : f (c.context x) ≤ x.value.size + Expr.sizeOfOption x.target := by
  obtain ⟨value, goal⟩ := x
  cases goal with
  | none => exact hf.add (hf.expr value) hf.zero
  | some e => exact hf.add (hf.expr value) (hf.target e)

mutual

theorem stmt : ∀ s, f (c.stmt s) ≤ s.size
  | .functionDef _ node _ ps body decorators =>
    hf.within (hf.exprs decorators) (hf.function node ps (.block body) (hf.params ps) (block body))
      (by simp only [Stmt.size, Body.size]; omega)
  | .classDef _ node _ bases keywords body decorators =>
    hf.within (hf.exprs decorators) (hf.add (hf.exprs bases)
      (hf.add (hf.exprs keywords) (hf.cls node body (block body))))
      (by simp only [Stmt.size]; omega)
  | .line parts => Nat.le_succ_of_le (block parts)
  | .assign goals value =>
    hf.within (hf.expr value) (hf.flatMap goals hf.target) (by simp only [Stmt.size, Expr.sizeOfList_eq]; omega)
  | .declare goal hint value =>
    hf.within (hf.expr hint) (hf.add (hf.exprOption value) (hf.target goal)) (by simp only [Stmt.size]; omega)
  | .augment goal _ value => hf.join (hf.expr goal) (hf.expr value)
  | .typeAlias _ value => Nat.le_trans (hf.expr value) (by simp only [Stmt.size]; omega)
  | .delete value | .expr value => Nat.le_succ_of_le (hf.expr value)
  | .importModules _ | .importNames .. | .importAll .. | .global _ | .nonlocal _ => hf.zero
  | .pass | .leaveLoop | .nextRound => hf.zero
  | .giveBack value => Nat.le_succ_of_le (hf.exprOption value)
  | .raise exception cause => hf.join (hf.exprOption exception) (hf.exprOption cause)
  | .assert test message => hf.join (hf.expr test) (hf.exprOption message)
  | .branch test body orelse | .whileLoop test body orelse =>
    hf.within (hf.expr test) (hf.add (block body) (blockOption orelse)) (by simp only [Stmt.size]; omega)
  | .forLoop goal iterable body orelse =>
    hf.within (hf.expr iterable) (hf.add (hf.target goal) (hf.add (block body) (blockOption orelse)))
      (by simp only [Stmt.size]; omega)
  | .tryBlock body hs orelse final =>
    hf.within (block body) (hf.add (handlers hs) (hf.add (blockOption orelse) (blockOption final)))
      (by simp only [Stmt.size]; omega)
  | .withBlock contexts body =>
    hf.join (Nat.le_trans (hf.flatMap contexts hf.context) (Nat.le_of_eq (Stmt.sizeOfContexts_eq contexts).symm))
      (block body)
  | .matchBlock subject cs => hf.join (hf.expr subject) (cases cs)
  | .unmodelled parts => Nat.le_succ_of_le (hf.exprs parts)

theorem block : ∀ b, f (c.block b) ≤ Stmt.sizeOfBlock b
  | [] => hf.zero
  | s :: rest => hf.add (stmt s) (block rest)

theorem blockOption : ∀ b, f (c.blockOption b) ≤ Stmt.sizeOfBlockOption b
  | none => hf.zero
  | some b => block b

theorem handlers : ∀ hs, f (c.handlers hs) ≤ Stmt.sizeOfHandlers hs
  | [] => hf.zero
  | ⟨caught, none, body⟩ :: rest =>
    hf.within (hf.exprOption caught) (hf.add (Nat.le_of_eq hf.nil) (hf.add (block body) (handlers rest)))
      (by simp only [Stmt.sizeOfHandlers, Expr.sizeOfOption]; omega)
  | ⟨caught, some goal, body⟩ :: rest =>
    hf.within (hf.exprOption caught) (hf.add (hf.target goal) (hf.add (block body) (handlers rest)))
      (by simp only [Stmt.sizeOfHandlers, Expr.sizeOfOption]; omega)

theorem cases : ∀ cs, f (c.cases cs) ≤ Stmt.sizeOfCases cs
  | [] => hf.zero
  | ⟨p, guard, body⟩ :: rest =>
    hf.within (hf.pattern p) (hf.add (hf.exprOption guard) (hf.add (block body) (cases rest)))
      (by simp only [Stmt.sizeOfCases]; omega)

end

end Measured

end Collector

end Concordance.Syntax
