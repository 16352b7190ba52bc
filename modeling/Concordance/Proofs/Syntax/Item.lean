import Concordance.Proofs.Syntax.Collect

/-!
# What an evaluation comes upon

Evaluating a piece of code comes upon uses of names and upon definitions. A definition met again is not evaluated again,
so its parameters and the body of a class belong to a piece of code only the first time.
-/

namespace Concordance.Syntax

/-- What an evaluation comes upon. -/
inductive Item
  | use (i : Ident)
  | function (node : Nat) (params : Params Expr) (body : Body)
  | cls (node : Nat) (body : List Stmt)

def Item.nodes : Item → List Nat
  | .use _ => []
  | .function node _ _ => [node]
  | .cls node _ => [node]

def Item.bodySize : Item → Nat
  | .use _ => 0
  | .function _ _ body => body.size
  | .cls _ body => Stmt.sizeOfBlock body

def ownItems : Collector Item where
  use i := [.use i]
  function node ps b _ _ := [.function node ps b]
  cls node b _ := [.cls node b]

/-- What the first evaluation of a piece of code comes upon: the parameters of functions and the bodies of
classes too. -/
def frameItems : Collector Item where
  use i := [.use i]
  function node ps b ofParams _ := .function node ps b :: ofParams
  cls node b ofBody := .cls node b :: ofBody

/-- Everything in a piece of code, with the function in whose body it stands; none at the top. -/
def framed : Collector (Option Nat × Item) where
  use i := [(none, .use i)]
  function node ps b ofParams ofBody :=
    (none, .function node ps b) :: (ofParams ++ ofBody.map fun e => (e.1.or (some node), e.2))
  cls node b ofBody := (none, .cls node b) :: ofBody

/-- The names that a piece of code uses, wherever in it: also in the bodies of functions and classes. -/
def loads : Collector Ident where
  use i := [i]
  function _ _ _ ofParams ofBody := ofParams ++ ofBody
  cls _ _ ofBody := ofBody

section Fields

variable (node : Nat) (ps : Params Expr) (b : Body) (body : List Stmt)

theorem frameItems_function (ofParams ofBody : List Item) :
    frameItems.function node ps b ofParams ofBody = .function node ps b :: ofParams := rfl

theorem frameItems_cls (ofBody : List Item) : frameItems.cls node body ofBody = .cls node body :: ofBody := rfl

theorem framed_function (ofParams ofBody : List (Option Nat × Item)) :
    framed.function node ps b ofParams ofBody =
      (none, .function node ps b) :: (ofParams ++ ofBody.map fun e => (e.1.or (some node), e.2)) := rfl

theorem framed_cls (ofBody : List (Option Nat × Item)) :
    framed.cls node body ofBody = (none, .cls node body) :: ofBody := rfl

theorem definitionNodes_function (ofParams ofBody : List Nat) :
    definitionNodes.function node ps b ofParams ofBody = node :: (ofParams ++ ofBody) := rfl

theorem definitionNodes_cls (ofBody : List Nat) : definitionNodes.cls node body ofBody = node :: ofBody := rfl

end Fields

theorem loads_related : Collector.Related loads framed fun is es => ∀ i ∈ is, ∃ o, (o, Item.use i) ∈ es where
  nil := by simp
  append ha hb i hi := by
    rcases List.mem_append.1 hi with hi | hi
    · exact (ha i hi).imp fun _ => List.mem_append_left _
    · exact (hb i hi).imp fun _ => List.mem_append_right _
  use i j hj := ⟨none, List.mem_singleton.2 (by rw [List.mem_singleton.1 hj])⟩
  function node ps b hp hb i hi := by
    rw [framed_function]
    rcases List.mem_append.1 hi with hi | hi
    · obtain ⟨o, ho⟩ := hp i hi
      exact ⟨o, .tail _ (List.mem_append_left _ ho)⟩
    · obtain ⟨o, ho⟩ := hb i hi
      exact ⟨_, .tail _ (List.mem_append_right _ (List.mem_map_of_mem ho))⟩
  cls node b hb i hi := (hb i hi).imp fun _ => List.mem_cons_of_mem _

theorem frameItems_related :
    Collector.Related frameItems framed fun items es => ∀ x, x ∈ items ↔ (none, x) ∈ es where
  nil := by simp
  append ha hb x := by rw [List.mem_append, List.mem_append, ha, hb]
  use i x := by simp [frameItems, framed]
  function node ps b hp _ x := by
    simp only [frameItems_function, framed_function, List.mem_cons, List.mem_append, List.mem_map, Prod.mk.injEq,
      true_and, hp]
    have hno : ¬ ∃ e ∈ framed.body b, e.1.or (some node) = none ∧ e.2 = x := by
      rintro ⟨⟨o, y⟩, _, ho, _⟩
      cases o <;> cases ho
    exact ⟨fun h => h.imp_right .inl, fun h => h.imp_right fun h => h.resolve_right hno⟩
  cls node b hb x := by simp only [frameItems_cls, framed_cls, List.mem_cons, Prod.mk.injEq, true_and, hb]

theorem framed_closed : Collector.Related framed framed fun es _ => ∀ o node ps b,
    (o, Item.function node ps b) ∈ es → ∀ x ∈ frameItems.body b, (some node, x) ∈ es where
  nil := by simp
  append ha hb o node ps b hf x hx := by
    rcases List.mem_append.1 hf with hf | hf
    · exact List.mem_append_left _ (ha o node ps b hf x hx)
    · exact List.mem_append_right _ (hb o node ps b hf x hx)
  use i := by simp [framed]
  function node ps b hp hb o node' ps' b' hf x hx := by
    simp only [framed_function, List.mem_cons, List.mem_append, List.mem_map] at hf ⊢
    rcases hf with hf | hf | ⟨⟨o', y⟩, he, heq⟩
    · cases hf
      exact .inr (.inr ⟨(none, x), (frameItems_related.body b x).1 hx, rfl⟩)
    · exact .inr (.inl (hp o node' ps' b' hf x hx))
    · obtain ⟨_, rfl⟩ := Prod.mk.injEq .. ▸ heq
      exact .inr (.inr ⟨(some node', x), hb o' node' ps' b' he x hx, rfl⟩)
  cls node b hb o node' ps' b' hf x hx := by
    simp only [framed_cls, List.mem_cons, Prod.mk.injEq, reduceCtorEq, and_false, false_or] at hf ⊢
    exact .inr (hb o node' ps' b' hf x hx)

theorem definitionNodes_related :
    Collector.Related definitionNodes framed fun ns es => ns = es.flatMap fun e => e.2.nodes where
  nil := rfl
  append ha hb := by rw [List.flatMap_append, ha, hb]
  use _ := rfl
  function node ps b hp hb := by
    rw [definitionNodes_function, framed_function, hp, hb, List.flatMap_cons, List.flatMap_append, List.flatMap_map]
    rfl
  cls node b hb := by
    rw [definitionNodes_cls, framed_cls, hb, List.flatMap_cons]
    rfl

theorem mem_unique_of_nodup_flatMap {α β : Type} {g : α → List β} {xs : List α} (hn : (xs.flatMap g).Nodup)
    {x y : α} {b : β} (hx : x ∈ xs) (hy : y ∈ xs) (hbx : b ∈ g x) (hby : b ∈ g y) : x = y := by
  induction xs with
  | nil => cases hx
  | cons z zs ih =>
    rw [List.flatMap_cons, List.nodup_append] at hn
    obtain ⟨_, hzs, hdisj⟩ := hn
    rcases List.mem_cons.1 hx with rfl | hx' <;> rcases List.mem_cons.1 hy with rfl | hy'
    · rfl
    · exact absurd rfl (hdisj b hbx b (List.mem_flatMap.2 ⟨y, hy', hby⟩))
    · exact absurd rfl (hdisj b hby b (List.mem_flatMap.2 ⟨x, hx', hbx⟩))
    · exact ih hzs hx' hy'

theorem Module.frame_unique (m : Module)
    (hx : (o, x) ∈ framed.block m.body) (hy : (o', y) ∈ framed.block m.body) (hnx : n ∈ x.nodes)
    (hny : n ∈ y.nodes) : o = o' ∧ x = y := by
  have hn := m.distinct
  rw [definitionNodes_related.block] at hn
  have heq := mem_unique_of_nodup_flatMap hn hx hy hnx hny
  exact ⟨congrArg Prod.fst heq, congrArg Prod.snd heq⟩

def largest {β : Type} (size : β → Nat) (xs : List β) : Nat := (xs.map size).foldr max 0

section Largest

variable {β : Type}

theorem largest_append (a b : List β) : largest size (a ++ b) = max (largest size a) (largest size b) := by
  induction a with
  | nil => simp [largest]
  | cons x a ih =>
    simp only [largest, List.cons_append, List.map_cons, List.foldr_cons] at ih ⊢
    rw [ih, Nat.max_assoc]

theorem largest_cons (x : β) (xs : List β) : largest size (x :: xs) = max (size x) (largest size xs) := rfl

theorem le_largest (size : β → Nat) (hx : x ∈ xs) : size x ≤ largest size xs := by
  induction xs with
  | nil => cases hx
  | cons y ys ih =>
    rw [largest_cons]
    rcases List.mem_cons.1 hx with rfl | hx
    · exact Nat.le_max_left ..
    · exact Nat.le_trans (ih hx) (Nat.le_max_right ..)

end Largest

theorem bodySize_measured :
    Collector.Measured framed (largest fun e : Option Nat × Item => e.2.bodySize + 1) where
  nil := rfl
  append a b := by rw [largest_append]; omega
  use _ := Nat.le_refl 1
  function node ps b hp hb := by
    have hmap : largest (fun e : Option Nat × Item => e.2.bodySize + 1)
        ((framed.body b).map fun e => (e.1.or (some node), e.2)) =
          largest (fun e : Option Nat × Item => e.2.bodySize + 1) (framed.body b) := by
      simp [largest, List.map_map, Function.comp_def]
    have hown : (Item.function node ps b).bodySize = b.size := rfl
    rw [framed_function, largest_cons, largest_append, hmap, hown]
    omega
  cls node b hb := by
    have hown : (Item.cls node b).bodySize = Stmt.sizeOfBlock b := rfl
    rw [framed_cls, largest_cons, hown]
    omega

/-- The size of the parameters of a definition, counting the definition itself. -/
def Item.paramsSize : Item → Nat
  | .function _ ps _ => Expr.sizeOfParams ps + 1
  | _ => 0

theorem paramsSize_measured : Collector.Measured frameItems (largest Item.paramsSize) where
  nil := rfl
  append a b := by rw [largest_append]; omega
  use _ := by simp [frameItems, largest, Item.paramsSize]
  function node ps b hp _ := by
    rw [frameItems_function, largest_cons]
    simp only [Item.paramsSize]
    omega
  cls node b hb := by
    rw [frameItems_cls, largest_cons]
    simp only [Item.paramsSize]
    omega

theorem function_not_mem_params (node : Nat) (ps : Params Expr) (b : Body) :
    Item.function node ps b ∉ frameItems.params ps := by
  intro hmem
  have hle := Nat.le_trans (le_largest Item.paramsSize hmem) (paramsSize_measured.params ps)
  simp only [Item.paramsSize] at hle
  omega

theorem frameItems_closed : Collector.Related frameItems frameItems fun items _ =>
    ∀ node ps b, Item.function node ps b ∈ items → ∀ x ∈ frameItems.params ps, x ∈ items where
  nil := by simp
  append ha hb node ps b hf x hx := by
    rcases List.mem_append.1 hf with hf | hf
    · exact List.mem_append_left _ (ha node ps b hf x hx)
    · exact List.mem_append_right _ (hb node ps b hf x hx)
  use i := by simp [frameItems]
  function node ps b hp _ node' ps' b' hf x hx := by
    rw [frameItems_function] at hf ⊢
    rcases List.mem_cons.1 hf with hf | hf
    · cases hf
      exact .tail _ hx
    · exact .tail _ (hp node' ps' b' hf x hx)
  cls node b hb node' ps' b' hf x hx := by
    rw [frameItems_cls] at hf ⊢
    rcases List.mem_cons.1 hf with hf | hf
    · cases hf
    · exact .tail _ (hb node' ps' b' hf x hx)

theorem definitionNodes_measured : Collector.Measured definitionNodes List.length where
  nil := rfl
  append a b := Nat.le_of_eq List.length_append
  use _ := Nat.zero_le _
  function node ps b hp hb := by
    rw [definitionNodes_function, List.length_cons, List.length_append]
    omega
  cls node b hb := Nat.succ_le_succ hb

theorem Module.bodySize_lt (m : Module) (hx : (o, x) ∈ framed.block m.body) : x.bodySize < m.size :=
  Nat.lt_succ_of_le (Nat.le_of_lt (Nat.lt_of_lt_of_le
    (le_largest (fun e : Option Nat × Item => e.2.bodySize + 1) hx) (bodySize_measured.block m.body)))

theorem Module.mem_definitionNodes (m : Module)
    (hx : (o, x) ∈ framed.block m.body) (hn : n ∈ x.nodes) : n ∈ definitionNodes.block m.body := by
  rw [definitionNodes_related.block]
  exact List.mem_flatMap.2 ⟨(o, x), hx, hn⟩

end Concordance.Syntax
