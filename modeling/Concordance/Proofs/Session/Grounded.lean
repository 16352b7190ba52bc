import Concordance.Proofs.Session.Later

/-!
# Where functions come from

Every function with code comes from a definition in the tree of a unit that a module was made from, and every definition
has one function.
-/

namespace Concordance

open Syntax (Item framed frameItems)

variable {code : Code}

namespace Session

def Knows (s : Session) (unit : SourceUnit) : Prop :=
  unit ∈ s.loading.units.values ∨ ∃ p, s.loading.cache.units.get? p = some unit

/-- A session in which functions and units are accounted for. -/
structure Grounded (s : Session) : Prop where
  numbers : ∀ unit, s.Knows unit → unit.number < s.loading.cache.parses
  unique : ∀ a b, s.Knows a → s.Knows b → a.number = b.number → a = b
  weight : ∀ units : List SourceUnit, (∀ unit ∈ units, s.Knows unit) → (units.map SourceUnit.number).Nodup →
    (units.map fun unit => unit.tree.size).sum ≤ s.loading.cache.weight
  codes : ∀ f c, (s.heap.function f).code = some c → ∃ unit ∈ s.loading.units.values, c.unit = unit.ref ∧
    ∃ o, (o, c.item) ∈ framed.block unit.tree.body
  known : ∀ f c, (s.heap.function f).code = some c → s.definitions.functions.get? c.ref = some f

/-- A frame that is being evaluated: that of a file, or the body of a function. -/
def Held (s : Session) (unit : SourceUnit) : Option Nat → Prop
  | none => unit.path ∈ s.loading.stack
  | some node => ∃ f ∈ s.callStack, ∃ c, (s.heap.function f).code = some c ∧ c.ref = ⟨unit.number, node⟩

def Holds (s : Session) (u : UnitRef) (x : Item) : Prop :=
  ∃ unit ∈ s.loading.units.values, u = unit.ref ∧ ∃ o, (o, x) ∈ framed.block unit.tree.body ∧ s.Held unit o

/-- What a run may define stands in frames that are being evaluated. -/
structure Frame (D : UnitRef → Item → Prop) (s : Session) : Prop where
  holds : ∀ u x, D u x → s.Holds u x
  params : ∀ u node ps b, D u (.function node ps b) → ∀ x ∈ frameItems.params ps, D u x

/-- A definition that stands in a frame being evaluated is left to that frame: a run that may not define it does
not. -/
def Spares (D : UnitRef → Item → Prop) (s s' : Session) : Prop :=
  ∀ u x node, s.Holds u x → node ∈ x.nodes → (∀ y, D u y → node ∉ y.nodes) →
    s.definitions.functions.get? ⟨u.number, node⟩ = none → s'.definitions.functions.get? ⟨u.number, node⟩ = none

variable {s s' : Session}

theorem Grounded.congr (hg : s.Grounded) (units : s'.loading.units = s.loading.units)
    (cache : s'.loading.cache = s.loading.cache)
    (codes : ∀ f, (s'.heap.function f).code = (s.heap.function f).code)
    (functions : s'.definitions.functions = s.definitions.functions) : s'.Grounded := by
  have hknows : ∀ unit, s'.Knows unit ↔ s.Knows unit := fun unit => by rw [Knows, Knows, units, cache]
  refine ⟨fun unit hu => ?_, fun a b ha hb => hg.unique a b ((hknows a).1 ha) ((hknows b).1 hb), fun us hus hn => ?_,
    fun f c hc => ?_, fun f c hc => ?_⟩
  · rw [cache]
    exact hg.numbers unit ((hknows unit).1 hu)
  · rw [cache]
    exact hg.weight us (fun unit hu => (hknows unit).1 (hus unit hu)) hn
  · rw [units]
    exact hg.codes f c (codes f ▸ hc)
  · rw [functions]
    exact hg.known f c (codes f ▸ hc)

theorem Held.mono (hh : s.Held unit o)
    (stack : s.loading.stack ⊆ s'.loading.stack) (calls : s.callStack ⊆ s'.callStack) (later : s.Later s') :
    s'.Held unit o := by
  cases o with
  | none => exact stack hh
  | some node =>
    obtain ⟨f, hf, c, hc, href⟩ := hh
    exact ⟨f, calls hf, c, later.codes f c hc, href⟩

theorem Holds.mono (hh : s.Holds u x) (stack : s.loading.stack ⊆ s'.loading.stack)
    (calls : s.callStack ⊆ s'.callStack) (later : s.Later s') : s'.Holds u x := by
  obtain ⟨unit, hunit, hu, o, hx, hheld⟩ := hh
  exact ⟨unit, later.units unit hunit, hu, o, hx, hheld.mono stack calls later⟩

theorem Frame.mono (hf : Frame D s) (stack : s.loading.stack ⊆ s'.loading.stack)
    (calls : s.callStack ⊆ s'.callStack) (later : s.Later s') : Frame D s' :=
  ⟨fun u x hx => (hf.holds u x hx).mono stack calls later, hf.params⟩

theorem Frame.empty : Frame (fun _ _ => False) s := ⟨fun _ _ h => h.elim, fun _ _ _ _ h => h.elim⟩

theorem Frame.ofParams (hf : Frame D s) (owned : D code.unit code.item) : Frame code.OwnsInParams s where
  holds u x hx := by
    obtain ⟨rfl, hx⟩ := hx
    exact hf.holds _ x (hf.params _ _ _ _ owned x hx)
  params _ node ps b hfun x hx := ⟨hfun.1, Syntax.frameItems_closed.params _ node ps b hfun.2 x hx⟩

theorem Frame.ofParams_owned (hf : Frame D s)
    (owned : D code.unit code.item) (hx : code.OwnsInParams u x) : D u x := by
  obtain ⟨rfl, hx⟩ := hx
  exact hf.params _ _ _ _ owned x hx

theorem Frame.ofBody (hg : s.Grounded) (isCode : (s.heap.function f).code = some code)
    (inside : f ∈ s.callStack) : Frame code.Owns s where
  holds u x hx := by
    obtain ⟨rfl, hx⟩ := hx
    obtain ⟨unit, hunit, hu, o, hitem⟩ := hg.codes f code isCode
    refine ⟨unit, hunit, hu, some code.node, Syntax.framed_closed.block _ o _ _ _ hitem x hx, f, inside, code, isCode, ?_⟩
    rw [Code.ref, hu]
    rfl
  params _ node ps b hfun x hx := ⟨hfun.1, Syntax.frameItems_closed.body _ node ps b hfun.2 x hx⟩

theorem Frame.ofUnit (known : unit ∈ s.loading.units.values)
    (inside : unit.path ∈ s.loading.stack) : Frame unit.Owns s where
  holds _ x hx := ⟨unit, known, hx.1, none, (Syntax.frameItems_related.block _ x).1 hx.2, inside⟩
  params _ node ps b hfun x hx := ⟨hfun.1, Syntax.frameItems_closed.block _ node ps b hfun.2 x hx⟩

theorem Frame.ofOpened (unit : SourceUnit)
    (hstack : s.loading.stack = unit.path :: stack) : Frame unit.Owns (s.addUnit m unit) :=
  .ofUnit Table.mem_values_insert_self (hstack ▸ List.mem_cons_self ..)

theorem Holds.addUnit (hh : s.Holds u x) (unit : SourceUnit)
    (opens : s.Opens m unit) : (s.addUnit m unit).Holds u x :=
  hh.mono (List.Subset.refl _) (List.Subset.refl _) (.addUnit unit opens.fresh)

theorem Grounded.eq_of_ref (hg : s.Grounded) (ha : a ∈ s.loading.units.values)
    (hb : b ∈ s.loading.units.values) (hn : a.number = b.number) : a = b :=
  hg.unique a b (.inl ha) (.inl hb) hn

theorem Grounded.leaveCall (hg : s.Grounded) (f : FunctionId) (stack : List FunctionId) (yields : Option TypeId) :
    (s.leaveCall f stack yields).Grounded := hg.congr rfl rfl (fun g => code_modify f g fun _ => rfl) rfl

theorem Grounded.recordCall (hg : s.Grounded) (f : FunctionId) (key result : TypeId) :
    (s.recordCall f key result).Grounded := hg.congr rfl rfl (fun g => code_modify f g fun _ => rfl) rfl

theorem code_enterCall (f : FunctionId) (he : Heap.Evolves (s.markCalled f).heap h) (g : FunctionId) :
    ((((s.markCalled f).withHeap h).enterCall f).heap.function g).code = (s.heap.function g).code := by
  calc ((((s.markCalled f).withHeap h).enterCall f).heap.function g).code
      = (h.function g).code := code_modify f g fun _ => rfl
    _ = ((s.markCalled f).heap.function g).code := he.code g
    _ = (s.heap.function g).code := code_markCalled f g

theorem Grounded.enter (hg : s.Grounded) (he : Heap.Evolves (s.markCalled f).heap h) :
    (((s.markCalled f).withHeap h).enterCall f).Grounded := hg.congr rfl rfl (code_enterCall f he) rfl

theorem Holds.enter (hh : s.Holds u x)
    (he : Heap.Evolves (s.markCalled f).heap h) : (((s.markCalled f).withHeap h).enterCall f).Holds u x :=
  hh.mono (List.Subset.refl _) (List.subset_cons_self ..)
    (((Later.markCalled f).trans (.of_evolves he)).trans (.enterCall f))

theorem Holds.enterFile (hh : s.Holds u x) (path : String) : (s.enterFile path).Holds u x :=
  hh.mono (List.subset_cons_self ..) (List.Subset.refl _) (.enterFile path)

section Cache

theorem Knows.of_keep (hv : Knows { s with loading.cache := s.loading.cache.keep unit } v) : v = unit ∨ s.Knows v := by
  rcases hv with hv | ⟨p, hp⟩
  · exact .inr (.inl hv)
  · by_cases heq : p = unit.path
    · subst heq
      exact .inl (Option.some.inj (hp.symm.trans (Table.get?_insert_self ..)))
    · exact .inr (.inr ⟨p, (Table.get?_insert_of_ne heq ..).symm.trans hp⟩)

theorem Knows.of_forget (hv : Knows { s with loading.cache := s.loading.cache.clear } v) : s.Knows v := by
  rcases hv with hv | ⟨p, hp⟩
  · exact .inl hv
  · cases hp

theorem Knows.of_addUnit (opens : s.Opens m unit) (hv : (s.addUnit m unit).Knows v) : s.Knows v := by
  rcases hv with hv | hv
  · rcases Table.mem_values_insert hv with rfl | hv
    · exact .inr ⟨v.path, opens.cached⟩
    · exact .inl hv
  · exact .inr hv

theorem Grounded.keep (hg : s.Grounded) (number : unit.number = s.loading.cache.parses) :
    Grounded { s with loading.cache := s.loading.cache.keep unit } := by
  have hfresh : ∀ {v : SourceUnit}, s.Knows v → v.number ≠ unit.number := by
    intro v hv heq
    have := hg.numbers v hv
    omega
  refine ⟨fun v hv => ?_, fun a b ha hb hn => ?_, fun us hus hn => ?_, hg.codes, hg.known⟩
  · show v.number < s.loading.cache.parses + 1
    rcases Knows.of_keep hv with rfl | hv
    · omega
    · exact Nat.lt_succ_of_lt (hg.numbers v hv)
  · rcases Knows.of_keep ha with rfl | ha' <;> rcases Knows.of_keep hb with rfl | hb'
    · rfl
    · exact absurd hn.symm (hfresh hb')
    · exact absurd hn (hfresh ha')
    · exact hg.unique a b ha' hb' hn
  · show (us.map fun v => v.tree.size).sum ≤ s.loading.cache.weight + unit.tree.size
    -- The new unit stands in the row at most once; the others were known before.
    by_cases hmem : unit ∈ us
    · obtain ⟨a, b, rfl⟩ := List.append_of_mem hmem
      have hothers : ∀ v ∈ a ++ b, v ≠ unit := by
        rintro v hv rfl
        rw [List.map_append, List.map_cons, List.nodup_middle, List.nodup_cons, ← List.map_append] at hn
        exact hn.1 (List.mem_map_of_mem hv)
      have hrest := hg.weight (a ++ b) (fun v hv => ?_) ?_
      · simp only [List.map_append, List.map_cons, List.sum_append, List.sum_cons] at hrest ⊢
        omega
      · refine (Knows.of_keep (hus v ?_)).resolve_left (hothers v hv)
        simp only [List.mem_append, List.mem_cons] at hv ⊢
        tauto
      · rw [List.map_append, List.map_cons, List.nodup_middle, ← List.map_append] at hn
        exact hn.of_cons
    · refine Nat.le_trans (hg.weight us (fun v hv => ?_) hn) (Nat.le_add_right ..)
      exact (Knows.of_keep (hus v hv)).resolve_left fun heq => hmem (heq ▸ hv)

theorem Grounded.forget (hg : s.Grounded) : Grounded { s with loading.cache := s.loading.cache.clear } :=
  ⟨fun v hv => hg.numbers v hv.of_forget, fun a b ha hb => hg.unique a b ha.of_forget hb.of_forget,
    fun us hus hn => hg.weight us (fun v hv => (hus v hv).of_forget) hn, hg.codes, hg.known⟩

theorem Grounded.addUnit (hg : s.Grounded) (opens : s.Opens m unit) :
    (s.addUnit m unit).Grounded := by
  refine ⟨fun v hv => hg.numbers v (hv.of_addUnit opens),
    fun a b ha hb => hg.unique a b (ha.of_addUnit opens) (hb.of_addUnit opens),
    fun us hus hn => hg.weight us (fun v hv => (hus v hv).of_addUnit opens) hn, fun f c hc => ?_, hg.known⟩
  obtain ⟨v, hv, hrest⟩ := hg.codes f c hc
  exact ⟨v, (Later.addUnit unit opens.fresh).units v hv, hrest⟩

end Cache

theorem Change.grounded (hc : Change env s s') (hg : s.Grounded) : s'.Grounded := by
  cases hc with
  | heap h hc => exact hg.congr rfl rfl (fun f => (Heap.Evolves.single hc).code f) rfl
  | yields f t => exact hg.congr rfl rfl (fun g => code_modify f g fun _ => rfl) rfl
  | parse unit parses => exact hg.keep parses.number
  | forget _ => exact hg.forget
  | _ => exact hg.congr rfl rfl (fun _ => rfl) rfl

theorem Change.functions (hc : Change env s s') :
    s'.definitions.functions = s.definitions.functions := by cases hc <;> rfl

theorem Grounded.define (hg : s.Grounded)
    (isCode : function.code = some code) (unknown : s.definitions.functions.get? code.ref = none)
    (hf : Frame D s) (owned : D code.unit code.item) : (s.define code function).Grounded := by
  have hfun : ∀ g, (s.define code function).heap.function g =
      if g = ⟨s.heap.functions.size⟩ then function else s.heap.function g := fun g => Heap.function_push g function
  refine ⟨hg.numbers, hg.unique, hg.weight, fun g c hc => ?_, fun g c hc => ?_⟩
  · rw [hfun] at hc
    split at hc
    · cases isCode.symm.trans hc
      obtain ⟨unit, hunit, hu, o, hx, _⟩ := hf.holds _ _ owned
      exact ⟨unit, hunit, hu, o, hx⟩
    · exact hg.codes g c hc
  · rw [hfun] at hc
    show (s.definitions.functions.insert code.ref ⟨s.heap.functions.size⟩).get? c.ref = some g
    split at hc
    · rename_i hg
      cases isCode.symm.trans hc
      rw [Table.get?_insert_self, hg]
    · have hknown := hg.known g c hc
      rw [Table.get?_insert_of_ne fun heq => ?_]
      · exact hknown
      · rw [heq, unknown] at hknown
        cases hknown

theorem not_in_own_params (hg : s.Grounded) (hf : Frame D s)
    (owned : D code.unit code.item) (hy : code.OwnsInParams code.unit y) : code.node ∉ y.nodes := by
  intro hny
  obtain ⟨unit, hunit, hu, o, hmem, _⟩ := hf.holds _ _ owned
  obtain ⟨unit', hunit', hu', o', hmem', _⟩ := (hf.ofParams owned).holds _ _ hy
  obtain rfl := hg.eq_of_ref hunit hunit' (congrArg UnitRef.number (hu.symm.trans hu'))
  obtain ⟨_, rfl⟩ := unit.tree.frame_unique hmem hmem' (List.mem_singleton.2 rfl) hny
  exact Syntax.function_not_mem_params _ _ _ hy.2

theorem Spares.unknown (hs : Spares code.OwnsInParams s s') (hg : s.Grounded)
    (hf : Frame D s) (owned : D code.unit code.item) (unknown : s.definitions.functions.get? code.ref = none) :
    s'.definitions.functions.get? code.ref = none :=
  hs code.unit code.item code.node (hf.holds _ _ owned) (List.mem_singleton.2 rfl)
    (fun _ hy => not_in_own_params hg hf owned hy) unknown

theorem Holds.not_in_body (hh : s.Holds u x)
    (hg : s.Grounded) (isCode : (s.heap.function f).code = some code) (outside : f ∉ s.callStack)
    (hx : node ∈ x.nodes) (hy : code.Owns u y) : node ∉ y.nodes := by
  intro hny
  obtain ⟨unit, hunit, hu, o, hmem, hheld⟩ := hh
  obtain ⟨unit', hunit', hu', o', hitem⟩ := hg.codes f code isCode
  have href : unit.ref = unit'.ref := hu.symm.trans (hy.1.trans hu')
  obtain rfl := hg.eq_of_ref hunit hunit' (congrArg UnitRef.number href)
  have hbody := Syntax.framed_closed.block _ o' _ _ _ hitem y hy.2
  obtain ⟨rfl, _⟩ := unit.tree.frame_unique hmem hbody hx hny
  obtain ⟨g, hg', c, hc, hcref⟩ := hheld
  have hcode : c.ref = code.ref := by
    rw [hcref, Code.ref, hu']
    rfl
  have hsame := hg.known g c hc
  rw [hcode, hg.known f code isCode] at hsame
  exact outside (Option.some.inj hsame ▸ hg')

theorem Holds.not_in_unit (hh : s.Holds u x)
    (hg : s'.Grounded) (later : s.Later s') (known : unit ∈ s'.loading.units.values)
    (outside : unit.path ∉ s.loading.stack) (hx : node ∈ x.nodes) (hy : unit.Owns u y) : node ∉ y.nodes := by
  intro hny
  obtain ⟨unit', hunit', hu', o, hmem, hheld⟩ := hh
  have href : unit'.ref = unit.ref := hu'.symm.trans hy.1
  obtain rfl := hg.eq_of_ref (later.units unit' hunit') known (congrArg UnitRef.number href)
  have htop := (Syntax.frameItems_related.block _ y).1 hy.2
  obtain ⟨rfl, _⟩ := unit'.tree.frame_unique hmem htop hx hny
  exact outside hheld

end Session

namespace Run

open Session

variable {s : Session}

theorem holds (hr : Run env D b s s') (hh : s.Holds u x) : s'.Holds u x :=
  hh.mono (hr.stack ▸ List.Subset.refl _) (hr.callStack ▸ List.Subset.refl _) hr.later

theorem frame (hr : Run env D b s s') (hf : Frame D' s) : Frame D' s' :=
  hf.mono (hr.stack ▸ List.Subset.refl _) (hr.callStack ▸ List.Subset.refl _) hr.later

theorem later_addUnit (hr : Run env D b (s.enterFile unit.path) s')
    (opens : s'.Opens m unit) : s.Later (s'.addUnit m unit) :=
  ((Session.Later.enterFile unit.path).trans hr.later).trans (.addUnit unit opens.fresh)

theorem spares_body (hg : s.Grounded)
    (isCode : (s.heap.function f).code = some code) (outside : f ∉ s.callStack)
    (setup : Heap.Evolves (s.markCalled f).heap h)
    (hs : Spares code.Owns (((s.markCalled f).withHeap h).enterCall f) s') : Spares D s s' :=
  fun u x node hh hn _ => hs u x node (hh.enter setup) hn fun _ hy => hh.not_in_body hg isCode outside hn hy

theorem spares_unit (hg : (s'.addUnit m unit).Grounded)
    (outside : unit.path ∉ s.loading.stack) (parsing : Run env (fun _ _ => False) true (s.enterFile unit.path) s')
    (opens : s'.Opens m unit) (hs' : Spares (fun _ _ => False) (s.enterFile unit.path) s')
    (hs'' : Spares unit.Owns (s'.addUnit m unit) s'') : Spares D s s'' := by
  intro u x node hh hn _ h
  have hh1 := hh.enterFile unit.path
  refine hs'' u x node ((parsing.holds hh1).addUnit unit opens) hn (fun y hy => ?_) ?_
  · exact hh.not_in_unit hg (parsing.later_addUnit opens) Table.mem_values_insert_self outside hn hy
  · exact hs' u x node hh1 hn (fun _ hy => hy.elim) h

theorem grounded (hr : Run env D b s s') (hg : s.Grounded) (hf : Frame D s) : s'.Grounded ∧ Spares D s s' := by
  induction hr with
  | refl => exact ⟨hg, fun _ _ _ _ _ _ h => h⟩
  | change hc => exact ⟨hc.grounded hg, fun _ _ _ _ _ _ h => hc.functions ▸ h⟩
  | @trans D b s s' s'' hr hr' ih ih' =>
    obtain ⟨hg', hs'⟩ := ih hg hf
    obtain ⟨hg'', hs''⟩ := ih' hg' (hr.frame hf)
    refine ⟨hg'', fun u x node hh hn havoid h => ?_⟩
    exact hs'' u x node (hr.holds hh) hn havoid (hs' u x node hh hn havoid h)
  | stop _ ih => exact ih hg hf
  | @define D s s' h code function owned unknown params _ setup made ih =>
    have hparams := hf.ofParams owned
    obtain ⟨hg', hs'⟩ := ih hg hparams
    have hg1 : (s'.withHeap h).Grounded := hg'.congr rfl rfl (fun f => setup.code f) rfl
    have hf1 : Frame D (s'.withHeap h) :=
      (params.frame hf).mono (List.Subset.refl _) (List.Subset.refl _) (.of_evolves setup)
    -- The parameters were evaluated in between, but the definition does not stand in them.
    have hunknown : (s'.withHeap h).definitions.functions.get? code.ref = none := hs'.unknown hg hf owned unknown
    refine ⟨hg1.define made.code hunknown hf1 owned, fun u x node hh hn havoid h => ?_⟩
    -- Another frame's definition is another one: the run may define this one, but must not define that.
    have hne : (⟨u.number, node⟩ : NodeRef) ≠ code.ref := by
      intro heq
      obtain ⟨unit, hunit, hu, _⟩ := hh
      obtain ⟨unit', hunit', hu', _⟩ := hf.holds _ _ owned
      have hsame := hg.eq_of_ref hunit hunit' (by simpa [Code.ref, hu, hu', SourceUnit.ref] using congrArg NodeRef.unit heq)
      have hunits : u = code.unit := by rw [hu, hu', hsame]
      refine havoid code.item (hunits ▸ owned) (List.mem_singleton.2 ?_)
      exact congrArg NodeRef.node heq
    have hkept : s'.definitions.functions.get? ⟨u.number, node⟩ = none :=
      hs' u x node hh hn (fun y hy => havoid y (hf.ofParams_owned owned hy)) h
    exact (Table.get?_insert_of_ne hne ..).trans hkept
  | defineBroken code owned unknown params ih =>
    obtain ⟨hg', hs'⟩ := ih hg (hf.ofParams owned)
    refine ⟨hg', fun u x node hh hn havoid h => ?_⟩
    exact hs' u x node hh hn (fun y hy => havoid y (hf.ofParams_owned owned hy)) h
  | @defineClass D b s s' h u node c body owned unknown setup rest covered ih =>
    have hl : s.Later ((s.withHeap h).addClass ⟨u.number, node⟩ c) :=
      (Session.Later.of_evolves setup).trans (.addClass ⟨u.number, node⟩ c)
    have hg1 : ((s.withHeap h).addClass ⟨u.number, node⟩ c).Grounded :=
      hg.congr rfl rfl (fun f => setup.code f) rfl
    obtain ⟨hg', hs'⟩ := ih hg1 (hf.mono (List.Subset.refl _) (List.Subset.refl _) hl)
    exact ⟨hg', fun v x n hh => hs' v x n (hh.mono (List.Subset.refl _) (List.Subset.refl _) hl)⟩
  | mark f settled =>
    exact ⟨hg.congr rfl rfl (code_markCalled f) rfl, fun _ _ _ _ _ _ h => h⟩
  | apply f code key result isCode native outside setup body covered computed ih =>
    obtain ⟨hg', hs'⟩ := ih (hg.enter setup) (.ofBody (hg.enter setup) ((code_enterCall f setup f).trans isCode)
      (.head _))
    exact ⟨(hg'.leaveCall f _ _).recordCall f key result, spares_body hg isCode outside setup hs'⟩
  | applyBroken f code isCode native outside setup body ih =>
    obtain ⟨hg', hs'⟩ := ih (hg.enter setup) (.ofBody (hg.enter setup) ((code_enterCall f setup f).trans isCode)
      (.head _))
    exact ⟨hg'.leaveCall f _ _, spares_body hg isCode outside setup hs'⟩
  | @load D s s' s'' m unit canonical outside parsing opens body covered ih ih' =>
    obtain ⟨hg', hs'⟩ := ih (hg.congr rfl rfl (fun _ => rfl) rfl) .empty
    have hg1 := hg'.addUnit opens
    obtain ⟨hg'', hs''⟩ := ih' hg1 (.ofOpened unit parsing.stack)
    exact ⟨hg''.congr rfl rfl (fun _ => rfl) rfl, spares_unit hg1 outside parsing opens hs' hs''⟩
  | @loadBroken D s s' s'' m unit canonical outside parsing opens body ih ih' =>
    obtain ⟨hg', hs'⟩ := ih (hg.congr rfl rfl (fun _ => rfl) rfl) .empty
    have hg1 := hg'.addUnit opens
    obtain ⟨hg'', hs''⟩ := ih' hg1 (.ofOpened unit parsing.stack)
    exact ⟨hg''.congr rfl rfl (fun _ => rfl) rfl, spares_unit hg1 outside parsing opens hs' hs''⟩
  | loadFailed path canonical outside opening ih =>
    obtain ⟨hg', hs'⟩ := ih (hg.congr rfl rfl (fun _ => rfl) rfl) .empty
    refine ⟨hg'.congr rfl rfl (fun _ => rfl) rfl, fun u x node hh hn _ h => ?_⟩
    exact hs' u x node (hh.enterFile path) hn (fun _ hy => hy.elim) h

end Run

end Concordance
