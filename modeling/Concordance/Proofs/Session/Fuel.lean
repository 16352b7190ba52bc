import Mathlib.Algebra.Order.BigOperators.Group.List
import Mathlib.Data.List.Dedup
import Mathlib.Data.List.Perm.Subperm
import Concordance.Proofs.Inference.Evaluate
import Concordance.Proofs.Session.Grounded

/-!
# Fuel

Why the depth of nested tasks is bounded. Inside the body of a function or the top of a file, every task is on smaller
code than the one around it.
-/

namespace Concordance

open Syntax (Item definitionNodes)

section Funding

/-- The trees parsed since the weight was `base` are those of different files of the workspace, which are still
in the cache. -/
structure UnitCache.Funded (env : Environment) (base : Nat) (c : UnitCache) : Prop where
  parsed : ∃ paths : List String, paths.Nodup ∧ (∀ p ∈ paths, env.IsCanonical p ∧ c.units.get? p ≠ none) ∧
    (env.shortage ≠ none → paths = []) ∧ c.weight = base + (paths.map env.workspace.treeSize).sum

variable {env : Environment} {c : UnitCache}

theorem UnitCache.Funded.start (env : Environment) (c : UnitCache) : c.Funded env c.weight :=
  ⟨[], List.nodup_nil, by simp, fun _ => rfl, rfl⟩

theorem Environment.IsCanonical.text (hc : env.IsCanonical path) : ∃ parts, Workspace.CanonicalText path parts := by
  obtain ⟨p, q, hq, rfl⟩ := hc
  exact ⟨q.parts, env.workspace.canonicalText_of_canonical hq⟩

theorem UnitCache.Funded.weight_le (hf : c.Funded env base) : c.weight ≤ base + env.workspace.top.weight := by
  obtain ⟨paths, hnodup, hpaths, _, hweight⟩ := hf.parsed
  have := env.workspace.sum_treeSize_le hnodup fun p hp => (hpaths p hp).1.text
  omega

theorem UnitCache.Funded.keep (hf : c.Funded env base) (hp : env.Parses c unit) : (c.keep unit).Funded env base := by
  obtain ⟨paths, hnodup, hpaths, _, hweight⟩ := hf.parsed
  obtain ⟨file, hread, htree⟩ := hp.file
  obtain ⟨parts, htext⟩ := hp.canonical.text
  have hnew : unit.path ∉ paths := fun hmem => (hpaths _ hmem).2 hp.absent
  refine ⟨unit.path :: paths, List.nodup_cons.2 ⟨hnew, hnodup⟩, fun p hmem => ?_, fun h => absurd hp.unharmed h, ?_⟩
  · rcases List.mem_cons.1 hmem with rfl | hmem
    · exact ⟨hp.canonical, by simp [UnitCache.keep]⟩
    · have hne : p ≠ unit.path := fun heq => hnew (heq ▸ hmem)
      refine ⟨(hpaths p hmem).1, ?_⟩
      rw [UnitCache.keep, Table.get?_insert_of_ne hne]
      exact (hpaths p hmem).2
  · rw [List.map_cons, List.sum_cons, env.workspace.treeSize_of_read htext hread htree]
    show c.weight + unit.tree.size = _
    omega

theorem UnitCache.Funded.clear (hf : c.Funded env base) (short : env.shortage = some .memory) :
    c.clear.Funded env base := by
  obtain ⟨paths, _, _, hnone, hweight⟩ := hf.parsed
  obtain rfl := hnone (by simp [short])
  exact ⟨[], List.nodup_nil, by simp, fun _ => rfl, hweight⟩

theorem Session.Change.funded (hc : Session.Change env s s')
    (hf : s.loading.cache.Funded env base) : s'.loading.cache.Funded env base := by
  cases hc with
  | parse unit parses => exact hf.keep parses
  | forget short => exact hf.clear short
  | _ => exact hf

theorem Run.funded (hr : Run env D b s s')
    (hf : s.loading.cache.Funded env base) : s'.loading.cache.Funded env base := by
  induction hr with
  | refl | mark => exact hf
  | change hc => exact hc.funded hf
  | trans _ _ ih ih' => exact ih' (ih hf)
  | stop _ ih | define _ _ _ _ _ _ _ _ ih | defineBroken _ _ _ _ ih | defineClass _ _ _ _ _ _ _ _ _ ih =>
    exact ih hf
  | apply _ _ _ _ _ _ _ _ _ _ _ ih | applyBroken _ _ _ _ _ _ _ ih => exact ih hf
  | load _ _ _ _ _ _ _ _ ih ih' | loadBroken _ _ _ _ _ _ _ ih ih' => exact ih' (ih hf)
  | loadFailed _ _ _ _ ih => exact ih hf

end Funding

section Depth

namespace Session

def depth (s : Session) : Nat := s.callStack.length + s.loading.stack.length

/-- The stacks hold different functions with code and different files with units. -/
structure Stacked (s : Session) : Prop where
  calls : s.callStack.Nodup
  coded : ∀ f ∈ s.callStack, ∃ c, (s.heap.function f).code = some c
  files : s.loading.stack.Nodup
  opened : ∀ p ∈ s.loading.stack, ∃ unit ∈ s.loading.units.values, unit.path = p

variable {s : Session}

/-- The places in a tree from which an evaluation can be entered: its top and its definitions. -/
def entries (unit : SourceUnit) : List (Nat × Option Nat) :=
  (unit.number, none) :: (definitionNodes.block unit.tree.body).map fun n => (unit.number, some n)

theorem length_entries_le (unit : SourceUnit) : (entries unit).length ≤ unit.tree.size := by
  rw [entries, List.length_cons, List.length_map]
  exact Nat.succ_le_succ (Syntax.definitionNodes_measured.block unit.tree.body)

theorem exists_entries (hg : s.Grounded) : ∃ es : List (Nat × Option Nat), es.length ≤ s.loading.cache.weight ∧
    ∀ unit ∈ s.loading.units.values, entries unit ⊆ es := by
  classical
  -- A unit may be that of several modules, but it counts once.
  have hnumbers : (s.loading.units.values.dedup.map SourceUnit.number).Nodup :=
    (List.nodup_dedup _).map_on fun a ha b hb =>
      hg.eq_of_ref (List.mem_dedup.1 ha) (List.mem_dedup.1 hb)
  refine ⟨s.loading.units.values.dedup.flatMap entries, ?_, fun unit hu e he => ?_⟩
  · refine Nat.le_trans ?_ (hg.weight _ (fun unit hu => .inl (List.mem_dedup.1 hu)) hnumbers)
    rw [List.length_flatMap]
    exact List.sum_le_sum fun unit _ => length_entries_le unit
  · exact List.mem_flatMap.2 ⟨unit, List.mem_dedup.2 hu, he⟩

theorem depth_le (hg : s.Grounded) (hs : s.Stacked) : s.depth ≤ s.loading.cache.weight := by
  obtain ⟨es, hlength, hes⟩ := exists_entries hg
  -- Each function and each file on the stacks has an entry of its own.
  have hcalls : ∀ f ∈ s.callStack, ∃ e ∈ es, ∃ c, (s.heap.function f).code = some c ∧
      e = (c.unit.number, some c.node) := by
    intro f hf
    obtain ⟨c, hc⟩ := hs.coded f hf
    obtain ⟨unit, hunit, hu, o, hitem⟩ := hg.codes f c hc
    refine ⟨_, hes unit hunit (.tail _ (List.mem_map.2 ⟨c.node, ?_, rfl⟩)), c, hc, by rw [hu]; rfl⟩
    exact unit.tree.mem_definitionNodes hitem (List.mem_singleton.2 rfl)
  have hfiles : ∀ p ∈ s.loading.stack, ∃ e ∈ es, ∃ unit ∈ s.loading.units.values, unit.path = p ∧
      e = (unit.number, none) := by
    intro p hp
    obtain ⟨unit, hunit, hpath⟩ := hs.opened p hp
    exact ⟨_, hes unit hunit (.head _), unit, hunit, hpath, rfl⟩
  choose! call hcall using hcalls
  choose! file hfile using hfiles
  -- Functions differ in their definitions, files in their units, and a top is not a body.
  have hnodup : (s.callStack.map call ++ s.loading.stack.map file).Nodup := by
    refine List.nodup_append.2 ⟨hs.calls.map_on fun f hf g hg' heq => ?_, hs.files.map_on fun p hp q hq heq => ?_, ?_⟩
    · obtain ⟨_, c, hc, hce⟩ := hcall f hf
      obtain ⟨_, d, hd, hde⟩ := hcall g hg'
      rw [hce, hde, Prod.mk.injEq, Option.some.injEq] at heq
      have hsame := hg.known f c hc
      rw [show c.ref = d.ref from congrArg₂ NodeRef.mk heq.1 heq.2, hg.known g d hd] at hsame
      exact (Option.some.inj hsame).symm
    · obtain ⟨_, a, ha, hap, hae⟩ := hfile p hp
      obtain ⟨_, b, hb, hbq, hbe⟩ := hfile q hq
      rw [hae, hbe, Prod.mk.injEq] at heq
      rw [← hap, ← hbq, hg.eq_of_ref ha hb heq.1]
    · intro e he e' he' heq
      obtain ⟨f, hf, rfl⟩ := List.mem_map.1 he
      obtain ⟨p, hp, rfl⟩ := List.mem_map.1 he'
      obtain ⟨_, c, _, hce⟩ := hcall f hf
      obtain ⟨_, unit, _, _, hue⟩ := hfile p hp
      rw [hce, hue, Prod.mk.injEq] at heq
      cases heq.2
  have hsub : s.callStack.map call ++ s.loading.stack.map file ⊆ es := by
    refine List.append_subset.2 ⟨fun e he => ?_, fun e he => ?_⟩
    · obtain ⟨f, hf, rfl⟩ := List.mem_map.1 he
      exact (hcall f hf).1
    · obtain ⟨p, hp, rfl⟩ := List.mem_map.1 he
      exact (hfile p hp).1
  have hcount := (hnodup.subperm hsub).length_le
  rw [List.length_append, List.length_map, List.length_map] at hcount
  exact Nat.le_trans hcount hlength

theorem length_le_weight (hg : s.Grounded) {fs : List FunctionId} (nodup : fs.Nodup)
    (coded : ∀ f ∈ fs, ∃ c, (s.heap.function f).code = some c) : fs.length ≤ s.loading.cache.weight :=
  -- as if all of them were being applied
  depth_le (s := { s with callStack := fs, loading.stack := [] }) (hg.congr rfl rfl (fun _ => rfl) rfl)
    ⟨nodup, coded, List.nodup_nil, fun _ hp => nomatch hp⟩

end Session

end Depth

section Regimes

/-- When fuel suffices for tasks on code of a size below `n`: what is left of it covers the code itself and, for
each body or file that can still be entered, code of the largest size. -/
structure Session.IsReady (env : Environment) (base bound fuel n : Nat) (D : UnitRef → Item → Prop) (s : Session) :
    Prop where
  grounded : s.Grounded
  frame : s.Frame D
  stacked : s.Stacked
  funded : s.loading.cache.Funded env base
  bounded : base + env.workspace.top.weight ≤ bound
  fuel : n + (bound + 1) * (bound - s.depth) ≤ fuel + 1

namespace Session.IsReady

variable {fuel : Nat} {s s' : Session}

section

variable (hr : s.IsReady env base bound fuel n D)
include hr

theorem weight_le : s.loading.cache.weight ≤ bound :=
  Nat.le_trans hr.funded.weight_le hr.bounded

theorem fuel_of_enter (hs' : s'.Grounded) (stacked : s'.Stacked)
    (funded : s'.loading.cache.Funded env base) (deeper : s'.depth = s.depth + 1) (hm : m ≤ bound + 1) :
    m + (bound + 1) * (bound - s'.depth) ≤ fuel + 1 := by
  -- The deeper session is bounded as well, so the difference does not stop at zero.
  have hdepth : s'.depth ≤ bound :=
    Nat.le_trans (depth_le hs' stacked) (Nat.le_trans funded.weight_le hr.bounded)
  calc m + (bound + 1) * (bound - s'.depth)
      ≤ (bound + 1) * 1 + (bound + 1) * (bound - s'.depth) := by omega
    _ = (bound + 1) * (1 + (bound - s'.depth)) := (Nat.mul_add ..).symm
    _ = (bound + 1) * (bound - s.depth) := by congr 1; omega
    _ ≤ fuel + 1 := Nat.le_trans (Nat.le_add_left ..) hr.fuel

theorem run (hrun : Run env D true s s') :
    s'.IsReady env base bound fuel n D where
  grounded := (hrun.grounded hr.grounded hr.frame).1
  frame := hrun.frame hr.frame
  stacked := {
    calls := hrun.callStack ▸ hr.stacked.calls
    coded := fun f hf => by
      obtain ⟨c, hc⟩ := hr.stacked.coded f (hrun.callStack ▸ hf)
      exact ⟨c, hrun.later.codes f c hc⟩
    files := hrun.stack ▸ hr.stacked.files
    opened := fun p hp => by
      obtain ⟨unit, hunit, hpath⟩ := hr.stacked.opened p (hrun.stack ▸ hp)
      exact ⟨unit, hrun.later.units unit hunit, hpath⟩ }
  funded := hrun.funded hr.funded
  bounded := hr.bounded
  fuel := by
    rw [depth, hrun.callStack, hrun.stack]
    exact hr.fuel

theorem addClass (r : NodeRef) (c : ClassId) :
    (s.addClass r c).IsReady env base bound fuel n D where
  grounded := hr.grounded.congr rfl rfl (fun _ => rfl) rfl
  frame := hr.frame.mono (List.Subset.refl _) (List.Subset.refl _) (.addClass r c)
  stacked := ⟨hr.stacked.calls, hr.stacked.coded, hr.stacked.files, hr.stacked.opened⟩
  funded := hr.funded
  bounded := hr.bounded
  fuel := hr.fuel

theorem enter
    (isCode : (s.heap.function f).code = some code) (outside : f ∉ s.callStack)
    (he : Heap.Evolves (s.markCalled f).heap h) :
    (((s.markCalled f).withHeap h).enterCall f).IsReady env base bound fuel (code.body.size + 1) code.Owns := by
  have hg := hr.grounded.enter he
  have hcode := (code_enterCall f he f).trans isCode
  have hstacked : (((s.markCalled f).withHeap h).enterCall f).Stacked := by
    refine ⟨List.nodup_cons.2 ⟨outside, hr.stacked.calls⟩, fun g hg => ?_, hr.stacked.files, hr.stacked.opened⟩
    rw [code_enterCall f he g]
    rcases List.mem_cons.1 hg with rfl | hg
    · exact ⟨code, isCode⟩
    · exact hr.stacked.coded g hg
  refine ⟨hg, .ofBody hg hcode (.head _), hstacked, hr.funded, hr.bounded, ?_⟩
  refine hr.fuel_of_enter hg hstacked hr.funded (Nat.add_right_comm ..) (Nat.succ_le_succ ?_)
  -- The body is smaller than its tree.
  obtain ⟨unit, hunit, _, o, hitem⟩ := hr.grounded.codes f code isCode
  have hsize : code.body.size < unit.tree.size := unit.tree.bodySize_lt hitem
  have hweight := hr.grounded.weight [unit] (by simpa using .inl hunit) (by simp)
  rw [List.map_singleton, List.sum_singleton] at hweight
  have := hr.weight_le
  omega

theorem enterFile
    (outside : unit.path ∉ s.loading.stack) (parsing : Run env (fun _ _ => False) true (s.enterFile unit.path) s')
    (opens : s'.Opens m unit) : (s'.addUnit m unit).IsReady env base bound fuel unit.tree.size unit.Owns := by
  have hg : (s'.addUnit m unit).Grounded :=
    (parsing.grounded (hr.grounded.congr rfl rfl (fun _ => rfl) rfl) .empty).1.addUnit opens
  have hfunded : s'.loading.cache.Funded env base := parsing.funded hr.funded
  have hl : s.Later (s'.addUnit m unit) := parsing.later_addUnit opens
  have hcalls : s'.callStack = s.callStack := parsing.callStack
  have hfiles : s'.loading.stack = unit.path :: s.loading.stack := parsing.stack
  -- Parsing leaves the stacks alone; the file is new on them, and its unit is there.
  have hstacked : (s'.addUnit m unit).Stacked := by
    refine ⟨?_, fun f hf => ?_, ?_, fun p hp => ?_⟩
    · exact Eq.symm hcalls ▸ hr.stacked.calls
    · obtain ⟨c, hc⟩ := hr.stacked.coded f (hcalls ▸ hf)
      exact ⟨c, hl.codes f c hc⟩
    · exact Eq.symm hfiles ▸ List.nodup_cons.2 ⟨outside, hr.stacked.files⟩
    · rcases List.mem_cons.1 (hfiles ▸ hp) with rfl | hp
      · exact ⟨unit, Table.mem_values_insert_self, rfl⟩
      · obtain ⟨v, hv, hpath⟩ := hr.stacked.opened p hp
        exact ⟨v, hl.units v hv, hpath⟩
  refine ⟨hg, .ofOpened unit hfiles, hstacked, hfunded, hr.bounded, ?_⟩
  refine hr.fuel_of_enter hg hstacked hfunded ?_ ?_
  · show s'.callStack.length + s'.loading.stack.length = _
    rw [depth, hcalls, hfiles, List.length_cons, Nat.add_assoc]
  · have hweight := hg.weight [unit] (by simpa using .inl Table.mem_values_insert_self) (by simp)
    rw [List.map_singleton, List.sum_singleton] at hweight
    have hle : (s'.addUnit m unit).loading.cache.weight ≤ bound := Nat.le_trans hfunded.weight_le hr.bounded
    omega

end

end Session.IsReady

/-- Tasks may be asked for where the fuel suffices; then it never runs out. -/
def Regime.fueled (env : Environment) (base bound fuel : Nat) : Regime env where
  ready n D s := s.IsReady env base bound fuel n D
  faults f := f ≠ .outOfFuel
  faults_of_cause _ hf := hf.ne_outOfFuel
  params hr owned := { hr with frame := hr.frame.ofParams owned }
  run hr hrun := hr.run hrun
  addClass hr r c := hr.addClass r c
  enter hr _ isCode _ outside he := hr.enter isCode outside he
  enterFile hr _ outside parsing opens := hr.enterFile outside parsing opens

theorem Regime.fueled_isLadder (env : Environment) (base bound : Nat) : IsLadder (fueled env base bound) where
  bottom hr := Nat.le_trans (Nat.le_add_right ..) hr.fuel
  down hr hlt := { hr with fuel := by have := hr.fuel; omega }
  faults _ _ h := h
  nullCharacter _ hf := by cases hf

end Regimes

end Concordance
