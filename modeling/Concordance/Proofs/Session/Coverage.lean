import Concordance.Proofs.Session.FixedPoint

/-!
# Every use is recorded or reported

A complete run deals with what it begins: a class whose body it enters, a file that it loads. So between steps
everything that has been made has been dealt with, the bodies of functions from their first application on.
-/

namespace Concordance

open Syntax (Item Body Stmt framed ownItems loads)

variable {step : SessionStep}

namespace Session

/-- A class comes from a definition in a unit, and its body has been dealt with. -/
def ClassDone (s : Session) (r : NodeRef) : Prop :=
  ∃ unit ∈ s.loading.units.values, ∃ o node body, r = ⟨unit.number, node⟩ ∧
    (o, Item.cls node body) ∈ framed.block unit.tree.body ∧ s.Did unit.ref (ownItems.block body)

/-- What has been made has been dealt with, but for the classes in `C` and the units in `U`, which are being
evaluated. -/
structure DoneBut (C : NodeRef → Prop) (U : SourceUnit → Prop) (s : Session) : Prop where
  params : ∀ f c, (s.heap.function f).code = some c → s.Did c.unit (ownItems.params c.params)
  /-- A function that has a result has been applied. -/
  bodies : ∀ f c, (s.heap.function f).code = some c → (s.heap.function f).arrows ≠ [] →
    s.Did c.unit (ownItems.body c.body)
  classes : ∀ r, s.definitions.classes.get? r ≠ none → C r ∨ s.ClassDone r
  units : ∀ unit ∈ s.loading.units.values, U unit ∨ s.Did unit.ref (ownItems.block unit.tree.body)
  loaded : ∀ path ∈ s.loading.loaded, ∃ unit ∈ s.loading.units.values, unit.path = path

variable {s s' : Session}

theorem ClassDone.mono (hd : s.ClassDone r) (happened : ∀ u x, s.Happened u x → s'.Happened u x)
    (units : ∀ unit ∈ s.loading.units.values, unit ∈ s'.loading.units.values) : s'.ClassDone r := by
  obtain ⟨unit, hunit, o, node, body, hr, hmem, hdid⟩ := hd
  exact ⟨unit, units unit hunit, o, node, body, hr, hmem, fun x hx => happened _ x (hdid x hx)⟩

section

variable (hd : DoneBut C U s)
include hd

theorem DoneBut.congr (happened : ∀ u x, s.Happened u x → s'.Happened u x)
    (codes : ∀ f, (s'.heap.function f).code = (s.heap.function f).code)
    (arrows : ∀ f, (s'.heap.function f).arrows = (s.heap.function f).arrows)
    (classes : s'.definitions.classes = s.definitions.classes) (units : s'.loading.units = s.loading.units)
    (loaded : s'.loading.loaded = s.loading.loaded) : DoneBut C U s' where
  params f c hc x hx := happened _ x (hd.params f c (codes f ▸ hc) x hx)
  bodies f c hc ha x hx := happened _ x (hd.bodies f c (codes f ▸ hc) (arrows f ▸ ha) x hx)
  classes r hr := by
    rw [classes] at hr
    exact (hd.classes r hr).imp_right fun h => h.mono happened (units ▸ fun _ hu => hu)
  units unit hunit := by
    rw [units] at hunit
    exact (hd.units unit hunit).imp_right fun h x hx => happened _ x (h x hx)
  loaded path hpath := by
    rw [loaded] at hpath
    rw [units]
    exact hd.loaded path hpath

theorem DoneBut.of_modify (f : FunctionId)
    (later : s.Later s') (heap : s'.heap = { s.heap with functions := s.heap.functions.modify f.index change })
    (hc : ∀ g : Function, (change g).code = g.code ∧ (change g).arrows = g.arrows)
    (classes : s'.definitions.classes = s.definitions.classes) (loading : s'.loading = s.loading) :
    DoneBut C U s' := by
  refine hd.congr (fun _ _ => later.happened) (fun g => ?_) (fun g => ?_) classes (by rw [loading]) (by rw [loading])
  · rw [heap, Heap.function_modify]
    split
    · exact (hc _).1
    · rfl
  · rw [heap, Heap.function_modify]
    split
    · exact (hc _).2
    · rfl

theorem DoneBut.of_evolves (he : Heap.Evolves s.heap h) : DoneBut C U (s.withHeap h) :=
  hd.congr (fun _ _ => (Later.of_evolves he).happened) (fun f => (he.sameCalls f).code)
    (fun f => (he.sameCalls f).arrows) rfl rfl rfl

theorem DoneBut.markCalled (f : FunctionId) : DoneBut C U (s.markCalled f) :=
  hd.of_modify f (.markCalled f) rfl (fun _ => ⟨rfl, rfl⟩) rfl rfl

theorem DoneBut.enterCall (f : FunctionId) : DoneBut C U (s.enterCall f) :=
  hd.of_modify f (.enterCall f) rfl (fun _ => ⟨rfl, rfl⟩) rfl rfl

theorem DoneBut.leaveCall (f : FunctionId) (stack : List FunctionId) (yields : Option TypeId) :
    DoneBut C U (s.leaveCall f stack yields) :=
  hd.of_modify f (.leaveCall f stack yields) rfl (fun _ => ⟨rfl, rfl⟩) rfl rfl

theorem DoneBut.enterFile (path : String) : DoneBut C U (s.enterFile path) :=
  hd.congr (fun _ _ => (Later.enterFile path).happened) (fun _ => rfl) (fun _ => rfl) rfl rfl rfl

theorem DoneBut.leaveFile (before : Loading) : DoneBut C U (s.leaveFile before) :=
  hd.congr (fun _ _ => (Later.leaveFile before).happened) (fun _ => rfl) (fun _ => rfl) rfl rfl rfl

theorem DoneBut.recordCall
    (isCode : (s.heap.function f).code = some code) (covered : s.Did code.unit (ownItems.body code.body))
    (key result : TypeId) : DoneBut C U (s.recordCall f key result) := by
  have hl : s.Later (s.recordCall f key result) := .recordCall f key result
  have hcode : ∀ g, ((s.recordCall f key result).heap.function g).code = (s.heap.function g).code :=
    fun g => code_modify f g fun _ => rfl
  refine ⟨fun g c hc => hl.did (hd.params g c (hcode g ▸ hc)), fun g c hc ha => hl.did ?_,
    fun r hr => (hd.classes r hr).imp_right fun h => h.mono (fun _ _ => hl.happened) hl.units,
    fun unit hunit => (hd.units unit hunit).imp_right hl.did, hd.loaded⟩
  rw [hcode] at hc
  by_cases heq : g = f
  · subst heq
    cases isCode.symm.trans hc
    exact covered
  · have hsame : (s.recordCall f key result).heap.function g = s.heap.function g :=
      (Heap.function_modify f g _).trans (if_neg fun h => heq h.1)
    exact hd.bodies g c hc (hsame ▸ ha)

theorem DoneBut.define (isCode : function.code = some code)
    (arrows : function.arrows = []) (covered : s.Did code.unit (ownItems.params code.params)) :
    DoneBut C U (s.define code function) := by
  have hl : s.Later (s.define code function) := .define code function
  have hfun : ∀ g, (s.define code function).heap.function g =
      if g = ⟨s.heap.functions.size⟩ then function else s.heap.function g := fun g => Heap.function_push g function
  refine ⟨fun g c hc => hl.did ?_, fun g c hc ha => hl.did ?_,
    fun r hr => (hd.classes r hr).imp_right fun h => h.mono (fun _ _ => hl.happened) hl.units,
    fun unit hunit => (hd.units unit hunit).imp_right hl.did, hd.loaded⟩
  · rw [hfun] at hc
    split at hc
    · cases isCode.symm.trans hc
      exact covered
    · exact hd.params g c hc
  · rw [hfun] at hc ha
    split at hc
    · rename_i heq
      rw [if_pos heq] at ha
      exact absurd arrows ha
    · rename_i hne
      rw [if_neg hne] at ha
      exact hd.bodies g c hc ha

theorem DoneBut.addClass (r : NodeRef) (c : ClassId) :
    DoneBut (fun r' => C r' ∨ r' = r) U (s.addClass r c) := by
  have hl : s.Later (s.addClass r c) := .addClass r c
  refine ⟨fun g c hc => hl.did (hd.params g c hc), fun g c hc ha => hl.did (hd.bodies g c hc ha), fun r' hr => ?_,
    fun unit hunit => (hd.units unit hunit).imp_right hl.did, hd.loaded⟩
  by_cases heq : r' = r
  · exact .inl (.inr heq)
  · rw [Session.addClass, Table.get?_insert_of_ne heq] at hr
    exact (hd.classes r' hr).imp .inl fun h => h.mono (fun _ _ => hl.happened) hl.units

end

theorem DoneBut.closeClass (hd : DoneBut (fun r' => C r' ∨ r' = r) U s) (done : s.ClassDone r) : DoneBut C U s := by
  refine { hd with classes := fun r' hr => ?_ }
  rcases hd.classes r' hr with (h | rfl) | h
  · exact .inl h
  · exact .inr done
  · exact .inr h

theorem DoneBut.addUnit (hd : DoneBut C U s) (opens : s.Opens m unit) :
    DoneBut C (fun v => U v ∨ v = unit) (s.addUnit m unit) := by
  have hl : s.Later (s.addUnit m unit) := .addUnit unit opens.fresh
  refine ⟨fun g c hc => hl.did (hd.params g c hc), fun g c hc ha => hl.did (hd.bodies g c hc ha),
    fun r hr => (hd.classes r hr).imp_right fun h => h.mono (fun _ _ => hl.happened) hl.units, fun v hv => ?_,
    fun path hpath => ?_⟩
  · rcases Table.mem_values_insert hv with rfl | hv
    · exact .inl (.inr rfl)
    · exact (hd.units v hv).imp .inl hl.did
  · obtain ⟨v, hv, hp⟩ := hd.loaded path hpath
    exact ⟨v, hl.units v hv, hp⟩

theorem DoneBut.closeUnit (hd : DoneBut C (fun v => U v ∨ v = unit) s)
    (known : unit ∈ s.loading.units.values) (done : s.Did unit.ref (ownItems.block unit.tree.body)) :
    DoneBut C U (s.addLoaded unit.path) := by
  have hl : s.Later (s.addLoaded unit.path) := .addLoaded unit.path
  refine ⟨fun g c hc => hl.did (hd.params g c hc), fun g c hc ha => hl.did (hd.bodies g c hc ha),
    fun r hr => (hd.classes r hr).imp_right fun h => h.mono (fun _ _ => hl.happened) hl.units, fun v hv => ?_,
    fun path hpath => ?_⟩
  · rcases hd.units v hv with (h | rfl) | h
    · exact .inl h
    · exact .inr (hl.did done)
    · exact .inr (hl.did h)
  · rcases List.mem_append.1 hpath with hpath | hpath
    · exact hd.loaded path hpath
    · exact ⟨unit, known, (List.mem_singleton.1 hpath).symm⟩

theorem Change.doneBut (hc : Change env s s') (hd : DoneBut C U s) : DoneBut C U s' := by
  have hl := hc.later
  cases hc with
  | heap h hc => exact hd.of_evolves (.single hc)
  | yields f t => exact hd.of_modify f hl rfl (fun _ => ⟨rfl, rfl⟩) rfl rfl
  | _ => exact hd.congr (fun _ _ => hl.happened) (fun _ => rfl) (fun _ => rfl) rfl rfl rfl

theorem empty_doneBut : DoneBut C U Session.empty := by
  have hcodes : ∀ f c, (Session.empty.heap.function f).code ≠ some c := by
    intro f c hc
    obtain ⟨unit, hunit, _⟩ := empty_idle.grounded.codes f c hc
    cases hunit
  exact ⟨fun f c hc => absurd hc (hcodes f c), fun f c hc => absurd hc (hcodes f c), fun r hr => absurd rfl hr,
    fun unit hunit => (nomatch hunit), fun path hpath => (nomatch hpath)⟩

end Session

section Runs

open Session

variable {env : Environment} {s : Session}

theorem Run.doneBut (hr : Run env D b s s') (hcomplete : b = true)
    (hg : s.Grounded) (hf : Frame D s) (hd : DoneBut C U s) : DoneBut C U s' := by
  induction hr generalizing C U with
  | refl => exact hd
  | change hc => exact hc.doneBut hd
  | trans hr _ ih ih' => exact ih' hcomplete (hr.grounded hg hf).1 (hr.frame hf) (ih rfl hg hf hd)
  | stop | defineBroken | applyBroken | loadBroken => cases hcomplete
  | define code function owned _ params covered setup made ih =>
    refine DoneBut.define ((ih rfl hg (hf.ofParams owned) hd).of_evolves setup) made.code made.arrows ?_
    exact (Later.of_evolves setup).did covered
  | @defineClass D b s s' h u node c body owned _ setup rest covered ih =>
    have hl : s.Later ((s.withHeap h).addClass ⟨u.number, node⟩ c) :=
      (Later.of_evolves setup).trans (.addClass ⟨u.number, node⟩ c)
    have hg1 : ((s.withHeap h).addClass ⟨u.number, node⟩ c).Grounded :=
      hg.congr rfl rfl (fun f => setup.code f) rfl
    have hf1 : Frame D ((s.withHeap h).addClass ⟨u.number, node⟩ c) :=
      hf.mono (List.Subset.refl _) (List.Subset.refl _) hl
    have hrest := ih hcomplete hg1 hf1 ((hd.of_evolves setup).addClass ⟨u.number, node⟩ c)
    -- The definition stands in a frame, so the class is that of a unit.
    obtain ⟨unit, hunit, rfl, o, hmem, _⟩ := hf1.holds _ _ owned
    exact hrest.closeClass ⟨unit, rest.later.units unit hunit, o, node, body, rfl, hmem, covered hcomplete⟩
  | mark f _ => exact hd.markCalled f
  | @apply D s s' h f code key result isCode _ _ setup body covered _ ih =>
    have hcode : ((((s.markCalled f).withHeap h).enterCall f).heap.function f).code = some code :=
      (code_enterCall f setup f).trans isCode
    have hbody := ih rfl (hg.enter setup) (.ofBody (hg.enter setup) hcode (.head _))
      (((hd.markCalled f).of_evolves setup).enterCall f)
    have hl : s'.Later (s'.leaveCall f s.callStack (h.function f).yields) := .leaveCall ..
    exact (hbody.leaveCall f _ _).recordCall (hl.codes f code (body.later.codes f code hcode)) (hl.did covered) key result
  | @load D s _ _ m unit _ _ parsing opens body covered ih ih' =>
    have hg0 : (s.enterFile unit.path).Grounded := hg.congr rfl rfl (fun _ => rfl) rfl
    have hparsed := ih rfl hg0 .empty (hd.enterFile unit.path)
    -- While its statements are evaluated the unit is excepted.
    have hbody := ih' rfl ((parsing.grounded hg0 .empty).1.addUnit opens) (.ofOpened unit parsing.stack)
      (hparsed.addUnit opens)
    exact (hbody.closeUnit (body.later.units unit Table.mem_values_insert_self) covered).leaveFile _
  | loadFailed path _ _ _ ih =>
    exact (ih hcomplete (hg.congr rfl rfl (fun _ => rfl) rfl) .empty (hd.enterFile path)).leaveFile _

theorem Session.Happened.reclassify
    (same : ∀ (i : Nat) r, s.heap.references[i]? = some r → ∃ r', references[i]? = some r' ∧ r.Becomes r') (hx : s.Happened u x) :
    Session.Happened { s with heap.references := references } u x := by
  cases x with
  | use i =>
    refine hx.imp_right fun hx l hl => (hx l hl).imp_left ?_
    rintro ⟨j, r, bs, href, hlinks, hfile, hstart, hne⟩
    obtain ⟨r', href', hbecomes⟩ := same j r href
    obtain ⟨hfile', hstart'⟩ := hbecomes.samePlace
    exact ⟨j, r', bs, href', hlinks, hfile'.trans hfile, hstart'.trans hstart, hne⟩
  | function | cls => exact hx

theorem Move.doneBut (hm : Move env step b s s') (unharmed : env.injection = none)
    (hcomplete : b = true) (hg : s.Grounded) (hd : DoneBut C U s) : DoneBut C U s' := by
  induction hm with
  | run hr => exact hr.doneBut hcomplete hg .empty hd
  | trans hm _ ih ih' => exact ih' hcomplete (hm.grounded hg) (ih rfl hg hd)
  | recover short | openUnit short => cases unharmed.symm.trans short
  | text | forget | searchPath | finish =>
    refine hd.congr (fun _ _ => Later.happened ?_) (fun _ => rfl) (fun _ => rfl) rfl rfl rfl
    exact .of_eq rfl (fun _ _ h => h) (fun _ h => h) rfl rfl rfl rfl rfl rfl
  | reclassify _ references _ same =>
    exact hd.congr (fun _ _ => Session.Happened.reclassify same) (fun _ => rfl) (fun _ => rfl) rfl rfl rfl
  | within path _ ih =>
    exact (ih hcomplete (hg.congr rfl rfl (fun _ => rfl) rfl) (hd.enterFile path)).leaveFile _

theorem Run.knows (hr : Run env D b s s') (hk : s'.Knows unit) : s.Knows unit ∨ ∃ c, env.Parses c unit := by
  induction hr with
  | refl | mark => exact .inl hk
  | change hc =>
    cases hc with
    | parse v parses =>
      rcases hk.of_keep with rfl | hk
      · exact .inr ⟨_, parses⟩
      · exact .inl hk
    | forget => exact .inl hk.of_forget
    | _ => exact .inl hk
  | trans _ _ ih ih' => exact (ih' hk).elim ih .inr
  | stop _ ih | defineBroken _ _ _ _ ih | define _ _ _ _ _ _ _ _ ih | defineClass _ _ _ _ _ _ _ _ _ ih
  | apply _ _ _ _ _ _ _ _ _ _ _ ih | applyBroken _ _ _ _ _ _ _ ih | loadFailed _ _ _ _ ih => exact ih hk
  | load m v _ _ _ opens _ _ ih ih' | loadBroken m v _ _ _ opens _ ih ih' =>
    exact (ih' hk).elim (fun hk => ih (hk.of_addUnit opens)) .inr

/-- What a step is given to parse: the files of the workspace, or a text. -/
def SessionStep.Offers (env : Environment) (step : SessionStep) (path : String) (tree : Syntax.Module) : Prop :=
  (∃ file, env.workspace.read (Path.ofString path) = .ok file ∧ file.outcome = .tree tree) ∨ step.Gives env path tree

theorem Move.knows (hm : Move env step b s s')
    (hk : s'.Knows unit) : s.Knows unit ∨ step.Offers env unit.path unit.tree := by
  induction hm with
  | run hr => exact (hr.knows hk).imp_right fun ⟨_, parses⟩ => .inl parses.file
  | trans _ _ ih ih' => exact (ih' hk).elim ih .inr
  | text v _ given =>
    rcases hk.of_keep with rfl | hk
    · exact .inr (.inr given)
    · exact .inl hk
  | forget => exact .inl hk.of_forget
  | openUnit _ _ _ opens => exact .inl (hk.of_addUnit opens)
  | searchPath | finish | reclassify => exact .inl hk
  | recover _ _ ih | within _ _ ih => exact ih hk

end Runs

namespace Session

variable {s : Session} {o : Option Nat}

/-- Nothing is being evaluated: what has been made has been dealt with. -/
abbrev Done (s : Session) : Prop := DoneBut (fun _ => False) (fun _ => False) s

theorem Done.ofFunction (hd : s.Done) (hg : s.Grounded)
    (applied : ∀ f c, (s.heap.function f).code = some c → (s.heap.function f).arrows ≠ [])
    (hunit : unit ∈ s.loading.units.values) {b : Body}
    (hmem : (o, Item.function node ps b) ∈ framed.block unit.tree.body)
    (made : s.Happened unit.ref (.function node ps b)) :
    s.Did unit.ref (ownItems.params ps) ∧ s.Did unit.ref (ownItems.body b) := by
  obtain ⟨f, c, hc, href⟩ := made
  obtain ⟨unit', hunit', hu, o', hitem⟩ := hg.codes f c hc
  have hnumber : c.unit.number = unit.number := congrArg NodeRef.unit href
  have hnode : c.node = node := congrArg NodeRef.node href
  obtain rfl := hg.eq_of_ref hunit' hunit ((congrArg UnitRef.number hu).symm.trans hnumber)
  -- Both stand in the tree under one number.
  obtain ⟨_, heq⟩ := unit'.tree.frame_unique hitem hmem (List.mem_singleton.2 rfl) (List.mem_singleton.2 hnode)
  obtain ⟨_, rfl, rfl⟩ := Item.function.inj heq
  rw [← hu]
  exact ⟨hd.params f c hc, hd.bodies f c hc (applied f c hc)⟩

theorem Done.ofClass (hd : s.Done) (hg : s.Grounded) (hunit : unit ∈ s.loading.units.values) {b : List Stmt}
    (hmem : (o, Item.cls node b) ∈ framed.block unit.tree.body) (made : s.Happened unit.ref (.cls node b)) :
    s.Did unit.ref (ownItems.block b) := by
  obtain ⟨unit', hunit', o', node', b', href, hmem', hdid⟩ := (hd.classes _ made).resolve_left id
  obtain ⟨hnumber, rfl⟩ := NodeRef.mk.inj href
  obtain rfl := hg.eq_of_ref hunit hunit' hnumber
  obtain ⟨_, heq⟩ := unit.tree.frame_unique hmem hmem' (List.mem_singleton.2 rfl) (List.mem_singleton.2 rfl)
  obtain ⟨_, rfl⟩ := Item.cls.inj heq
  exact hdid

/-- Where every function has been applied, what a piece of code of a unit holds has been dealt with if what an
evaluation of it comes upon has been. -/
theorem Done.framed (hd : s.Done) (hg : s.Grounded)
    (applied : ∀ f c, (s.heap.function f).code = some c → (s.heap.function f).arrows ≠ [])
    (hunit : unit ∈ s.loading.units.values) :
    Syntax.Collector.Related ownItems framed fun own all => s.Did unit.ref own →
      (∀ e ∈ all, ∃ o, (o, e.2) ∈ framed.block unit.tree.body) → ∀ e ∈ all, s.Happened unit.ref e.2 where
  nil _ _ e he := nomatch he
  append ha hb hdid hin e he := by
    rw [Did.append] at hdid
    rcases List.mem_append.1 he with he | he
    · exact ha hdid.1 (fun e he => hin e (List.mem_append_left _ he)) e he
    · exact hb hdid.2 (fun e he => hin e (List.mem_append_right _ he)) e he
  use i hdid _ e he := by
    rw [List.mem_singleton.1 he]
    exact hdid _ (List.mem_singleton.2 rfl)
  function node ps b hp hb hdid hin e he := by
    have hmade : s.Happened unit.ref (.function node ps b) := hdid _ (List.mem_singleton.2 rfl)
    obtain ⟨o, hmem⟩ := hin _ (.head _)
    -- The parameters were evaluated with the definition, the body when the function was applied.
    obtain ⟨hparams, hbody⟩ := hd.ofFunction hg applied hunit hmem hmade
    rcases List.mem_cons.1 he with rfl | he
    · exact hmade
    rcases List.mem_append.1 he with he | he
    · exact hp hparams (fun e he => hin e (.tail _ (List.mem_append_left _ he))) e he
    · -- Items in the body are those of the body on its own, up to the frame that they are in.
      obtain ⟨d, hd, rfl⟩ := List.mem_map.1 he
      refine hb hbody (fun d hd => ?_) d hd
      exact hin (d.1.or (some node), d.2)
        (.tail _ (List.mem_append_right _ (List.mem_map.2 ⟨d, hd, rfl⟩)))
  cls node b hb hdid hin e he := by
    have hmade : s.Happened unit.ref (.cls node b) := hdid _ (List.mem_singleton.2 rfl)
    obtain ⟨o, hmem⟩ := hin _ (.head _)
    rcases List.mem_cons.1 he with rfl | he
    · exact hmade
    · exact hb (hd.ofClass hg hunit hmem hmade) (fun e he => hin e (.tail _ he)) e he

end Session

/-- What a session after some steps holds. -/
structure Loaded.Covered (steps : List (Environment × SessionStep)) (s : Session) : Prop where
  done : s.Done
  offered : ∀ unit, s.Knows unit → ∃ e ∈ steps, e.2.Offers e.1 unit.path unit.tree

theorem Move.covered (hm : Move env step true s s') (unharmed : env.injection = none)
    (hg : s.Grounded) (hc : Loaded.Covered steps s) : Loaded.Covered (steps ++ [(env, step)]) s' where
  done := hm.doneBut unharmed rfl hg hc.done
  offered unit hk := by
    rcases hm.knows hk with hk | hoffers
    · obtain ⟨e, he, hoffers⟩ := hc.offered unit hk
      exact ⟨e, List.mem_append_left _ he, hoffers⟩
    · exact ⟨_, List.mem_append_right _ (List.mem_singleton.2 rfl), hoffers⟩

theorem Loaded.covered (hs : Loaded steps s) : Loaded.Covered steps s := by
  refine hs.induct ⟨Session.empty_doneBut, fun unit hk => ?_⟩ fun hi unharmed hc hm => hm.covered unharmed hi.grounded hc
  rcases hk with hk | ⟨p, hp⟩
  · cases hk
  · cases hp

/-- After an analysis that loads something and is then finished, each loaded file has a unit, parsed from a tree that
some step was given; and wherever in the tree of such a unit a name stands in load position and is no constant, the
place is recorded with a binding, or reported as unbound. -/
theorem finish_covers_uses {steps : List (Environment × SessionStep)} {s s' : Session} (hs : Loaded steps s)
    {env : Environment} (unharmed : env.injection = none)
    (ended : SessionStep.finish.run.runOn env s = (.ok (), s')) {path : String} (hpath : path ∈ s'.loading.loaded) :
    (∃ unit ∈ s'.loading.units.values, unit.path = path) ∧
    ∀ unit ∈ s'.loading.units.values, unit.path = path →
      (∃ e ∈ steps ++ [(env, .finish)], e.2.Offers e.1 path unit.tree) ∧
      ∀ i ∈ loads.block unit.tree.body, constantType? i.text = none → ∀ l, unit.ref.locate i.span = some l →
        s'.Recorded l ∨ s'.ReportedUnbound l := by
  obtain ⟨hi, hb, hopen⟩ := hs.books
  obtain ⟨hm, _, hnone⟩ := (step_of_books hi hb unharmed .finish).2 s' ended
  have hcovered := hm.covered unharmed hi.grounded hs.covered
  have hg := (hm.idle hi).grounded
  -- Nothing waits and nothing is being applied any more, so every function has a result.
  have happlied : ∀ f c, (s'.heap.function f).code = some c → (s'.heap.function f).arrows ≠ [] := by
    intro f c hc
    have hmem : f ∈ s'.functions := Table.mem_values_of_get? (hg.known f c hc)
    exact ((hm.books unharmed rfl hb).applied (hm.idle hi).calls (hnone hopen) f hmem).2
  refine ⟨hcovered.done.loaded path hpath, fun unit hunit hp => ⟨?_, fun i hi hconst => ?_⟩⟩
  · exact hp ▸ hcovered.offered unit (.inl hunit)
  · -- A use stands in some frame of the tree, and all frames have been dealt with.
    obtain ⟨o, hmem⟩ := Syntax.loads_related.block _ i hi
    have hdid := (hcovered.done.units unit hunit).resolve_left id
    have huse : s'.Happened unit.ref (.use i) :=
      (hcovered.done.framed hg happlied hunit).block _ hdid (fun e he => ⟨e.1, he⟩) _ hmem
    exact huse.resolve_left fun hne => hne hconst

theorem finish_covers_uses_selfReturning : ∃ s s', Loaded [(selfReturning, .load "m.py")] s ∧
    SessionStep.finish.run.runOn selfReturning s = (.ok (), s') ∧
    ∃ unit ∈ s'.loading.units.values, unit.path = "/w/m.py" ∧
      ∀ i ∈ loads.block unit.tree.body, constantType? i.text = none → ∀ l, unit.ref.locate i.span = some l →
        s'.Recorded l ∨ s'.ReportedUnbound l := by
  obtain ⟨s, s', hs, hfinish, htest⟩ := Loaded.of_endsWith rfl rfl selfReturning_endsWith
  have hpath : "/w/m.py" ∈ s'.loading.loaded := (of_decide_eq_true htest).1 ▸ List.mem_singleton.2 rfl
  obtain ⟨⟨unit, hunit, hp⟩, huses⟩ := finish_covers_uses hs (rfl : selfReturning.injection = none) hfinish hpath
  exact ⟨s, s', hs, hfinish, unit, hunit, hp, (huses unit hunit hp).2⟩

end Concordance
