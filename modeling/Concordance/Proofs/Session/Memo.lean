import Concordance.Proofs.Session.Unions

/-!
# Results of applications that are kept

A function keeps the result of each application under the tuple of the parameter types, and gives it again for every
equal tuple. Such a tuple holds the types themselves and no copies of them.
-/

namespace Concordance

open Syntax (Item)

variable {s : Session}

namespace Heap

variable {h : Heap}

theorem sameKey_self (h : Heap) (k : TypeId) : h.sameKey k k = true := by
  have hself : h.equal k k = true := by simp [equal]
  unfold sameKey
  split
  · rename_i es fs hes hfs
    cases hes.symm.trans hfs
    rw [hself, Bool.and_true, beq_self_eq_true]
  · exact hself

theorem Follows.sameKey_of_untouched (hf : Follows h h') (hc : h.Compared) (hs : h.IsSound) (hk : h.Has k)
    (hkey : h.Has key) (huk : Untouched h h' k) (hukey : Untouched h h' key) : h'.sameKey k key = h.sameKey k key := by
  rw [sameKey, sameKey, huk k (.refl h k), hukey key (.refl h key), hf.equal_of_untouched hc hs hk hkey huk hukey]

/-- How a result came to be kept under a tuple `k`: the body of the function was evaluated between two sessions with
parameters of the types in `key`, and after that `k` was found to be equal to `key`. -/
structure Origin (h : Heap) (f : FunctionId) (k result : TypeId) (env : Environment) (code : Code) (key : TypeId)
    (before after : Session) : Prop where
  isCode : (h.function f).code = some code
  computed : Computes env f code key result before after
  soundBefore : before.heap.IsSound
  hasKey : before.heap.Has key
  during : before.heap.Follows after.heap
  soundAfter : after.heap.IsSound
  compared : after.heap.Compared
  has : after.heap.Has k
  same : after.heap.sameKey k key = true
  since : after.heap.Follows h

def Recalls (h : Heap) : Prop :=
  ∀ f, ∀ a ∈ (h.function f).arrows, ∃ env code key before after, h.Origin f a.1 a.2 env code key before after

theorem Origin.follow (ho : h.Origin f k result env code key before after) (hf : Follows h h')
    (codes : ∀ c, (h.function f).code = some c → (h'.function f).code = some c) :
    h'.Origin f k result env code key before after :=
  { ho with isCode := codes code ho.isCode, since := ho.since.trans hf }

theorem Recalls.follow (hr : h.Recalls) (hf : Follows h h')
    (codes : ∀ f c, (h.function f).code = some c → (h'.function f).code = some c)
    (arrows : ∀ f, ∀ a ∈ (h'.function f).arrows, a ∈ (h.function f).arrows) : h'.Recalls := by
  intro f a ha
  obtain ⟨env, code, key, before, after, ho⟩ := hr f a (arrows f a ha)
  exact ⟨env, code, key, before, after, ho.follow hf (codes f)⟩

theorem Recalls.sameCalls (hr : h.Recalls) (hf : Follows h h')
    (same : ∀ f, (h'.function f).code = (h.function f).code ∧ (h'.function f).arrows = (h.function f).arrows) :
    h'.Recalls :=
  hr.follow hf (fun f _ hc => (same f).1.trans hc) fun f _ ha => (same f).2 ▸ ha

/-- A result that is given for the parameter types in a tuple is kept under an equal one and has an origin. -/
def Answers (h : Heap) (f : FunctionId) (wanted result : TypeId) : Prop :=
  ∃ k env code key before after, h.sameKey k wanted = true ∧ h.Origin f k result env code key before after ∧
    (h.sameKey k key = true ∧ before.heap.Untouched after.heap key ∧ after.heap.Untouched h key ∨
      before.heap.Widened after.heap key ∨ after.heap.Widened h key ∨ after.heap.Widened h k)

theorem Origin.faithful (ho : h.Origin f k result env code key before after) :
    h.sameKey k key = true ∧ before.heap.Untouched after.heap key ∧ after.heap.Untouched h key ∨
      before.heap.Widened after.heap key ∨ after.heap.Widened h key ∨ after.heap.Widened h k := by
  have hkey := ho.computed.isKey.has
  rcases ho.during.types.untouched_or_widened ho.soundBefore ho.hasKey with hduring | hwidened
  · rcases ho.since.types.untouched_or_widened ho.soundAfter hkey with hsince | hwidened
    · rcases ho.since.types.untouched_or_widened ho.soundAfter ho.has with hk | hwidened
      · refine .inl ⟨?_, hduring, hsince⟩
        rw [ho.since.sameKey_of_untouched ho.compared ho.soundAfter ho.has hkey hk hsince]
        exact ho.same
      · exact .inr (.inr (.inr hwidened))
    · exact .inr (.inr (.inl hwidened))
  · exact .inr (.inl hwidened)

theorem Recalls.answers (hr : h.Recalls) (ha : h.arrow? f wanted = some result) : h.Answers f wanted result := by
  obtain ⟨a, hfind, rfl⟩ := Option.map_eq_some_iff.1 ha
  obtain ⟨env, code, key, before, after, ho⟩ := hr f a (List.mem_of_find?_eq_some hfind)
  have hsame : h.sameKey a.1 wanted = true := by simpa using List.find?_some hfind
  exact ⟨a.1, env, code, key, before, after, hsame, ho, ho.faithful⟩

end Heap

namespace Session

theorem sameCalls_modify {h : Heap} (f g : FunctionId)
    (hc : ∀ x, (change x).code = x.code ∧ (change x).arrows = x.arrows) :
    (Heap.function { h with functions := h.functions.modify f.index change } g).code = (h.function g).code ∧
      (Heap.function { h with functions := h.functions.modify f.index change } g).arrows = (h.function g).arrows := by
  rw [Heap.function_modify]
  split
  · exact hc _
  · exact ⟨rfl, rfl⟩

theorem Change.recalls (hch : Session.Change env s s') (hs : s.IsSound) (hc : s.heap.Compared) (hr : s.heap.Recalls) :
    s'.heap.Recalls := by
  refine hr.sameCalls (hch.follows hs hc).1 fun f => ?_
  cases hch with
  | heap h hch => exact ⟨((Heap.Evolves.single hch).sameCalls f).code, ((Heap.Evolves.single hch).sameCalls f).arrows⟩
  | yields g t => exact sameCalls_modify g f fun _ => ⟨rfl, rfl⟩
  | _ => exact ⟨rfl, rfl⟩

theorem Discerning.recalls_define (hd : s.Discerning D)
    (setup : Heap.Evolves s.heap h) (isCode : function.code = some code) (arrows : function.arrows = [])
    (unknown : s.definitions.functions.get? code.ref = none) (hr : s.heap.Recalls) :
    ((s.withHeap h).define code function).heap.Recalls := by
  have hl : s.Later ((s.withHeap h).define code function) := (Session.Later.of_evolves setup).trans (.define code function)
  refine hr.follow (hd.follows_define setup isCode unknown).1 hl.codes fun g a ha => ?_
  have hfun : ((s.withHeap h).define code function).heap.function g =
      if g = ⟨h.functions.size⟩ then function else h.function g := Heap.function_push g function
  rw [hfun] at ha
  split at ha
  · rw [arrows] at ha
    cases ha
  · exact (setup.sameCalls g).arrows ▸ ha

theorem Discerning.recalls_enter (hd : s.Discerning D)
    (isCode : (s.heap.function f).code = some code) (setup : Heap.Evolves (s.markCalled f).heap h)
    (hr : s.heap.Recalls) : (((s.markCalled f).withHeap h).enterCall f).heap.Recalls := by
  refine hr.sameCalls (hd.enter isCode setup).1 fun g => ?_
  have hmark : ((s.markCalled f).heap.function g).code = (s.heap.function g).code ∧
      ((s.markCalled f).heap.function g).arrows = (s.heap.function g).arrows :=
    sameCalls_modify f g fun _ => ⟨rfl, rfl⟩
  have henter : ((((s.markCalled f).withHeap h).enterCall f).heap.function g).code = (h.function g).code ∧
      ((((s.markCalled f).withHeap h).enterCall f).heap.function g).arrows = (h.function g).arrows :=
    sameCalls_modify f g fun _ => ⟨rfl, rfl⟩
  exact ⟨henter.1.trans ((setup.sameCalls g).code.trans hmark.1),
    henter.2.trans ((setup.sameCalls g).arrows.trans hmark.2)⟩

theorem Discerning.recalls_leaveCall (hd : s.Discerning D) (hr : s.heap.Recalls) (f : FunctionId)
    (stack : List FunctionId) (yields : Option TypeId) : (s.leaveCall f stack yields).heap.Recalls :=
  hr.sameCalls (follows_leaveCall hd.sound hd.compared f stack yields).1 fun g =>
    sameCalls_modify f g fun _ => ⟨rfl, rfl⟩

theorem Discerning.recalls_recordCall
    (hd : s.Discerning D) (hr : s.heap.Recalls) (isCode : (s.heap.function f).code = some code)
    (computed : Computes env f code key result before s) (sound : before.heap.IsSound)
    (during : before.heap.Follows s.heap) (stack : List FunctionId) (yields : Option TypeId) :
    ((s.leaveCall f stack yields).recordCall f key result).heap.Recalls := by
  have hf := (follows_recordCall hd.sound hd.compared f stack yields key result).1
  have hl : s.Later ((s.leaveCall f stack yields).recordCall f key result) :=
    (Session.Later.leaveCall f stack yields).trans (.recordCall f key result)
  have hleave : ∀ g, ((s.leaveCall f stack yields).heap.function g).code = (s.heap.function g).code ∧
      ((s.leaveCall f stack yields).heap.function g).arrows = (s.heap.function g).arrows :=
    fun g => sameCalls_modify f g fun _ => ⟨rfl, rfl⟩
  have hkey : before.heap.Has key := by
    obtain ⟨_, _, _, hty, _⟩ := computed.ran
    exact Heap.has_of_ty_ne (by simp [hty])
  have hnew : ∀ k, s.heap.Has k → s.heap.sameKey k key = true →
      ((s.leaveCall f stack yields).recordCall f key result).heap.Origin f k result env code key before s :=
    fun k hk hsame => ⟨hl.codes f code isCode, computed, sound, hkey, during, hd.sound.heap, hd.compared, hk, hsame, hf⟩
  intro g a ha
  have hfun : ((s.leaveCall f stack yields).recordCall f key result).heap.function g = _ :=
    Heap.function_modify (h := (s.leaveCall f stack yields).heap) f g _
  rw [hfun] at ha
  -- Only the function that was applied keeps something new.
  split at ha
  · rename_i hg
    obtain ⟨rfl, _⟩ := hg
    dsimp only at ha
    rcases Heap.mem_withArrow ha with hold | ⟨hresult, hk | ⟨r, hold, hsame⟩⟩
    · rw [(hleave g).2] at hold
      obtain ⟨env, code, key, before, after, ho⟩ := hr _ a hold
      exact ⟨env, code, key, before, after, ho.follow hf (hl.codes _)⟩
    · rw [hresult, hk]
      exact ⟨env, code, key, before, s, hnew key computed.isKey.has (s.heap.sameKey_self key)⟩
    · -- An older tuple that has come to equal the new one keeps the new result.
      rw [(hleave g).2] at hold
      have hhas : s.heap.Has a.1 := ((hd.sound.heap.functions _).arrows _ hold).1.has
      have hleft := (follows_leaveCall hd.sound hd.compared g stack yields).1
      rw [hleft.sameKey_of_untouched hd.compared hd.sound.heap hhas computed.isKey.has (fun _ _ => rfl) fun _ _ => rfl]
        at hsame
      rw [hresult]
      exact ⟨env, code, key, before, s, hnew a.1 hhas hsame⟩
  · rw [(hleave g).2] at ha
    obtain ⟨env, code, key, before, after, ho⟩ := hr g a ha
    exact ⟨env, code, key, before, after, ho.follow hf (hl.codes g)⟩

end Session

theorem Run.recalls (hr : Run env D b s s') (hd : s.Discerning D) (hrec : s.heap.Recalls) : s'.heap.Recalls := by
  induction hr with
  | refl => exact hrec
  | change hch => exact hch.recalls hd.sound hd.compared hrec
  | trans hr _ ih ih' => exact ih' (hd.run hr) (ih hd hrec)
  | stop _ ih => exact ih hd hrec
  | define code function owned unknown params _ setup made ih =>
    have hd' := hd.ofParams owned
    have hspares := (params.grounded hd.grounded hd'.frame).2
    exact (hd'.run params).recalls_define setup made.code made.arrows (hspares.unknown hd.grounded hd.frame owned unknown)
      (ih hd' hrec)
  | defineBroken code owned _ _ ih => exact ih (hd.ofParams owned) hrec
  | defineClass u node c body _ _ setup _ _ ih =>
    obtain ⟨hf, hd'⟩ := hd.addClass setup ⟨u.number, node⟩ c
    exact ih hd' (hrec.sameCalls hf fun g => ⟨(setup.sameCalls g).code, (setup.sameCalls g).arrows⟩)
  | @mark _ s f _ =>
    have hf : s.heap.Follows (s.markCalled f).heap := .of_codes (.of_types_eq rfl) (Session.code_markCalled f) rfl
    exact hrec.sameCalls hf fun g => Session.sameCalls_modify f g fun _ => ⟨rfl, rfl⟩
  | apply f code key result isCode _ _ setup body _ computed ih =>
    have hd' := (hd.enter isCode setup).2
    have hcode := body.later.codes f code ((Session.code_enterCall f setup f).trans isCode)
    exact (hd'.run body).recalls_recordCall (ih hd' (hd.recalls_enter isCode setup hrec)) hcode computed hd'.sound.heap
      (body.follows hd').1 _ _
  | applyBroken f code isCode _ _ setup body ih =>
    have hd' := (hd.enter isCode setup).2
    exact (hd'.run body).recalls_leaveCall (ih hd' (hd.recalls_enter isCode setup hrec)) f _ _
  | load m unit _ _ parsing opens _ _ ih ih' | loadBroken m unit _ _ parsing opens _ ih ih' =>
    have hd1 := hd.enterFile unit.path
    exact ih' ((hd1.run parsing).addUnit opens parsing.stack) (ih hd1 hrec)
  | loadFailed path _ _ _ ih => exact ih (hd.enterFile path) hrec

theorem Move.recalls (hm : Move env step b s s') (hs : s.IsSound) (hg : s.Grounded) (hc : s.heap.Compared)
    (hrec : s.heap.Recalls) : s'.heap.Recalls := by
  induction hm with
  | run hr => exact hr.recalls ⟨hs, hg, .empty, hc⟩ hrec
  | trans hm _ ih ih' => exact ih' (hm.isSound hs) (hm.grounded hg) (hm.follows hs hg hc).2 (ih hs hg hc hrec)
  | recover _ _ ih => exact ih hs hg hc hrec
  | within path _ ih => exact ih (hs.enterFile path) (hg.congr rfl rfl (fun _ => rfl) rfl) hc hrec
  | _ => exact hrec.sameCalls (.of_codes (.of_types_eq rfl) (fun _ => rfl) rfl) fun _ => ⟨rfl, rfl⟩

theorem Session.ofLibrary_recalls {library : Table String ClassId × Heap} (hb : library.2.IsBare) :
    (Session.ofLibrary library).heap.Recalls := by
  intro f a ha
  have hnone : (library.2.function f).arrows = [] := hb.arrows f
  rw [Session.ofLibrary, hnone] at ha
  cases ha

theorem Reachable.recalls (hs : Reachable s) : s.heap.Recalls := by
  induction hs with
  | empty => exact Session.ofLibrary_recalls (bindLibrary_prepares.run initial_isBare).1
  | step hs env step ih =>
    obtain ⟨_, hm⟩ := hs.moves env step
    exact hm.recalls hs.idle.sound hs.idle.grounded hs.compared ih

/-- Evaluators may be asked while all results that are kept have an origin. -/
def Regime.recalling (env : Environment) : Regime env where
  ready _ D s := s.Discerning D ∧ s.heap.Recalls
  faults _ := True
  faults_of_cause _ _ := trivial
  params hd owned := ⟨hd.1.ofParams owned, hd.2⟩
  run hd hr := ⟨hd.1.run hr, hr.recalls hd.1 hd.2⟩
  addClass hd r c := ⟨(hd.1.addClass (.refl _) r c).2, hd.2⟩
  enter hd _ isCode _ _ setup := ⟨(hd.1.enter isCode setup).2, hd.1.recalls_enter isCode setup hd.2⟩
  enterFile hd _ _ parsing opens :=
    ⟨(((hd.1.enterFile _).run parsing).addUnit opens parsing.stack), parsing.recalls (hd.1.enterFile _) hd.2⟩

section Applications

/-- How results that are kept are used: each of them has an origin, and where a function with a body is applied to types
for which a result is found, this is the result of the application, and the body is not evaluated. -/
structure Session.Remembers (s : Session) : Prop where
  kept : s.heap.Recalls
  given : ∀ (env : Environment) (ev : Evaluator) (f : FunctionId) (code : Code) (receiver : Option TypeId)
    (args : Option CallArgs), (s.heap.function f).code = some code → (s.heap.function f).native = none →
    f ∉ s.callStack → (∀ t ∈ receiver, s.heap.IsValue t) → (∀ a ∈ args, a.All s.heap.IsValue) →
    ∀ frame h, (callFrame ((s.markCalled f).heap.function f) code receiver args).run (s.markCalled f).heap = (frame, h) →
      ∀ result, h.arrow? f frame.2 = some result →
        (apply ev f receiver args).runOn env s = (.ok result, (s.markCalled f).withHeap h) ∧
          h.Answers f frame.2 result

def Verdict.remembers : Verdict := fun _ _ s _ s' => s.Remembers ∧ s'.Remembers

theorem Session.Discerning.remembers (hd : s.Discerning D) (hrec : s.heap.Recalls) : s.Remembers where
  kept := hrec
  given env ev f code receiver args isCode native outside hr ha frame h hframe result harrow := by
    have hm := hd.sound.markCalled f
    have hl : s.Later (s.markCalled f) := .markCalled f
    obtain ⟨hevolves, _⟩ := (callFrame_frames code (hm.heap.functions f) (fun t ht => hl.isValue (hr t ht))
      fun a hmem => (ha a hmem).mono fun _ => hl.isValue).run hm.heap
    rw [hframe] at hevolves
    constructor
    · rw [runOn_apply, runOn_applyMarked ((Session.code_markCalled f f).trans isCode)
        ((native_markCalled f).trans native) outside hframe, harrow]
    · -- To find the parameters changes nothing in what is kept.
      have hf : s.heap.Follows (s.markCalled f).heap := .of_codes (.of_types_eq rfl) (Session.code_markCalled f) rfl
      have hf' : (s.markCalled f).heap.Follows h :=
        (hevolves.compared hm.heap (hf.compared hd.sound.heap hd.compared rfl)).1
      have hmark : (s.markCalled f).heap.Recalls :=
        hrec.sameCalls hf fun g => Session.sameCalls_modify f g fun _ => ⟨rfl, rfl⟩
      have hrec' : h.Recalls :=
        hmark.sameCalls hf' fun g => ⟨(hevolves.sameCalls g).code, (hevolves.sameCalls g).arrows⟩
      exact hrec'.answers harrow

theorem Regime.recalling_upholds (env : Environment) : (Regime.recalling env).Upholds .remembers where
  faults _ := trivial
  ready hd := hd
  passes _ _ D s _ hd r s' hends := by
    obtain ⟨b, hr⟩ : ∃ b, Run env D b s s' := by
      cases r with
      | error f => exact ⟨_, hends.1⟩
      | ok a => exact ⟨_, hends.1⟩
    exact ⟨hd.1.remembers hd.2, (hd.1.run hr).remembers (hr.recalls hd.1 hd.2)⟩

/-- Results that are kept answer for the parameters they were computed with, unless lists or dictionaries were widened.
In a reachable session, where an application finds a result, the body was evaluated with the types of a tuple that was
equal to the one which the result is kept under. That tuple is as it was and still equal, unless a list or a dictionary
that is reached from it, or from the one which the result is kept under, has been widened. All through a further step it
is like that: vetting every task makes no difference. -/
theorem kept_results_answer_unless_widened (hs : Reachable s) : s.Remembers ∧
    ∀ (env : Environment) (step : SessionStep) (alarm : Fault),
      (step.runBy (.vetting .remembers alarm)).runOn env s = step.run.runOn env s := by
  refine ⟨(hs.idle.discerning hs.compared).remembers hs.recalls, fun env step alarm => ?_⟩
  refine runBy_vetting (Regime.recalling_upholds env) (I := fun s => s.heap.Compared ∧ s.heap.Recalls)
    (fun s s' _ hi hc hm => ?_) (fun s hi hc => ⟨hi.discerning hc.1, hc.2⟩) hs.idle ⟨hs.compared, hs.recalls⟩ step
  exact ⟨(hm.follows hi.sound hi.grounded hc.1).2, hm.recalls hi.sound hi.grounded hc.1 hc.2⟩

/-- A function gives the first element of a list. -/
def firstElement : Environment where
  workspace := .ofFiles [("m.py", ⟨.empty, .tree ⟨some ⟨0, 71⟩,
    [.functionDef (some ⟨0, 25⟩) 0 ⟨1, "f", some ⟨4, 5⟩⟩ ⟨[], [⟨⟨2, "p", some ⟨6, 7⟩⟩, none, none⟩], none, [], none⟩
      [.line [.giveBack (some (.subscript (some ⟨21, 25⟩) (.name ⟨3, "p", some ⟨21, 22⟩⟩)
        [.single (.integer (some ⟨23, 24⟩) "0")]))]] [],
      .line [.assign [.name ⟨4, "a", some ⟨26, 27⟩⟩] (.list (some ⟨30, 33⟩) [⟨false, .integer (some ⟨31, 32⟩) "1"⟩])],
      .line [.expr (.call (some ⟨34, 38⟩) (.name ⟨5, "f", some ⟨34, 35⟩⟩) [.positional (.name ⟨6, "a", some ⟨36, 37⟩⟩)])],
      .line [.assign [.subscript (some ⟨39, 43⟩) (.name ⟨7, "a", some ⟨39, 40⟩⟩) [.single (.integer (some ⟨41, 42⟩) "0")]]
        (.string (some ⟨46, 49⟩) false)],
      .line [.assign [.name ⟨8, "b", some ⟨50, 51⟩⟩] (.list (some ⟨54, 62⟩)
        [⟨false, .integer (some ⟨55, 56⟩) "1"⟩, ⟨false, .string (some ⟨58, 61⟩) false⟩])],
      .line [.assign [.name ⟨9, "r", some ⟨63, 64⟩⟩]
        (.call (some ⟨67, 71⟩) (.name ⟨10, "f", some ⟨67, 68⟩⟩) [.positional (.name ⟨11, "b", some ⟨69, 70⟩⟩)])]],
    by decide, by decide⟩⟩)] [] none
  settings := default

def Session.answersForFewer (s : Session) : Bool :=
  (s.heap.bindings.any fun b => b.name == "r" && b.type == .int) &&
    s.heap.bindings.any fun b => b.name == "b" && match s.heap.ty b.type with
      | .list e _ => s.heap.members e == [.int, .str]
      | _ => false

def Session.keepsResult (s : Session) : Bool :=
  (List.range s.heap.functions.size).any fun i => !(s.heap.function ⟨i⟩).arrows.isEmpty

theorem firstElement_session : (Session.after [(firstElement, .load "m.py")]).answersForFewer = true ∧
    (Session.after [(firstElement, .load "m.py")]).keepsResult = true := by decide +kernel

/-- A result that is kept may be given for parameters that the body was never evaluated with: with the second list it
would be an integer or a text. -/
theorem kept_result_answers_for_fewer : ∃ s, Reachable s ∧ s.answersForFewer = true :=
  Reachable.exists_of_test Session.answersForFewer firstElement_session.1

theorem kept_results_answer_unless_widened_firstElement : ∃ s, Reachable s ∧ ∃ f k result env code key before after,
    (k, result) ∈ (s.heap.function f).arrows ∧ s.heap.Origin f k result env code key before after := by
  obtain ⟨s, hs, htest⟩ := Reachable.exists_of_test Session.keepsResult firstElement_session.2
  obtain ⟨i, _, hi⟩ := List.any_eq_true.1 htest
  obtain ⟨⟨k, result⟩, ha⟩ : ∃ a, a ∈ (s.heap.function ⟨i⟩).arrows := by
    cases harrows : (s.heap.function ⟨i⟩).arrows with
    | nil => simp [harrows] at hi
    | cons a rest => exact ⟨a, List.mem_cons_self ..⟩
  obtain ⟨env, code, key, before, after, ho⟩ := (kept_results_answer_unless_widened hs).1.kept ⟨i⟩ _ ha
  exact ⟨s, hs, ⟨i⟩, k, result, env, code, key, before, after, ha, ho⟩

end Applications

end Concordance
