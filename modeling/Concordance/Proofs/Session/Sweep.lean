import Concordance.Session.Finish
import Concordance.Proofs.Session.Fuel

/-!
# Sweeps

Functions that were never applied are applied until none is left. Every sweep applies the first function that waits at
its beginning, which has not been applied before.
-/

namespace Concordance

open Syntax (Item)

variable {env : Environment} {R : Regime env} {s : Session}

theorem applyOne_agrees (fits : Fits R ev ev') (f : FunctionId) :
    Agrees R n D s (do if f ∈ (← get).uncalled then discard <| apply ev f none none)
      (do if f ∈ (← get).uncalled then discard <| apply ev' f none none)
      fun _ s' => f ∈ s.uncalled → (s.markCalled f).Later s' := by
  refine .get_bind ?_
  by_cases hf : f ∈ s.uncalled
  · rw [if_pos hf, if_pos hf]
    refine (apply_marks fits f ?_ ?_).discard fun _ _ _ h _ => h.2
    · exact fun _ ht => nomatch ht
    · exact fun _ ht => nomatch ht
  · rw [if_neg hf, if_neg hf]
    exact .pure fun h => absurd h hf

theorem applyWaiting_agrees (fits : Fits R ev ev') (f : FunctionId) (fs : List FunctionId) (hf : f ∈ s.uncalled) :
    Agrees R n D s (applyWaiting ev (f :: fs)) (applyWaiting ev' (f :: fs)) fun _ s' =>
      (s'.heap.function f).called = true := by
  refine .of_sound fun hs => ?_
  unfold applyWaiting
  simp only [List.forM_eq_forM, List.forM_cons]
  refine .bind (applyOne_agrees fits f) fun _ s1 _ hmarked => ?_
  have hcalled : (s1.heap.function f).called = true := by
    obtain ⟨_, c, hc⟩ := hs.waiting f hf
    refine (hmarked hf).called f ?_
    show (Heap.function { s.heap with functions := _ } f).called = true
    rw [Heap.function_modify, if_pos ⟨rfl, Heap.lt_of_code hc⟩]
  refine (Agrees.forM fs fun g _ s2 _ => ?_).mono fun _ s3 hl _ => hl.called f hcalled
  exact (applyOne_agrees fits g).mono fun _ _ _ _ => trivial

/-- Some functions have been applied, and what can be parsed is bounded. -/
structure Session.Swept (env : Environment) (base bound count : Nat) (s : Session) : Prop where
  grounded : s.Grounded
  funded : s.loading.cache.Funded env base
  bounded : base + env.workspace.top.weight ≤ bound
  applied : ∃ fs : List FunctionId, fs.Nodup ∧ fs.length = count ∧
    ∀ f ∈ fs, (s.heap.function f).called = true ∧ ∃ c, (s.heap.function f).code = some c

namespace Session.Swept

theorem start (hg : s.Grounded) (hb : s.loading.cache.weight + env.workspace.top.weight ≤ bound) :
    s.Swept env s.loading.cache.weight bound 0 :=
  ⟨hg, .start env _, hb, [], List.nodup_nil, rfl, fun _ hf => nomatch hf⟩

theorem count_le (hs : s.Swept env base bound count) : count ≤ bound := by
  obtain ⟨fs, hnodup, rfl, hfs⟩ := hs.applied
  have hlength := length_le_weight hs.grounded hnodup fun f hf => (hfs f hf).2
  exact Nat.le_trans hlength (Nat.le_trans hs.funded.weight_le hs.bounded)

theorem run (hs : s.Swept env base bound count) (hr : Run env (fun _ _ => False) true s s') :
    s'.Swept env base bound count := by
  refine ⟨(hr.grounded hs.grounded .empty).1, hr.funded hs.funded, hs.bounded, ?_⟩
  obtain ⟨fs, hnodup, hlength, hfs⟩ := hs.applied
  refine ⟨fs, hnodup, hlength, fun f hf => ?_⟩
  obtain ⟨hcalled, c, hc⟩ := hfs f hf
  exact ⟨hr.later.called f hcalled, c, hr.later.codes f c hc⟩

theorem next (hs : s.Swept env base bound count) (hr : Run env (fun _ _ => False) true s s') (hsound : s.IsSound) (hf : f ∈ s.uncalled) (hcalled : (s'.heap.function f).called = true) :
    s'.Swept env base bound (count + 1) := by
  obtain ⟨huncalled, c, hc⟩ := hsound.waiting f hf
  obtain ⟨fs, hnodup, hlength, hfs⟩ := hs.applied
  -- What waits has not been applied, so it is not among those applied before.
  have hnew : f ∉ fs := by
    intro hmem
    have := (hfs f hmem).1
    rw [huncalled] at this
    cases this
  have hs' := hs.run hr
  refine ⟨hs'.grounded, hs'.funded, hs'.bounded, f :: fs, List.nodup_cons.2 ⟨hnew, hnodup⟩, by simp [hlength], ?_⟩
  intro g hg
  rcases List.mem_cons.1 hg with rfl | hg
  · exact ⟨hcalled, c, hr.later.codes g c hc⟩
  · obtain ⟨hgc, d, hd⟩ := hfs g hg
    exact ⟨hr.later.called g hgc, d, hr.later.codes g d hd⟩

end Session.Swept

theorem sweep_agrees (fits : Fits R ev ev') (sweeps : Nat)
    (hs : s.Swept env base bound count) (hlimit : bound < count + limit) (hlimit' : bound < count + limit') :
    Agrees R n (fun _ _ => False) s (sweep ev limit sweeps) (sweep ev' limit' sweeps) fun _ s' => s'.uncalled = [] := by
  induction limit generalizing s limit' count sweeps with
  | zero =>
    have := hs.count_le
    omega
  | succ limit ih =>
    obtain ⟨limit', rfl⟩ : ∃ k, limit' = k + 1 := by
      have := hs.count_le
      exact ⟨limit' - 1, by omega⟩
    refine .of_sound fun hsound => .get_bind ?_
    cases hwaiting : s.uncalled with
    | nil => exact .pure hwaiting
    | cons f fs =>
      refine .bind_run (trace_agrees _) fun _ s1 hr1 ⟨lines, hs1⟩ => ?_
      have hf : f ∈ s1.uncalled := by
        rw [hs1]
        exact hwaiting ▸ List.mem_cons_self ..
      refine .bind_run (applyWaiting_agrees fits f fs hf) fun _ s2 hr2 hcalled => ?_
      -- The first function that waits has now been applied, so the count has grown.
      refine ih _ ((hs.run hr1).next hr2 (hr1.isSound hsound) hf hcalled) ?_ ?_
      · omega
      · omega

end Concordance
