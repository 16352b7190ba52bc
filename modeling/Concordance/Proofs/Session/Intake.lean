import Concordance.Proofs.Session.Move

/-!
# Files that a session takes in

What was loaded stays loaded, and what failed to parse stays recorded. A file is loaded only if its unit was in the
cache or the parser gives a tree for it.
-/

namespace Concordance

/-- What the files of a session and the record of failures have gained; whether the work was complete is said by the
flag. -/
structure Session.Gains (env : Environment) (complete : Bool) (s s' : Session) : Prop where
  loaded : ∀ p ∈ s.loading.loaded, p ∈ s'.loading.loaded
  failed : ∀ p ∈ s.loading.failed, p ∈ s'.loading.failed
  problems : ∀ d ∈ s.parseProblems.reported, d ∈ s'.parseProblems.reported
  cached : ∀ p, s'.loading.cache.units.get? p ≠ none → s.loading.cache.units.get? p ≠ none ∨ env.Accepts p
  sources : ∀ p ∈ s'.loading.loaded,
    p ∈ s.loading.loaded ∨ s.loading.cache.units.get? p ≠ none ∨ env.Accepts p
  opened : complete = true → env.injection ≠ some ⟨.resolving, .memory⟩ → ∀ m u,
    s'.loading.units.get? m = some u → s.loading.units.get? m = some u ∨ u.path ∈ s'.loading.loaded

namespace Session.Gains

variable {env : Environment} {s s' : Session}

theorem of_eq (loaded : s'.loading.loaded = s.loading.loaded) (failed : s'.loading.failed = s.loading.failed)
    (problems : s'.parseProblems = s.parseProblems) (cache : s'.loading.cache = s.loading.cache)
    (units : s'.loading.units = s.loading.units) : s.Gains env b s' where
  loaded _ hp := loaded ▸ hp
  failed _ hp := failed ▸ hp
  problems _ hd := problems ▸ hd
  cached _ hp := .inl (cache ▸ hp)
  sources _ hp := .inl (loaded ▸ hp)
  opened _ _ _ _ hu := .inl (units ▸ hu)

theorem refl (s : Session) : s.Gains env b s := of_eq rfl rfl rfl rfl rfl

theorem trans (hg : s.Gains env b s') (hg' : s'.Gains env b' s'') : s.Gains env (b && b') s'' where
  loaded p hp := hg'.loaded p (hg.loaded p hp)
  failed p hp := hg'.failed p (hg.failed p hp)
  problems d hd := hg'.problems d (hg.problems d hd)
  cached p hp := by
    rcases hg'.cached p hp with hp | hp
    · exact hg.cached p hp
    · exact .inr hp
  sources p hp := by
    rcases hg'.sources p hp with hp | hp | hp
    · exact hg.sources p hp
    · exact .inr (hg.cached p hp)
    · exact .inr (.inr hp)
  opened hb hinj m u hu := by
    rw [Bool.and_eq_true] at hb
    rcases hg'.opened hb.2 hinj m u hu with hu | hu
    · exact (hg.opened hb.1 hinj m u hu).imp_right (hg'.loaded u.path)
    · exact .inr hu

theorem stop (hg : s.Gains env b s') : s.Gains env false s' :=
  { hg with opened := fun h => nomatch h }

theorem parseFailure (s : Session) (f : ParseFailure) : s.Gains env b
    { s with
      loading.failed := if f.path ∈ s.loading.failed then s.loading.failed else s.loading.failed ++ [f.path]
      parseProblems := s.parseProblems.add ⟨f.path, 0, 0, .parseError, f.describe, .error⟩ } where
  loaded _ hp := hp
  failed _ hp := by
    dsimp only
    split
    · exact hp
    · exact List.mem_append_left _ hp
  problems _ hd := List.mem_append_left _ hd
  cached _ hp := .inl hp
  sources _ hp := .inl hp
  opened _ _ _ _ hu := .inl hu

theorem keep (accepted : env.Accepts unit.path) :
    s.Gains env b { s with loading.cache := s.loading.cache.keep unit } where
  loaded _ hp := hp
  failed _ hp := hp
  problems _ hd := hd
  cached p hp := by
    by_cases heq : p = unit.path
    · exact .inr (heq ▸ accepted)
    · rw [UnitCache.keep, Table.get?_insert_of_ne heq] at hp
      exact .inl hp
  sources _ hp := .inl hp
  opened _ _ _ _ hu := .inl hu

theorem forget (s : Session) : s.Gains env b { s with loading.cache := s.loading.cache.clear } where
  loaded _ hp := hp
  failed _ hp := hp
  problems _ hd := hd
  cached _ hp := absurd rfl hp
  sources _ hp := .inl hp
  opened _ _ _ _ hu := .inl hu

theorem addUnit (s : Session) (m : ModuleId) (unit : SourceUnit) : s.Gains env false (s.addUnit m unit) where
  loaded _ hp := hp
  failed _ hp := hp
  problems _ hd := hd
  cached _ hp := .inl hp
  sources _ hp := .inl hp
  opened h := nomatch h

theorem addLoaded (hg : s.Gains env true s')
    (cached : s'.loading.cache.units.get? unit.path = some unit) (hg' : (s'.addUnit m unit).Gains env true s'') :
    s.Gains env true (s''.addLoaded unit.path) := by
  have hrest : s.Gains env false s'' := (hg.trans (addUnit s' m unit)).trans hg'
  refine ⟨fun p hp => List.mem_append_left _ (hrest.loaded p hp), hrest.failed, hrest.problems, hrest.cached,
    fun p hp => ?_, fun _ hinj m' u hu => ?_⟩
  · rcases List.mem_append.1 hp with hp | hp
    · exact hrest.sources p hp
    · obtain rfl := List.mem_singleton.1 hp
      exact .inr (hg.cached unit.path (by simp [cached]))
  · -- The module was there, is that of this file, or was made while the statements of this file were evaluated.
    rcases hg'.opened rfl hinj m' u hu with hu | hu
    · rcases Table.get?_insert_cases hu with ⟨_, rfl⟩ | hu
      · exact .inr (List.mem_append_right _ (List.mem_singleton.2 rfl))
      · exact (hg.opened rfl hinj m' u hu).imp_right fun h => List.mem_append_left _ (hg'.loaded u.path h)
    · exact .inr (List.mem_append_left _ hu)

end Session.Gains

theorem Session.Change.gains (hc : Change env s s') : s.Gains env b s' := by
  cases hc with
  | parseFailure f => exact .parseFailure s f
  | parse unit parses => exact .keep parses.accepted
  | forget => exact .forget s
  | _ => exact .of_eq rfl rfl rfl rfl rfl

theorem Run.gains (hr : Run env D b s s') : s.Gains env b s' := by
  induction hr with
  | refl => exact .refl _
  | change hc => exact hc.gains
  | trans _ _ ih ih' => exact ih.trans ih'
  | stop _ ih => exact ih.stop
  | define _ _ _ _ _ _ _ _ ih => exact { ih with }
  | defineBroken _ _ _ _ ih => exact ih
  | defineClass _ _ _ _ _ _ _ _ _ ih => exact { ih with }
  | mark => exact .of_eq rfl rfl rfl rfl rfl
  | apply _ _ _ _ _ _ _ _ _ _ _ ih => exact { ih with }
  | applyBroken _ _ _ _ _ _ _ ih => exact { ih with }
  | load m unit _ _ _ opens _ _ ih ih' => exact { ih.addLoaded opens.cached ih' with }
  | loadBroken m unit _ _ _ _ _ ih ih' => exact { (ih.trans (.addUnit _ m unit)).trans ih' with }
  | loadFailed _ _ _ _ ih => exact { ih with }

theorem Move.gains (hm : Move env step b s s')
    (hstep : ∀ path tree, ¬ step.Gives env path tree) : s.Gains env b s' := by
  induction hm with
  | run hr => exact hr.gains
  | trans _ _ ih ih' => exact ih.trans ih'
  | text unit _ given => exact absurd given (hstep _ _)
  | forget => exact .forget _
  | searchPath | finish | reclassify => exact .of_eq rfl rfl rfl rfl rfl
  | openUnit short m unit _ => exact { Session.Gains.addUnit _ m unit with opened := fun _ hinj => absurd short hinj }
  | recover short _ ih => exact { ih with opened := fun _ hinj => absurd short hinj }
  | within _ _ ih => exact { ih with }

end Concordance
