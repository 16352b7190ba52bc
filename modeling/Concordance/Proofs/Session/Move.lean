import Concordance.Session.Finish
import Concordance.Proofs.Session.Grounded

/-!
# What steps of a session do

Files, texts and directories are loaded, what was never applied is applied, and the analysis is finished. A step begins
and ends when no file is being loaded and no function applied.
-/

namespace Concordance

/-- What a reference may become: a call may turn out to be a construction. -/
def Reference.Becomes (r r' : Reference) : Prop := r' = r ∨ r.kind = .call ∧ r' = { r with kind := .new }

theorem Reference.Becomes.samePlace {r : Reference} (hb : r.Becomes r') : r'.file = r.file ∧ r'.start = r.start := by
  rcases hb with rfl | ⟨_, rfl⟩ <;> exact ⟨rfl, rfl⟩

/-- A step of a session. -/
inductive SessionStep
  | start
  | load (path : String)
  | loadText (path : String) (content : ByteArray) (outcome : ParseOutcome)
  | loadBelow (path : String)
  | applyUncalled
  | finish

namespace SessionStep

def run : SessionStep → Analysis Unit
  | start => startSession
  | load path => discard (Concordance.load path)
  | loadText path content outcome => discard (Concordance.loadText path content outcome)
  | loadBelow path => discard (Concordance.loadBelow path)
  | applyUncalled => discard Concordance.applyUncalled
  | finish => Concordance.finish

/-- A step is given a text with a tree, as if it were the content of a file. -/
def Gives (env : Environment) (step : SessionStep) (path : String) (tree : Syntax.Module) : Prop :=
  ∃ p content, step = .loadText p content (.tree tree) ∧ env.Names p path

end SessionStep

/-- What a step of a session does, completely or until a fault. -/
inductive Move (env : Environment) (step : SessionStep) : Bool → Session → Session → Prop
  | run {b s s'} (hr : Run env (fun _ _ => False) b s s') : Move env step b s s'
  | trans {b s s' s''} (hm : Move env step true s s') (hm' : Move env step b s' s'') : Move env step b s s''
  | text {s} (unit : SourceUnit) (number : unit.number = s.loading.cache.parses)
      (given : step.Gives env unit.path unit.tree) :
      Move env step true s { s with loading.cache := s.loading.cache.keep unit }
  | forget {s} : Move env step true s { s with loading.cache := s.loading.cache.clear }
  /-- The search path is emptied, which only the start of a session does, or a new directory comes to its end. -/
  | searchPath {s} (paths : List String)
      (law : step = .start ∧ paths = [] ∨ ∃ d ∉ s.loading.searchPath, paths = s.loading.searchPath ++ [d]) :
      Move env step true s { s with loading.searchPath := paths }
  | finish {s} (closing : step = .finish) : Move env step true s { s with finished := true }
  | reclassify {s} (closing : step = .finish) (references : Array Reference)
      (size : references.size = s.heap.references.size)
      (same : ∀ (i : Nat) r, s.heap.references[i]? = some r → ∃ r', references[i]? = some r' ∧ r.Becomes r') :
      Move env step true s { s with heap.references := references }
  /-- A module is made from a unit on whose statements memory will be made to run out. -/
  | openUnit {s} (short : env.injection = some ⟨.resolving, .memory⟩) (m : ModuleId) (unit : SourceUnit)
      (opens : s.Opens m unit) : Move env step true s (s.addUnit m unit)
  /-- The session goes on after memory was made to run out on a module. -/
  | recover {s s'} (short : env.injection = some ⟨.resolving, .memory⟩) (hm : Move env step false s s') :
      Move env step true s s'
  | within {b s s'} (path : String) (hm : Move env step b (s.enterFile path) s') :
      Move env step b s (s'.leaveFile s.loading)

/-- A session between two steps. -/
structure Session.Idle (s : Session) : Prop where
  sound : s.IsSound
  grounded : s.Grounded
  calls : s.callStack = []
  files : s.loading.stack = []

namespace Move

theorem refl (s : Session) : Move env step true s s := .run .refl

section

variable (hm : Move env step b s s')
include hm

theorem isSound (hs : s.IsSound) : s'.IsSound := by
  induction hm with
  | run hr => exact hr.isSound hs
  | recover _ _ ih => exact ih hs
  | openUnit _ m unit opens => exact hs.addUnit unit opens.made
  | trans _ _ ih ih' => exact ih' (ih hs)
  | text unit _ _ => exact hs.keep unit
  | forget => exact hs.forget
  | searchPath | finish => exact ⟨hs.heap, hs.registered, hs.mirrored, hs.cached, hs.opened, hs.waiting⟩
  | @reclassify s _ references size same =>
    refine ⟨hs.heap.congr rfl (fun _ => rfl) rfl rfl rfl rfl hs.heap.functions, hs.registered,
      hs.mirrored.of_places size fun i r' hr' => ?_, hs.cached, hs.opened, hs.waiting⟩
    have hlt : i < s.heap.references.size := size ▸ (Array.getElem?_eq_some_iff.1 hr').1
    obtain ⟨r'', hr'', hb⟩ := same i _ (Array.getElem?_eq_getElem hlt)
    cases hr'.symm.trans hr''
    exact ⟨_, Array.getElem?_eq_getElem hlt, hb.samePlace⟩
  | within path _ ih => exact (ih (hs.enterFile path)).leaveFile _

theorem grounded (hg : s.Grounded) : s'.Grounded := by
  induction hm with
  | run hr => exact (hr.grounded hg .empty).1
  | recover _ _ ih => exact ih hg
  | openUnit _ m unit opens => exact hg.addUnit opens
  | trans _ _ ih ih' => exact ih' (ih hg)
  | text unit number _ => exact hg.keep number
  | forget => exact hg.forget
  | searchPath | finish | reclassify => exact hg.congr rfl rfl (fun _ => rfl) rfl
  | within path _ ih => exact (ih (hg.congr rfl rfl (fun _ => rfl) rfl)).congr rfl rfl (fun _ => rfl) rfl

theorem callStack : s'.callStack = s.callStack := by
  induction hm with
  | run hr => exact hr.callStack
  | recover _ _ ih => exact ih
  | trans _ _ ih ih' => exact ih'.trans ih
  | within _ _ ih => exact ih
  | _ => rfl

theorem stack : s'.loading.stack = s.loading.stack := by
  induction hm with
  | run hr => exact hr.stack
  | recover _ _ ih => exact ih
  | trans _ _ ih ih' => exact ih'.trans ih
  | _ => rfl

theorem directory : s'.loading.directory = s.loading.directory := by
  induction hm with
  | run hr => exact hr.directory
  | recover _ _ ih => exact ih
  | trans _ _ ih ih' => exact ih'.trans ih
  | _ => rfl

theorem idle (hi : s.Idle) : s'.Idle :=
  ⟨hm.isSound hi.sound, hm.grounded hi.grounded, hm.callStack.trans hi.calls, hm.stack.trans hi.files⟩

theorem finished (hf : s.finished = true) : s'.finished = true := by
  induction hm with
  | run hr => exact hr.finished.trans hf
  | recover _ _ ih => exact ih hf
  | trans _ _ ih ih' => exact ih' (ih hf)
  | finish => rfl
  | within _ _ ih => exact ih hf
  | _ => exact hf

theorem finished_eq (hk : step ≠ .finish) : s'.finished = s.finished := by
  induction hm with
  | run hr => exact hr.finished
  | recover _ _ ih => exact ih
  | trans _ _ ih ih' => exact ih'.trans ih
  | finish closing | reclassify closing => exact absurd closing hk
  | within _ _ ih => exact ih
  | _ => rfl

end

end Move

end Concordance
