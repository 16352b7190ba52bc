import Concordance.Proofs.Inference.Evaluate
import Concordance.Proofs.Session.Empty

/-!
# Whether control may go on after a block

The type of a block holds the marker that control goes on only if the form of the block allows it. If branches are clear
the converse holds, too, so that the two agree.
-/

namespace Concordance

open Syntax (Stmt)

variable {s : Session} {t : TypeId}

theorem leaves_of_block (hs : s.IsSound) (hrun : (block (.withFuel fuel) place b).runOn env s = (.ok t, s')) :
    s'.heap.IsSound ∧ s'.heap.Leaves t (Stmt.blockFlow b) := by
  have hagrees : Agrees (.free env) (Stmt.sizeOfBlock b + 1) (fun _ _ => True) s (block (.withFuel fuel) place b)
      (block (.withFuel fuel) place b) _ := block_agrees (Fits.self env fuel) b (Nat.lt_succ_self _) fun _ _ => trivial
  obtain ⟨_, hends⟩ := hagrees.run hs trivial
  rw [hrun] at hends
  exact ⟨(hends.1.isSound hs).heap, hends.2.1⟩

/-- In every sound session and in every scope, control may go on after a block by its type only if it may by its form,
and if branches are clear, exactly then. -/
theorem mayContinue_of_block (hs : s.IsSound) (fuel : Nat) (place : Place) (b : List Stmt)
    (hrun : (block (.withFuel fuel) place b).runOn env s = (.ok t, s')) :
    (s'.heap.mayContinue t = true → Stmt.allFallThrough b = true) ∧
      ((Stmt.blockFlow b).clear = true → (s'.heap.mayContinue t = true ↔ Stmt.allFallThrough b = true)) := by
  obtain ⟨hs', hleaves⟩ := leaves_of_block hs hrun
  rw [hs'.mayContinue_iff, ← Stmt.blockFlow_falls]
  exact ⟨hleaves.falls, fun hclear => ⟨hleaves.falls, hleaves.shown hclear⟩⟩

section Examples

def Session.withScope : Session := .ofLibrary ({}, ((newScope ⟨.module, "", none, {}, [], [], [], none⟩).run Heap.initial).2)

theorem Session.withScope_isSound : Session.withScope.IsSound :=
  (Session.ofLibrary_idle ((Prepares.of_does (newScope_does _ rfl)).run initial_isBare).1).sound

def blockInScope (b : List Stmt) : Except Fault TypeId × Session :=
  (block (.withFuel 20) ⟨⟨0, none⟩, ⟨0⟩⟩ b).runOn { workspace := .ofFiles [] [] none, settings := default } .withScope

/-- Whether the evaluation ends well, and whether control may go on by the type that it gives. -/
def blockInScopeContinues? (b : List Stmt) : Option Bool :=
  match blockInScope b with
  | (.ok t, s) => some (s.heap.mayContinue t)
  | (.error _, _) => none

theorem exists_of_blockInScopeContinues? (h : blockInScopeContinues? b = some c) :
    ∃ t s, blockInScope b = (.ok t, s) ∧ s.heap.mayContinue t = c := by
  unfold blockInScopeContinues? at h
  split at h
  · rename_i t s hrun
    exact ⟨t, s, hrun, Option.some.inj h⟩
  · cases h

/-- A value is given back in one branch of a try statement, and the handler lets control go on to its final block. -/
def recovering : List Stmt :=
  [.tryBlock [.branch (.integer none "1") [.giveBack (some (.integer none "1"))] none, .raise none none]
    [⟨none, none, [.pass]⟩] none (some [.pass])]

theorem mayContinue_of_block_recovering : ∃ t s, blockInScope recovering = (.ok t, s) ∧
    Stmt.allFallThrough recovering = true ∧ s.heap.mayContinue t = true := by
  have hends : blockInScopeContinues? recovering = some true := by decide +kernel
  obtain ⟨t, s, hrun, _⟩ := exists_of_blockInScopeContinues? hends
  have hexact := (mayContinue_of_block Session.withScope_isSound 20 _ recovering hrun).2 (by decide)
  exact ⟨t, s, hrun, by decide, hexact.2 (by decide)⟩

/-- Two lists are given back by the branches of the first branch, `a` or `b`. -/
def rewrittenLists : List Stmt :=
  [.assign [.name ⟨1, "a", none⟩] (.list none [⟨false, .integer none "1"⟩]),
    .assign [.name ⟨2, "b", none⟩] (.list none [⟨false, .string none false⟩]),
    .branch (.integer none "1")
      [.branch (.integer none "1") [.giveBack (some (.name ⟨3, "a", none⟩))] (some [.giveBack (some (.name ⟨4, "b", none⟩))])]
      (some
        [.assign [.subscript none (.name ⟨5, "a", none⟩) [.single (.integer none "0")]] (.string none false),
          .assign [.subscript none (.name ⟨6, "b", none⟩) [.single (.integer none "0")]] (.integer none "1"),
          .branch (.integer none "1") [.giveBack (some (.name ⟨7, "a", none⟩))] none])]

theorem mayContinue_lost : ∃ t s, blockInScope rewrittenLists = (.ok t, s) ∧ Stmt.allFallThrough rewrittenLists = true ∧
    s.heap.mayContinue t = false := by
  have hends : blockInScopeContinues? rewrittenLists = some false := by decide +kernel
  obtain ⟨t, s, hrun, hlost⟩ := exists_of_blockInScopeContinues? hends
  exact ⟨t, s, hrun, by decide, hlost⟩

end Examples

end Concordance
