import Concordance.Proofs.Tracking.Step

/-!
# Where problems are

Problems are reported at names and expressions of the files that modules were made from, and so inside their text. The
exception is the unpacking of a value: its problem goes from the pattern to the end of the value.
-/

namespace Concordance

open Syntax (Pairs)

variable {s : Session} {d : Diagnostic}

namespace Syntax.Module

/-- From the start of a pattern to the end of a value that comes before it. -/
def TurnsBack (tree : Module) (start stop : Int) : Prop :=
  ∃ stmt p v, Pairs tree.body stmt p v ∧ start = p.start ∧ stop = v.stop ∧ v.stop < p.start ∧
    (tree.Forward → stmt.isWith = true)

variable {tree : Module}

theorem Spans.nonneg (hs : tree.Spans start stop) : 0 ≤ start ∧ 0 ≤ stop := by
  obtain ⟨whole, _, hstart, _, hstop, _⟩ := hs
  omega

theorem turnsBack_of_pairs (hpairs : Pairs tree.body stmt p v) :
    (p.start : Int) ≤ v.stop ∨ tree.TurnsBack p.start v.stop := by
  by_cases hle : p.start ≤ v.stop
  · exact .inl (by omega)
  · refine .inr ⟨stmt, p, v, hpairs, rfl, rfl, by omega, fun hforward => ?_⟩
    by_contra hwith
    exact hle (hforward stmt p v hpairs (by simpa using hwith))

end Syntax.Module

theorem Session.Sited.spans (hd : s.Sited d)
    (hplaced : ∀ m unit, s.loading.units.get? m = some unit → unit.tree.WellPlaced) :
    ∃ m unit, s.loading.units.get? m = some unit ∧ unit.path = d.file ∧ unit.tree.Spans d.start d.stop ∧
      (d.start ≤ d.stop ∨ unit.tree.TurnsBack d.start d.stop) := by
  obtain ⟨m, unit, hunit, hpath, hsite⟩ := hd
  have hp := hplaced m unit hunit
  refine ⟨m, unit, hunit, hpath, ?_⟩
  rcases hsite with htext | ⟨stmt, p, v, hpairs, hstart, hstop⟩
  · obtain ⟨hspans, hle⟩ := hp.spans_of_exprText htext
    exact ⟨hspans, .inl hle⟩
  · rw [hstart, hstop]
    exact ⟨hp.spans_of_pairs hpairs, Syntax.Module.turnsBack_of_pairs hpairs⟩

/-- Problems are well placed. In a reachable session whose trees are well placed, no two problems agree in file, offsets,
kind and message, and every problem lies inside the tree of a module that was made from its file. It ends where it starts
or later, unless a pattern is bound there to a value that comes before it, which only a with statement does. -/
theorem problems_run_forward_unless_with (hs : Reachable s)
    (hplaced : ∀ m unit, s.loading.units.get? m = some unit → unit.tree.WellPlaced) :
    (s.problems.reported.Pairwise fun d d' => ¬ (d.file = d'.file ∧ d.start = d'.start ∧ d.stop = d'.stop ∧
      d.kind = d'.kind ∧ d.message = d'.message)) ∧
    ∀ d ∈ s.problems.reported, ∃ m unit, s.loading.units.get? m = some unit ∧ unit.path = d.file ∧ 0 ≤ d.start ∧
      0 ≤ d.stop ∧ unit.tree.Spans d.start d.stop ∧ (d.start ≤ d.stop ∨ unit.tree.TurnsBack d.start d.stop) := by
  have hmarked := hs.ordered.marked
  refine ⟨hmarked.distinct.imp fun {d d'} hne hsame => ?_, fun d hd => ?_⟩
  · obtain ⟨hfile, hstart, hstop, hkind, hmessage⟩ := hsame
    simp [Diagnostic.sameProblem, hfile, hstart, hstop, hkind, hmessage] at hne
  · obtain ⟨m, unit, hunit, hpath, hspans, hforward⟩ := (hmarked.problems d hd).spans hplaced
    exact ⟨m, unit, hunit, hpath, hspans.nonneg.1, hspans.nonneg.2, hspans, hforward⟩

/-- A file with a number that is taken apart by a with statement: `with 5 as [a, b]: pass`. -/
def numberAsContext : Environment where
  workspace := .ofFiles [("m.py", ⟨.empty, .tree ⟨some ⟨0, 23⟩,
      [.withBlock [⟨.integer (some ⟨5, 6⟩) "5", some (.list (some ⟨10, 16⟩)
        [⟨false, .name ⟨0, "a", some ⟨11, 12⟩⟩⟩, ⟨false, .name ⟨1, "b", some ⟨14, 15⟩⟩⟩])⟩] [.line [.pass]]],
      by decide, by decide⟩⟩)] [] none
  settings := default

def Session.hasBackward (s : Session) : Bool :=
  s.loading.units.values.all (fun unit => decide unit.tree.WellPlaced) &&
    s.problems.reported.any fun d => decide (d.stop < d.start)

theorem Session.exists_backward (htest : s.hasBackward = true) :
    (∀ m unit, s.loading.units.get? m = some unit → unit.tree.WellPlaced) ∧
      ∃ d ∈ s.problems.reported, d.stop < d.start := by
  simp only [hasBackward, Bool.and_eq_true, List.all_eq_true, List.any_eq_true, decide_eq_true_eq] at htest
  exact ⟨fun m unit hunit => htest.1 unit (Table.mem_values_of_get? hunit), htest.2⟩

theorem numberAsContext_hasBackward : (Session.after [(numberAsContext, .load "m.py")]).hasBackward = true := by
  decide +kernel

/-- A problem may end before it starts, though the tree is well placed. -/
theorem problem_ends_before_start : ∃ s, Reachable s ∧
    (∀ m unit, s.loading.units.get? m = some unit → unit.tree.WellPlaced) ∧
    ∃ d ∈ s.problems.reported, d.stop < d.start := by
  obtain ⟨s, hs, htest⟩ := Reachable.exists_of_test Session.hasBackward numberAsContext_hasBackward
  exact ⟨s, hs, Session.exists_backward htest⟩

theorem problems_run_forward_unless_with_numberAsContext : ∃ s, Reachable s ∧
    (∀ m unit, s.loading.units.get? m = some unit → unit.tree.WellPlaced) ∧
    ∃ d ∈ s.problems.reported, ∃ m unit, s.loading.units.get? m = some unit ∧ unit.path = d.file ∧
      unit.tree.Spans d.start d.stop ∧ unit.tree.TurnsBack d.start d.stop := by
  obtain ⟨s, hs, htest⟩ := Reachable.exists_of_test Session.hasBackward numberAsContext_hasBackward
  obtain ⟨hplaced, d, hd, hlt⟩ := Session.exists_backward htest
  obtain ⟨m, unit, hunit, hpath, _, _, hspans, hforward⟩ := (problems_run_forward_unless_with hs hplaced).2 d hd
  exact ⟨s, hs, hplaced, d, hd, m, unit, hunit, hpath, hspans, hforward.resolve_left (by omega)⟩

end Concordance
