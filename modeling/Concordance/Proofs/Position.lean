import Mathlib.Data.List.TakeWhile
import Concordance.Command.Run

/-!
# Lines and columns of problems

A problem is at an offset of the text that was parsed, in which every line ends with a line feed. The analyze command
counts lines and columns in the bytes of the file itself.
-/

namespace Concordance

variable {bytes : List UInt8} {offset : Nat}

/-- Line and column of an offset, both counted from one: the line feeds before it, and the bytes after the last of
them. -/
def placeAt (bytes : List UInt8) (offset : Nat) : Nat × Nat :=
  (1 + (bytes.take offset).count 10, 1 + ((bytes.take offset).reverse.takeWhile (· ≠ 10)).length)

/-- One place comes before another one in reading order. -/
def Earlier (p q : Nat × Nat) : Prop := p.1 < q.1 ∨ p.1 = q.1 ∧ p.2 < q.2

/-- The place as seen from the byte before the text: a line feed begins a line, any other byte moves the first line on. -/
def shifted (b : UInt8) (p : Nat × Nat) : Nat × Nat :=
  if b = 10 then (p.1 + 1, p.2) else if p.1 = 1 then (1, p.2 + 1) else p

theorem Earlier.shifted (h : Earlier p q) (b : UInt8) : Earlier (shifted b p) (shifted b q) := by
  unfold Earlier Concordance.shifted at *
  grind

@[simp] theorem placeAt_zero (bytes : List UInt8) : placeAt bytes 0 = (1, 1) := by simp [placeAt]

theorem placeAt_cons (b : UInt8) (bytes : List UInt8) (offset : Nat) :
    placeAt (b :: bytes) (offset + 1) = shifted b (placeAt bytes offset) := by
  rw [placeAt, List.take_succ_cons, List.reverse_cons, List.takeWhile_append, List.count_cons, shifted, placeAt]
  generalize bytes.take offset = before
  by_cases hmem : 10 ∈ before
  · -- The line of the offset begins after the last line feed.
    have hlt : (before.reverse.takeWhile (· ≠ 10)).length ≠ before.reverse.length := by
      intro hall
      have hself := (List.takeWhile_prefix fun x : UInt8 => decide (x ≠ 10)).eq_of_length hall
      have hten := List.takeWhile_eq_self_iff.1 hself 10 (List.mem_reverse.2 hmem)
      simp at hten
    have hcount : before.count 10 ≠ 0 := fun h => List.count_eq_zero.1 h hmem
    rw [if_neg hlt]
    by_cases hb : b = 10
    · simp [hb, Nat.add_assoc]
    · simp [hb, hcount]
  · have hself : before.reverse.takeWhile (· ≠ 10) = before.reverse := by
      refine List.takeWhile_eq_self_iff.2 fun x hx => ?_
      exact decide_eq_true fun heq => hmem (heq ▸ List.mem_reverse.1 hx)
    rw [hself, if_pos rfl, List.count_eq_zero.2 hmem]
    by_cases hb : b = 10
    · simp [hb]
    · simp [hb, Nat.add_assoc]

theorem placeAt_line_pos (bytes : List UInt8) (offset : Nat) : 0 < (placeAt bytes offset).1 := by
  unfold placeAt
  omega

theorem placeAt_earlier_succ (h : offset < bytes.length) :
    Earlier (placeAt bytes offset) (placeAt bytes (offset + 1)) := by
  induction bytes generalizing offset with
  | nil => cases h
  | cons b bytes ih =>
    cases offset with
    | zero =>
      rw [placeAt_cons, placeAt_zero, placeAt_zero]
      unfold Earlier shifted
      grind
    | succ offset =>
      rw [placeAt_cons, placeAt_cons]
      exact (ih (Nat.lt_of_succ_lt_succ h)).shifted b

theorem Earlier.trans (h : Earlier p q) (h' : Earlier q r) : Earlier p r := by
  unfold Earlier at *
  omega

theorem Earlier.ne (h : Earlier p q) : p ≠ q := by
  rintro rfl
  unfold Earlier at h
  omega

/-- With line ends made uniform an offset keeps its place if no carriage return comes before it, and is at a later place
otherwise. -/
theorem placeAt_normalize (h : offset ≤ (normalizeLineEnds bytes).length) :
    (13 ∉ bytes.take offset → placeAt bytes offset = placeAt (normalizeLineEnds bytes) offset) ∧
      (13 ∈ bytes.take offset → Earlier (placeAt bytes offset) (placeAt (normalizeLineEnds bytes) offset)) := by
  -- The induction follows the reading of line ends.
  fun_induction normalizeLineEnds bytes generalizing offset with
  | case1 => simp
  | case2 rest ih =>
    rcases offset with _ | _ | offset
    · simp
    · -- Between the two bytes of a line end the line has not ended yet.
      refine ⟨by simp, fun _ => .inl ?_⟩
      simp [placeAt]
    · rw [List.length_cons] at h
      have hle : offset + 1 ≤ (normalizeLineEnds rest).length := by omega
      refine ⟨by simp, fun _ => ?_⟩
      rw [placeAt_cons, placeAt_cons, placeAt_cons]
      have hline : shifted 13 (shifted 10 (placeAt rest offset)) = shifted 10 (placeAt rest offset) := by
        have := placeAt_line_pos rest offset
        unfold shifted
        grind
      rw [hline]
      refine Earlier.shifted ?_ 10
      -- One byte is lost, so the offset comes later in what is left.
      have hstep := placeAt_earlier_succ (Nat.lt_of_succ_le hle)
      obtain ⟨hsame, hearlier⟩ := ih (Nat.le_of_succ_le hle)
      by_cases hmem : 13 ∈ rest.take offset
      · exact (hearlier hmem).trans hstep
      · rw [hsame hmem]
        exact hstep
  | case3 rest _ ih =>
    cases offset with
    | zero => simp
    | succ offset =>
      rw [List.length_cons] at h
      refine ⟨by simp, fun _ => ?_⟩
      rw [placeAt_cons, placeAt_cons]
      -- The carriage return ends a line of the text, but none of the file.
      obtain ⟨hsame, hearlier⟩ := ih (Nat.le_of_succ_le_succ h)
      have hle : (placeAt rest offset).1 ≤ (placeAt (normalizeLineEnds rest) offset).1 := by
        by_cases hmem : 13 ∈ rest.take offset
        · have := hearlier hmem
          unfold Earlier at this
          omega
        · exact Nat.le_of_eq (congrArg Prod.fst (hsame hmem))
      left
      have := placeAt_line_pos rest offset
      unfold shifted
      grind
  | case4 b rest _ hb ih =>
    cases offset with
    | zero => simp
    | succ offset =>
      rw [List.length_cons] at h
      obtain ⟨hsame, hearlier⟩ := ih (Nat.le_of_succ_le_succ h)
      have hne : b ≠ 13 := fun heq => hb heq
      rw [placeAt_cons, placeAt_cons, List.take_succ_cons, List.mem_cons, or_iff_right (Ne.symm hne)]
      exact ⟨fun hmem => by rw [hsame hmem], fun hmem => (hearlier hmem).shifted b⟩

namespace LineMap

theorem lt_of_mem_startsFrom (h : start ∈ startsFrom base bytes) : base < start := by
  induction bytes generalizing base with
  | nil => cases h
  | cons b bytes ih =>
    rw [startsFrom] at h
    split at h
    · rcases List.mem_cons.1 h with rfl | h
      · exact Nat.lt_succ_self base
      · exact Nat.lt_of_succ_lt (ih h)
    · exact Nat.lt_of_succ_lt (ih h)

/-- Lines and columns in bytes that stand at an offset, where a line that began at `first` goes on. -/
theorem position_startsFrom (first base : Nat) (h : offset ≤ bytes.length) :
    let lines := (startsFrom base bytes).countP fun start : Nat => decide ((start : Int) ≤ (base + offset : Nat))
    (placeAt bytes offset).1 = 1 + lines ∧
      ((base + offset : Nat) : Int) - ((first :: startsFrom base bytes).getD lines 0 : Nat) + 1 =
        if (placeAt bytes offset).1 = 1 then (base : Int) - first + (placeAt bytes offset).2
        else (placeAt bytes offset).2 := by
  induction bytes generalizing first base offset with
  | nil =>
    obtain rfl := Nat.le_zero.1 h
    simp [startsFrom]
  | cons b bytes ih =>
    cases offset with
    | zero =>
      have hnone : (startsFrom base (b :: bytes)).countP
          (fun start : Nat => decide ((start : Int) ≤ (base + 0 : Nat))) = 0 := by
        refine List.countP_eq_zero.2 fun start hstart => ?_
        have := lt_of_mem_startsFrom hstart
        simp only [Nat.add_zero, decide_eq_true_eq]
        omega
      simp only [hnone, placeAt_zero]
      simp
    | succ offset =>
      have hadd : base + (offset + 1) = base + 1 + offset := by omega
      obtain ⟨hline, hcolumn⟩ := ih (base + 1) (base + 1) (Nat.le_of_succ_le_succ h)
      obtain ⟨_, hcolumn'⟩ := ih first (base + 1) (Nat.le_of_succ_le_succ h)
      simp only [hadd, placeAt_cons, startsFrom, shifted]
      by_cases hb : b = 10
      · -- A line begins after this byte.
        have hcount : ((base + 1) :: startsFrom (base + 1) bytes).countP
            (fun start : Nat => decide ((start : Int) ≤ (base + 1 + offset : Nat))) = (startsFrom (base + 1) bytes).countP
              (fun start : Nat => decide ((start : Int) ≤ (base + 1 + offset : Nat))) + 1 :=
          List.countP_cons_of_pos (decide_eq_true (by omega))
        simp only [if_pos hb, hcount, List.getD_cons_succ]
        refine ⟨by omega, ?_⟩
        have hmore : (placeAt bytes offset).1 + 1 ≠ 1 := by
          have := placeAt_line_pos bytes offset
          omega
        rw [hcolumn, if_neg hmore]
        split <;> omega
      · simp only [if_neg hb]
        refine ⟨by split <;> omega, ?_⟩
        rw [hcolumn']
        split
        · push_cast
          omega
        · rfl

/-- The line and column of an offset, counted in the bytes themselves. -/
theorem position_ofBytes (h : offset ≤ bytes.length) :
    (ofBytes bytes).position offset = ((placeAt bytes offset).1, ((placeAt bytes offset).2 : Int)) := by
  obtain ⟨hline, hcolumn⟩ := position_startsFrom 0 0 h
  simp only [Nat.zero_add] at hline hcolumn
  have hlineOf : (ofBytes bytes).lineOf offset = (placeAt bytes offset).1 := by
    rw [hline, ofBytes, lineOf, List.countP_cons_of_pos (by simp), Nat.add_comm]
  rw [position, hlineOf]
  refine Prod.ext rfl ?_
  dsimp only
  rw [hline, Nat.add_comm 1, startOf]
  dsimp only [ofBytes]
  rw [hcolumn]
  split <;> simp

end LineMap

theorem length_normalizeLineEnds_le (bytes : List UInt8) : (normalizeLineEnds bytes).length ≤ bytes.length := by
  fun_induction normalizeLineEnds bytes with
  | case1 => exact Nat.le_refl _
  | case2 rest ih => exact Nat.le_succ_of_le (Nat.succ_le_succ ih)
  | case3 rest _ ih => exact Nat.succ_le_succ ih
  | case4 b rest _ _ ih => exact Nat.succ_le_succ ih

/-- Problems of a file are shown in a table of their places on a line map. -/
def Command.ShowsBy (w : Workspace) (path : String) (lines : LineMap) : Prop :=
  ∀ (limit : Nat) (ds : List Diagnostic), ∃ rest, showFile w limit ds path = do
    Screen.table path problemHeader (((inOrder (ds.filter fun d => d.file == path)).take limit).map (problemRow lines))
    rest

theorem Command.showsBy_of_read (readable : w.read (Path.ofString path) = .ok f) :
    ShowsBy w path (.ofBytes f.content.toList) := by
  have hlines : lineMapOf w path = .ok (.ofBytes f.content.toList) := by rw [lineMapOf, readable]
  intro limit ds
  rw [showFile, hlines]
  exact ⟨_, rfl⟩

/-- The table of a file's problems says the right line and column of a problem exactly if no carriage return of the file
comes before it. The file is read once more for the table, and its lines are counted in its bytes: a problem at an offset
of the text that was parsed is shown at the line and column of this offset in the file. These are those in the text if
there is no carriage return before the offset, and an earlier place otherwise. -/
theorem problems_shown_in_place_unless_carriage_return {w : Workspace} {path : String} {f : File}
    (readable : w.read (Path.ofString path) = .ok f) :
    ∃ lines, Command.ShowsBy w path lines ∧ f.source = ⟨(normalizeLineEnds f.content.toList).toArray⟩ ∧
      ∀ (d : Diagnostic) (offset : Nat), d.start = offset → offset ≤ (normalizeLineEnds f.content.toList).length →
        let shown := placeAt f.content.toList offset
        let right := placeAt (normalizeLineEnds f.content.toList) offset
        Command.problemRow lines d = [toString shown.1, toString (shown.2 : Int), d.severity.text, d.kind.text, d.message] ∧
          (shown = right ↔ 13 ∉ f.content.toList.take offset) ∧ (shown ≠ right → Earlier shown right) := by
  refine ⟨.ofBytes f.content.toList, Command.showsBy_of_read readable, rfl, fun d offset hd hle => ?_⟩
  obtain ⟨hsame, hearlier⟩ := placeAt_normalize hle
  refine ⟨?_, ⟨fun heq hmem => (hearlier hmem).ne heq, hsame⟩, fun hne => ?_⟩
  · rw [Command.problemRow, hd, LineMap.position_ofBytes (hle.trans (length_normalizeLineEnds_le _))]
  · by_cases hmem : 13 ∈ f.content.toList.take offset
    · exact hearlier hmem
    · exact absurd (hsame hmem) hne

/-- A file whose second line, in the text that is parsed, starts at offset 1. -/
def pairOfEnds : Workspace := .ofFiles [("m.py", ⟨⟨#[13, 10, 121, 13, 10]⟩, .tree default⟩)] [] none

theorem pairOfEnds_read : pairOfEnds.read (Path.ofString "/w/m.py") = .ok ⟨⟨#[13, 10, 121, 13, 10]⟩, .tree default⟩ := by
  rfl

theorem problems_shown_in_place_unless_carriage_return_pairOfEnds :
    pairOfEnds.read (Path.ofString "/w/m.py") = .ok ⟨⟨#[13, 10, 121, 13, 10]⟩, .tree default⟩ ∧
    ∃ lines, Command.ShowsBy pairOfEnds "/w/m.py" lines ∧ ∀ d : Diagnostic,
      (d.start = 0 → (Command.problemRow lines d).take 2 = ["1", "1"]) ∧
      (d.start = 1 → (Command.problemRow lines d).take 2 = ["1", "2"]) := by
  obtain ⟨lines, hlines, _, hrows⟩ := problems_shown_in_place_unless_carriage_return pairOfEnds_read
  refine ⟨pairOfEnds_read, lines, hlines, fun d => ⟨fun hd => ?_, fun hd => ?_⟩⟩
  · have hplace : placeAt (ByteArray.mk #[13, 10, 121, 13, 10]).toList 0 = (1, 1) := by decide +kernel
    rw [(hrows d 0 hd (Nat.zero_le _)).1, hplace]
    rfl
  · have hplace : placeAt (ByteArray.mk #[13, 10, 121, 13, 10]).toList 1 = (1, 2) := by decide +kernel
    rw [(hrows d 1 hd (by decide +kernel)).1, hplace]
    rfl

/-- A problem is not always shown where it is: here at column 2 of line 1 instead of column 1 of line 2. -/
theorem problem_shown_in_line_before : placeAt (normalizeLineEnds [13, 10, 121, 13, 10]) 1 = (2, 1) ∧
    ((Command.lineMapOf pairOfEnds "/w/m.py").map fun lines =>
      (Command.problemRow lines ⟨"/w/m.py", 1, 2, .unboundVariable, "", .warning⟩).take 2) = .ok ["1", "2"] := by
  decide +kernel

end Concordance
