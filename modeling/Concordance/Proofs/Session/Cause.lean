import Concordance.Proofs.Session.Run
import Concordance.Proofs.Workspace

/-!
# Causes of faults

What an environment can do to end an evaluation early.
-/

namespace Concordance

variable {p : Path} {path : String}

section NullCharacters

def Text.NullFree (text : String) : Prop := Char.ofNat 0 ∉ text.toList

open Text (NullFree)

theorem Text.mem_of_mem_split (hp : piece ∈ split sep cs) (hc : c ∈ piece) : c ∈ cs := by
  rw [← intercalate_split sep cs]
  generalize split sep cs = pieces at hp
  induction pieces with
  | nil => cases hp
  | cons p ps ih =>
    cases ps with
    | nil =>
      obtain rfl := List.mem_singleton.1 hp
      simpa using hc
    | cons q qs =>
      rw [List.intercalate_cons_cons]
      rcases List.mem_cons.1 hp with rfl | hp
      · exact List.mem_append_left _ (List.mem_append_left _ hc)
      · exact List.mem_append_right _ (ih hp)

namespace Path

theorem hasNull_eq_false : p.hasNull = false ↔ ∀ part ∈ p.parts, NullFree part := by
  simp [hasNull, NullFree]

theorem nullFree_of_mem_ofString (ht : NullFree text) (hp : part ∈ (ofString text).parts) : NullFree part := by
  obtain ⟨piece, hpiece, rfl⟩ := List.mem_map.1 (List.mem_filter.1 hp).1
  rw [NullFree, String.toList_ofList]
  exact fun hc => ht (Text.mem_of_mem_split hpiece hc)

theorem nullFree_toString (hroot : NullFree p.root) (hp : p.hasNull = false) : NullFree p.toString := by
  have hparts := hasNull_eq_false.1 hp
  unfold toString
  split
  · rw [NullFree]
    decide
  · rw [NullFree, String.toList_append, String.toList_intercalate, List.mem_append, not_or]
    refine ⟨hroot, fun hc => ?_⟩
    generalize p.parts = parts at hparts hc
    induction parts with
    | nil => cases hc
    | cons q qs ih =>
      cases qs with
      | nil => exact hparts q (List.mem_singleton.2 rfl) (by simpa using hc)
      | cons r rs =>
        simp only [List.map_cons, List.intercalate_cons_cons, List.mem_append] at hc
        rcases hc with (hc | hc) | hc
        · exact hparts q (.head _) hc
        · exact absurd hc (by decide)
        · exact ih (fun x hx => hparts x (.tail _ hx)) hc

theorem nullFree_root (text : String) : NullFree (ofString text).root := by
  show NullFree (rootOf _)
  unfold rootOf
  rw [NullFree]
  split
  · decide
  · split <;> decide

theorem nullFree_join_root (hp : NullFree p.root) (hq : NullFree q.root) : NullFree (p.join q).root := by
  unfold join
  split
  · exact hq
  · exact hp

theorem hasNull_child (hp : p.hasNull = false) {name : String}
    (hname : name.toList.contains (Char.ofNat 0) = false) : (p.child name).hasNull = false := by
  rw [hasNull, child, List.any_append, List.any_cons, List.any_nil, Bool.or_false, hname, Bool.or_false]
  exact hp

end Path

namespace Workspace

variable {w : Workspace}

theorem exists_canonical (hhere : w.here.hasNull = false) (hp : NullFree path) :
    ∃ q, w.canonical path = .ok q := by
  have hnull : (Path.canonical w.here (Path.ofString path)).hasNull = false := by
    rw [Path.hasNull_eq_false]
    intro part hpart
    rcases Path.mem_foldl_step hpart with hpart | ⟨hpart, _⟩
    · cases hpart
    rw [Path.join] at hpart
    split at hpart
    · exact Path.nullFree_of_mem_ofString hp hpart
    · rcases List.mem_append.1 hpart with hpart | hpart
      · exact Path.hasNull_eq_false.1 hhere part hpart
      · exact Path.nullFree_of_mem_ofString hp hpart
  exact ⟨_, if_neg (Bool.eq_false_iff.1 hnull)⟩

theorem nullFree_of_canonical (hq : w.canonical path = .ok q) : NullFree q.toString := by
  simp only [canonical] at hq
  split at hq
  · cases hq
  · cases hq
    rename_i hno
    have hroot : NullFree "/" := by
      rw [NullFree]
      decide
    exact Path.nullFree_toString hroot (Bool.eq_false_iff.2 hno)

theorem nullFree_of_isFile (hroot : NullFree p.root) (hp : w.isFile p = true) : NullFree p.toString := by
  refine Path.nullFree_toString hroot ?_
  unfold isFile lookup at hp
  by_cases hnull : p.hasNull = true
  · simp [hnull] at hp
  · exact Bool.eq_false_iff.2 hnull

end Workspace

theorem nullFree_directoryOf (hp : NullFree path) : NullFree (directoryOf path) := by
  have hhead : Char.ofNat 0 ∉ (path.toList.reverse.dropWhile (· != '/')).reverse :=
    fun hc => hp (List.mem_reverse.1 ((List.dropWhile_sublist _).subset (List.mem_reverse.1 hc)))
  rw [NullFree]
  unfold directoryOf
  dsimp only
  split
  · rwa [String.toList_ofList]
  · rw [String.toList_ofList]
    exact fun hc => hhead (List.mem_reverse.1 ((List.dropWhile_sublist _).subset (List.mem_reverse.1 hc)))

end NullCharacters

section Markup

namespace Text.Markup

theorem plain_of_mem_piecesFrom {fuel : Nat} {done cs : List Char} (hcs : '[' ∉ cs) {p : Piece}
    (hp : p ∈ piecesFrom fuel done cs) : ∃ text, p = .plain text := by
  -- What follows the backslashes is part of the text.
  have hspan : ∀ {cs slashes after : List Char}, cs.span (· == '\\') = (slashes, after) → '[' ∉ cs → '[' ∉ after := by
    intro cs slashes after heq hno hmem
    rw [List.span_eq_takeWhile_dropWhile, Prod.mk.injEq] at heq
    exact hno ((List.dropWhile_sublist _).subset (heq.2 ▸ hmem))
  fun_induction piecesFrom fuel done cs with
  | case1 | case2 => exact ⟨_, List.mem_singleton.1 hp⟩
  | case3 fuel done c rest slashes inside body left _ heq => exact absurd (.head _) (hspan heq hcs)
  | case4 fuel done c rest slashes inside _ heq => exact absurd (.head _) (hspan heq hcs)
  | case5 fuel done c rest slashes after heq _ _ ih => exact ih (fun h => hcs (.tail _ h)) hp
  | case6 fuel done c rest slashes after heq _ _ ih => exact ih (hspan heq hcs) hp

theorem exists_showPieces (styles : List String) (hps : ∀ p ∈ ps, ∃ text, p = .plain text) :
    ∃ shown, showPieces styles ps = some shown := by
  induction ps with
  | nil => exact ⟨[], rfl⟩
  | cons p ps ih =>
    obtain ⟨text, rfl⟩ := hps p (.head _)
    obtain ⟨shown, hshown⟩ := ih fun q hq => hps q (.tail _ hq)
    exact ⟨_, by rw [showPieces, hshown, Option.map_some]⟩

theorem exists_render {text : String} (ht : '[' ∉ text.toList) : ∃ shown, render? text = some shown := by
  have hplain : ∀ p ∈ pieces text.toList, ∃ shown, p = .plain shown := fun p hp => plain_of_mem_piecesFrom ht hp
  obtain ⟨shown, hshown⟩ := exists_showPieces [] hplain
  exact ⟨_, by rw [render?, hshown, Option.map_some]⟩

end Text.Markup

theorem LogEntry.exists_lines (level : Level) {text : String} (ht : '[' ∉ text.toList) :
    ∃ lines, (signed level text).lines? = some lines := by
  have hsigned : '[' ∉ (level.sign ++ text).toList := by
    rw [String.toList_append, List.mem_append, not_or]
    refine ⟨?_, ht⟩
    cases level <;> decide
  obtain ⟨shown, hshown⟩ := Text.Markup.exists_render hsigned
  exact ⟨_, by rw [lines?, signed, hshown, Option.map_some]⟩

end Markup

def ParseFailure.warning (f : ParseFailure) : String :=
  "Failed to parse [path]" ++ f.path ++ "[/path]: " ++ f.describe

open Text (NullFree)

namespace Environment

/-- A failure that is recorded of a file of the workspace. -/
inductive Fails (env : Environment) : ParseFailure → Prop
  /-- The file is no text or has no tree, or the parser is made to lack a resource. -/
  | read {path : String} {c c' : UnitCache} {f : ParseFailure}
      (found : env.workspace.isFile (Path.ofString path) = true)
      (failed : (UnitCache.read env.shortage env.workspace path).run.run c = (.ok (.error f), c')) : Fails env f
  | memory {path : String} (found : env.workspace.isFile (Path.ofString path) = true)
      (short : env.injection = some ⟨.resolving, .memory⟩) : Fails env (.memory path)

/-- What can end an evaluation with a fault. -/
inductive Causes (env : Environment) : Fault → Prop
  | invalidTree {path : Path} {file : File} (found : env.workspace.read path = .ok file)
      (invalid : file.outcome = .invalid) : Causes env .invalidTree
  | exhausted {r : Resource} (short : env.injection = some ⟨.resolving, r⟩) : Causes env (.exhausted r)
  | warning {f : ParseFailure} (failed : env.Fails f) (shown : env.shownLevel.isShown .warning = true)
      (wrong : (LogEntry.signed .warning f.warning).lines? = none) : Causes env .badMarkup
  | trace {text : String} (shown : env.shownLevel.isShown .debug = true)
      (wrong : (LogEntry.signed .debug text).lines? = none) : Causes env .badMarkup
  | nullCharacter (null : env.workspace.here.hasNull = true) : Causes env .nullCharacter

theorem causes_of_canonical {env : Environment} (hp : NullFree path)
    (hf : env.workspace.canonical path = .error f) : env.Causes f := by
  by_cases hhere : env.workspace.here.hasNull = true
  · simp only [Workspace.canonical] at hf
    split at hf <;> cases hf
    exact .nullCharacter hhere
  · obtain ⟨q, hq⟩ := Workspace.exists_canonical (Bool.eq_false_iff.2 hhere) hp
    cases hf.symm.trans hq

theorem Causes.ne_outOfFuel {env : Environment} (hf : env.Causes f) : f ≠ .outOfFuel := by
  rintro rfl
  cases hf

end Environment

end Concordance
