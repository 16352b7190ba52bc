import Mathlib.Logic.Relation
import Concordance.Graph.Printing
import Concordance.Proofs.Heap.Change

/-!
# Printing on cyclic type graphs

`Heap.Prints` are the rules by which types are printed: what is shown inside a type is printed in turn, except a type
that is being printed further up, for which a placeholder stands. The rules know no bound.
-/

namespace Concordance

namespace Heap

open Relation (ReflTransGen TransGen)

variable {h : Heap}

/-- The types that are shown inside a type. -/
def shown (h : Heap) (t : TypeId) : List TypeId :=
  match h.ty t with
  | .list e _ => [e]
  | .tuple es => es
  | .dict k v => [k, v]
  | .function f _ =>
    if (h.function f).native.isSome then [(h.function f).returns]
    else (h.function f).arrows.flatMap fun a => [a.1, a.2]
  | .union ms => ms
  | _ => []

def Shows (h : Heap) (t c : TypeId) : Prop := c ∈ h.shown t

def LeadsToCycle (h : Heap) (t : TypeId) : Prop := ∃ c, ReflTransGen h.Shows t c ∧ TransGen h.Shows c c

theorem LeadsToCycle.of_shows (hc : h.Shows t c) (hcycle : h.LeadsToCycle c) : h.LeadsToCycle t :=
  hcycle.imp fun _ hd => ⟨.head hc hd.1, hd.2⟩

theorem mem_intercalate {α : Type} {x : α} {sep : List α} {xss : List (List α)} (hx : x ∉ sep) :
    x ∈ sep.intercalate xss ↔ ∃ xs ∈ xss, x ∈ xs := by
  induction xss with
  | nil => simp [List.intercalate]
  | cons xs rest ih =>
    cases rest with
    | nil => simp [List.intercalate]
    | cons ys rest =>
      rw [List.intercalate_cons_cons]
      simp [hx, ih]

theorem mem_alternatives : .type c ∈ alternatives texts ↔ ∃ ps ∈ texts, .type c ∈ ps := by
  simp [alternatives, mem_intercalate]

theorem mem_layout : .type c ∈ h.layout t ↔ h.Shows t c := by
  unfold layout Shows shown
  cases h.ty t with
  | tuple es => rcases es with _ | ⟨e, _ | ⟨e', es⟩⟩ <;> simp [mem_intercalate]
  | function f r =>
    dsimp only
    split
    · simp
    · rcases (h.function f).arrows with _ | ⟨a, _ | ⟨b, rest⟩⟩ <;> simp [mem_alternatives, or_assoc]
  | union ms => simp [mem_alternatives]
  | _ => simp

theorem has_of_shows (hc : h.Shows t c) : t.index < h.types.size := by
  refine lt_size_of_getD_ne (d := Ty.unknown) fun heq => ?_
  rw [Shows, shown, ty, heq] at hc
  cases hc

/-- The rules of printing. What comes out is a row of texts, in which `none` stands for a placeholder; `above` are the types
that are being printed. -/
inductive Prints (h : Heap) : List TypeId → List Piece → List (Option String) → Prop
  | done {above : List TypeId} : h.Prints above [] []
  | words {above : List TypeId} {w : String} {ps : List Piece} {out : List (Option String)} (rest : h.Prints above ps out) :
      h.Prints above (.words w :: ps) (some w :: out)
  | again {above : List TypeId} {t : TypeId} {ps : List Piece} {out : List (Option String)} (old : t ∈ above)
      (rest : h.Prints above ps out) : h.Prints above (.type t :: ps) (none :: out)
  | enter {above : List TypeId} {t : TypeId} {ps : List Piece} {inner out : List (Option String)} (new : t ∉ above)
      (inside : h.Prints (t :: above) (h.layout t) inner) (rest : h.Prints above ps out) :
      h.Prints above (.type t :: ps) (inner ++ out)

def textOf (out : List (Option String)) : String := String.join (out.map (·.getD cyclePlaceholder))

/-- The plain text of some pieces: every type that is shown is written out. -/
inductive Plain (h : Heap) : List Piece → String → Prop
  | done : h.Plain [] ""
  | words {w : String} {ps : List Piece} {s : String} (rest : h.Plain ps s) : h.Plain (.words w :: ps) (w ++ s)
  | type {t : TypeId} {ps : List Piece} {inner s : String} (inside : h.Plain (h.layout t) inner) (rest : h.Plain ps s) :
      h.Plain (.type t :: ps) (inner ++ s)

theorem Plain.unique (hp : h.Plain ps s) (hp' : h.Plain ps s') : s = s' := by
  induction hp generalizing s' with
  | done => cases hp'; rfl
  | words _ ih =>
    cases hp' with
    | words rest => rw [ih rest]
  | type _ _ ihi ihr =>
    cases hp' with
    | type inside rest => rw [ihi inside, ihr rest]

namespace Prints

section

variable (hp : h.Prints above ps out)
include hp

theorem unique (hp' : h.Prints above ps out') : out = out' := by
  induction hp generalizing out' with
  | done => cases hp'; rfl
  | words _ ih =>
    cases hp' with
    | words rest => rw [ih rest]
  | again old _ ih =>
    cases hp' with
    | again _ rest => rw [ih rest]
    | enter new _ _ => exact absurd old new
  | enter new _ _ ihi ihr =>
    cases hp' with
    | again old _ => exact absurd old new
    | enter _ inside rest => rw [ihi inside, ihr rest]

/-- The types above one that is printed lead to it, so a placeholder closes a cycle. -/
theorem leadsToCycle (habove : ∀ a ∈ above, ∀ t, .type t ∈ ps → TransGen h.Shows a t)
    (hout : none ∈ out) : ∃ t, .type t ∈ ps ∧ h.LeadsToCycle t := by
  induction hp with
  | done => cases hout
  | words _ ih =>
    obtain ⟨t, ht, hcycle⟩ := ih (fun a ha t ht => habove a ha t (.tail _ ht)) (by simpa using hout)
    exact ⟨t, .tail _ ht, hcycle⟩
  | @again above t ps out old _ _ => exact ⟨t, .head _, t, .refl, habove t old t (.head _)⟩
  | @enter above t ps inner out new _ _ ihi ihr =>
    rcases List.mem_append.1 hout with hout | hout
    · have hinside : ∀ a ∈ t :: above, ∀ c, .type c ∈ h.layout t → TransGen h.Shows a c := by
        intro a ha c hc
        rcases List.mem_cons.1 ha with rfl | ha
        · exact .single (mem_layout.1 hc)
        · exact (habove a ha t (.head _)).tail (mem_layout.1 hc)
      obtain ⟨c, hc, hcycle⟩ := ihi hinside hout
      exact ⟨t, .head _, hcycle.of_shows (mem_layout.1 hc)⟩
    · obtain ⟨c, hc, hcycle⟩ := ihr (fun a ha c hc => habove a ha c (.tail _ hc)) hout
      exact ⟨c, .tail _ hc, hcycle⟩

/-- Without a placeholder everything that is shown has been printed, and none of it is above itself. -/
theorem acyclic (hout : none ∉ out) (ht : .type t ∈ ps) (hc : ReflTransGen h.Shows t c) :
    c ∉ above ∧ ¬ TransGen h.Shows c c := by
  induction hp generalizing t c with
  | done => cases ht
  | words _ ih =>
    exact ih (fun hnone => hout (.tail _ hnone)) (by simpa using ht) hc
  | again => exact absurd (.head _) hout
  | @enter above u ps inner out new _ _ ihi ihr =>
    rw [List.mem_append, not_or] at hout
    rcases List.mem_cons.1 ht with heq | ht
    · cases heq
      have hinside : ∀ {d}, TransGen h.Shows u d → d ∉ u :: above ∧ ¬ TransGen h.Shows d d := by
        intro d hd
        obtain ⟨e, he, hed⟩ := Relation.TransGen.head'_iff.1 hd
        exact ihi hout.1 (mem_layout.2 he) hed
      rcases Relation.reflTransGen_iff_eq_or_transGen.1 hc with rfl | hc
      · exact ⟨new, fun hcycle => (hinside hcycle).1 (.head _)⟩
      · exact ⟨fun hmem => (hinside hc).1 (.tail _ hmem), (hinside hc).2⟩
    · exact ihr hout.2 ht hc

theorem plain (hout : none ∉ out) : h.Plain ps (textOf out) := by
  induction hp with
  | done => exact .done
  | words _ ih =>
    have := ih fun hnone => hout (.tail _ hnone)
    simpa [textOf] using Plain.words this
  | again => exact absurd (.head _) hout
  | enter _ _ _ ihi ihr =>
    rw [List.mem_append, not_or] at hout
    simpa [textOf] using Plain.type (ihi hout.1) (ihr hout.2)

end

end Prints

section Steps

def unprinted (h : Heap) (above : List TypeId) : Nat := unmet h.types.size TypeId.mk above

theorem unprinted_lt (new : t ∉ above) (hc : h.Shows t c) : h.unprinted (t :: above) < h.unprinted above :=
  unmet_cons_lt (has_of_shows hc) new

theorem exists_prints_of_inside
    (hinside : ∀ t, .type t ∈ ps → t ∉ above → ∃ inner, h.Prints (t :: above) (h.layout t) inner) :
    ∃ out, h.Prints above ps out := by
  induction ps with
  | nil => exact ⟨[], .done⟩
  | cons p ps ih =>
    obtain ⟨out, hout⟩ := ih fun t ht => hinside t (.tail _ ht)
    cases p with
    | words w => exact ⟨_, .words hout⟩
    | type t =>
      by_cases ht : t ∈ above
      · exact ⟨_, .again ht hout⟩
      · obtain ⟨inner, hinner⟩ := hinside t (.head _) ht
        exact ⟨_, .enter ht hinner hout⟩

theorem exists_prints (h : Heap) (above : List TypeId) (ps : List Piece) : ∃ out, h.Prints above ps out := by
  induction hn : h.unprinted above using Nat.strongRecOn generalizing above ps with
  | ind n ih =>
    subst hn
    -- Only a type that shows another one has to exist, so the count goes down with the second type that is entered.
    refine exists_prints_of_inside fun t _ ht => exists_prints_of_inside fun c hc _ => ?_
    have hlt := unprinted_lt ht (mem_layout.1 hc)
    exact ih _ ((unmet_append_le [c]).trans_lt hlt) _ _ rfl

theorem Prints.printIn (hp : h.Prints above ps out) (hf : ∀ t, .type t ∈ ps → h.unprinted above < fuel) :
    String.join (ps.map (Piece.fill (h.printIn fuel above))) = textOf out := by
  induction hp generalizing fuel with
  | done => rfl
  | words _ ih =>
    have hrest := ih fun t ht => hf t (.tail _ ht)
    simpa [textOf, Piece.fill] using hrest
  | @again above t ps out old _ ih =>
    obtain ⟨fuel, rfl⟩ := Nat.exists_eq_succ_of_ne_zero (Nat.ne_zero_of_lt (hf t (.head _)))
    have hrest := ih fun t ht => hf t (.tail _ ht)
    simpa [textOf, Piece.fill, Heap.printIn, old] using hrest
  | @enter above t ps inner out new _ _ ihi ihr =>
    obtain ⟨fuel, rfl⟩ := Nat.exists_eq_succ_of_ne_zero (Nat.ne_zero_of_lt (hf t (.head _)))
    have hrest := ihr fun t ht => hf t (.tail _ ht)
    have hinside := ihi fun c hc => (unprinted_lt new (mem_layout.1 hc)).trans_le
      (Nat.le_of_lt_succ (hf t (.head _)))
    have ht : (Piece.type t).fill (h.printIn (fuel + 1) above) = textOf inner := by
      rw [Piece.fill, Heap.printIn, if_neg new, hinside]
    rw [List.map_cons, String.join_cons, ht, hrest]
    simp [textOf]

theorem Prints.print (hp : h.Prints [] [.type t] out) : h.print t = textOf out := by
  have hprint := hp.printIn fun _ _ => unmet_le.trans_lt (Nat.lt_succ_self h.types.size)
  simpa [Piece.fill, Heap.print] using hprint

end Steps

end Heap

open Relation Heap in
/-- Printing a type ends, with one outcome by the rules. A placeholder stands in it if and only if the type leads to a
cycle, and the text of a type that leads to none is its plain one. Wherever such a type is shown, below any types that
lead to it and however often, it is printed in full. -/
theorem print_exact_on_cycles (h : Heap) (t : TypeId) :
    ∃ out, (∀ out', h.Prints [] [.type t] out' ↔ out' = out) ∧ h.print t = textOf out ∧
      (none ∈ out ↔ h.LeadsToCycle t) ∧
      (¬ h.LeadsToCycle t → ∀ s, h.Plain [.type t] s ↔ s = h.print t) ∧
      ∀ above c, (∀ a ∈ above, TransGen h.Shows a c) → ¬ h.LeadsToCycle c →
        ∃ shown, h.Prints above [.type c] shown ∧ h.Plain [.type c] (textOf shown) := by
  have hplain : ∀ {above c shown}, h.Prints above [.type c] shown → (∀ a ∈ above, TransGen h.Shows a c) →
      ¬ h.LeadsToCycle c → h.Plain [.type c] (textOf shown) := by
    intro above c shown hp habove hcycle
    refine hp.plain fun hnone => ?_
    obtain ⟨u, hu, hleads⟩ := hp.leadsToCycle (fun a ha u hu => by simp_all) hnone
    simp_all
  obtain ⟨out, hp⟩ := h.exists_prints [] [.type t]
  refine ⟨out, fun out' => ⟨fun hp' => hp'.unique hp, fun heq => heq ▸ hp⟩, hp.print, ⟨fun hnone => ?_, ?_⟩,
    fun hcycle s => ?_, fun above c habove hcycle => ?_⟩
  · obtain ⟨u, hu, hleads⟩ := hp.leadsToCycle (by simp) hnone
    simp_all
  · rintro ⟨c, hc, hcycle⟩
    by_contra hnone
    exact (hp.acyclic hnone (List.mem_singleton.2 rfl) hc).2 hcycle
  · have htext := hplain hp (by simp) hcycle
    rw [hp.print]
    exact ⟨fun hs => hs.unique htext, fun heq => heq ▸ htext⟩
  · obtain ⟨shown, hshown⟩ := h.exists_prints above [.type c]
    exact ⟨shown, hshown, hplain hshown habove hcycle⟩

/-- A list that holds itself, and a tuple that holds it after one list twice: only the first has a placeholder. -/
example : ({ types := Heap.initial.types ++ #[.tuple [⟨10⟩, ⟨10⟩, ⟨11⟩], .list .int none, .list ⟨11⟩ none] } : Heap).print ⟨9⟩ =
    "([int], [int], [...])" := by decide +kernel

end Concordance
