import Concordance.Proofs.Syntax.Region

/-!
# The text of expressions and statements

Names and expressions take up text, from one offset of the file to another one.
-/

namespace Concordance.Syntax

/-- The targets of a statement with the values that they are bound to. -/
def Stmt.assignments : Stmt → List (Expr × Expr)
  | .assign targets value => targets.map fun target => (target, value)
  | .declare target _ value => value.toList.map fun value => (target, value)
  | .withBlock contexts _ => contexts.flatMap fun c => c.target.toList.map fun target => (target, c.value)
  | _ => []

/-- A target, with some of the stars in front of it taken off. -/
inductive Unstarred (target : Expr) : Expr → Prop
  | self : Unstarred target target
  | strip {span : Option Span} {e : Expr} (outer : Unstarred target (.starred span e)) : Unstarred target e

/-- From one offset to the other there is the text of an expression, or of a name. -/
def ExprText (body : List Stmt) (start stop : Int) : Prop :=
  ∃ region e span, (region, Piece.expr e) ∈ piecesOf body ∧ e.span = some span ∧ start = span.start ∧ stop = span.stop

/-- The spans of a pattern and of the value that a statement binds it to. -/
inductive Pairs (body : List Stmt) (stmt : Stmt) : Span → Span → Prop
  | mk {region : Region} {target pattern value : Expr} {p v : Span} (mem : (region, .stmt stmt) ∈ piecesOf body)
      (pair : (target, value) ∈ stmt.assignments) (unstarred : Unstarred target pattern) (left : pattern.span = some p)
      (right : value.span = some v) : Pairs body stmt p v

section Parts

variable {stmt : Stmt}

theorem Stmt.parts_of_assignments (pair : (target, value) ∈ stmt.assignments) :
    (none, .expr target) ∈ stmt.parts ∧ (none, .expr value) ∈ stmt.parts := by
  cases stmt with
  | assign targets v =>
    obtain ⟨t, ht, heq⟩ := List.mem_map.1 pair
    cases heq
    exact ⟨Part.mem_exprs.2 (List.mem_append_left _ ht), Part.mem_exprs.2 (by simp)⟩
  | declare t hint v =>
    obtain ⟨w, hw, heq⟩ := List.mem_map.1 pair
    cases heq
    exact ⟨Part.mem_exprs.2 (by simp), Part.mem_exprs.2 (by simpa using .inr (.inr (Option.mem_toList.1 hw)))⟩
  | withBlock contexts b =>
    obtain ⟨c, hc, hpair⟩ := List.mem_flatMap.1 pair
    obtain ⟨t, ht, heq⟩ := List.mem_map.1 hpair
    cases heq
    have hmem : ∀ e ∈ c.value :: c.target.toList, (none, .expr e) ∈ (Stmt.withBlock contexts b).parts :=
      fun e he => List.mem_append_left _ (Part.mem_exprs.2 (List.mem_flatMap.2 ⟨c, hc, he⟩))
    exact ⟨hmem _ (.tail _ ht), hmem _ (.head _)⟩
  | _ => cases pair

theorem Unstarred.mem (hu : Unstarred target pattern) (mem : (region, .expr target) ∈ piecesOf body) :
    (region, .expr pattern) ∈ piecesOf body := by
  induction hu with
  | self => exact mem
  | strip _ ih => exact piecesOf_closed ih (List.mem_singleton.2 rfl)

end Parts

def Piece.span? : Piece → Option Span
  | .expr e => e.span
  | _ => none

/-- A located tree all of whose expressions, as far as they are located, lie inside it. -/
def Module.WellPlaced (tree : Module) : Prop :=
  ∃ whole ∈ tree.span, ∀ x ∈ piecesOf tree.body, ∀ span ∈ x.2.span?,
    whole.start ≤ span.start ∧ span.start ≤ span.stop ∧ span.stop ≤ whole.stop

instance (tree : Module) : Decidable tree.WellPlaced := inferInstanceAs (Decidable (∃ whole ∈ tree.span, _))

def Module.Spans (tree : Module) (start stop : Int) : Prop :=
  ∃ whole ∈ tree.span, whole.start ≤ start ∧ start ≤ whole.stop ∧ whole.start ≤ stop ∧ stop ≤ whole.stop

def Stmt.isWith : Stmt → Bool
  | .withBlock .. => true
  | _ => false

/-- Values do not end before the patterns start that they are assigned to. -/
def Module.Forward (tree : Module) : Prop :=
  ∀ stmt p v, Pairs tree.body stmt p v → stmt.isWith = false → p.start ≤ v.stop

variable {tree : Module}

theorem Module.WellPlaced.spans_of_exprText (hp : tree.WellPlaced) (ht : ExprText tree.body start stop) :
    tree.Spans start stop ∧ start ≤ stop := by
  obtain ⟨whole, hwhole, hinside⟩ := hp
  obtain ⟨region, e, span, mem, located, rfl, rfl⟩ := ht
  obtain ⟨hstart, hle, hstop⟩ := hinside _ mem span located
  exact ⟨⟨whole, hwhole, by omega⟩, by omega⟩

theorem Module.WellPlaced.spans_of_pairs (hp : tree.WellPlaced) (hu : Pairs tree.body stmt p v) :
    tree.Spans p.start v.stop := by
  obtain ⟨whole, hwhole, hinside⟩ := hp
  cases hu with
  | @mk region target pattern value p v mem pair unstarred left right =>
    obtain ⟨htarget, hvalue⟩ := Stmt.parts_of_assignments pair
    have hpattern := unstarred.mem (piecesOf_closed mem htarget)
    obtain ⟨hstart, hle, hstop⟩ := hinside _ hpattern p left
    obtain ⟨hstart', hle', hstop'⟩ := hinside _ (piecesOf_closed mem hvalue) v right
    exact ⟨whole, hwhole, by omega⟩

end Concordance.Syntax
