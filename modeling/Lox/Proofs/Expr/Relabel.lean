import Lox.Proofs.Expr.Phrase
import Lox.Proofs.Ids
import Lox.Proofs.Labels

/-!
# Expressions with other labels

Which line a token stands on has no part in how an expression is read, and
neither has the id from which the reader counts.  If the lines of the tokens
are changed and the ids counted from elsewhere, the same tree is read with its
labels changed in the same way.
-/

namespace Lox

/-- From `n` on the labeling changes ids to ones that are counted in the same
way. -/
def Labeling.Steps (ρ : Labeling) (n : Nat) : Prop :=
  ∀ id, n ≤ id → ρ.id (id + 1) = ρ.id id + 1

theorem Labeling.Steps.later {ρ : Labeling} {n m : Nat} (h : ρ.Steps n)
    (hle : n ≤ m) : ρ.Steps m :=
  fun id hid => h id (Nat.le_trans hle hid)

theorem Labeling.steps_lines (f : Nat → Nat) (n : Nat) :
    (Labeling.lines f).Steps n :=
  fun _ _ => rfl

namespace Expr

/-- The phrase with other labels. -/
def Phrase.relabel (ρ : Labeling) : Phrase → Phrase
  | .expr t e => .expr t (e.relabel ρ)
  | .arguments list => .arguments (list.map (Expr.relabel ρ))

theorem relabel_apply (ρ : Labeling) (op : Operator) (left right : Expr)
    (line : Nat) :
    (op.apply left line right).relabel ρ =
      op.apply (left.relabel ρ) (ρ.line line) (right.relabel ρ) := by
  cases op <;> simp only [Operator.apply, relabel]

theorem Reads.relabel {n n' : Nat} {phrase : Phrase} {w : List Token}
    (h : Reads n phrase w n') {ρ : Labeling} (hρ : ρ.Steps n) :
    Reads (ρ.id n) (phrase.relabel ρ) (w.map (Token.relabel ρ)) (ρ.id n') := by
  induction h with
  | literal h => exact .literal h
  | @name n x line =>
    rw [hρ n (Nat.le_refl n)]
    exact .name
  | @this n line =>
    rw [hρ n (Nat.le_refl n)]
    exact .this
  | @super n =>
    rw [hρ n (Nat.le_refl n)]
    exact .super
  | group inner ih =>
    simp only [List.map_cons, List.map_append, Phrase.relabel]
    exact .group (ih hρ)
  | callEmpty head ih =>
    simp only [List.map_append, Phrase.relabel, Expr.relabel]
    exact .callEmpty (ih hρ)
  | call head tail ihhead ihtail =>
    simp only [List.map_append, List.map_cons, Phrase.relabel, Expr.relabel,
      Expr.relabelAll_eq_map]
    exact .call (ihhead hρ) (ihtail (hρ.later head.fresh.le))
  | get head ih =>
    simp only [List.map_append, Phrase.relabel, Expr.relabel]
    exact .get (ih hρ)
  | one only ih => exact .one (ih hρ)
  | more earlier room last ihearlier ihlast =>
    simp only [List.map_append, List.map_cons, Phrase.relabel]
    exact .more (ihearlier hρ) (by rw [List.length_map]; exact room)
      (ihlast (hρ.later earlier.fresh.le))
  | operand inner ih => exact .operand (ih hρ)
  | unary h inner ih =>
    simp only [List.map_cons, Phrase.relabel, Expr.relabel]
    exact .unary h (ih hρ)
  | level inner ih => exact .level (ih hρ)
  | operator first h second ihfirst ihsecond =>
    simp only [List.map_append, List.map_cons, Phrase.relabel, relabel_apply]
    exact .operator (ihfirst hρ) h (ihsecond (hρ.later first.fresh.le))
  | assignment inner ih => exact .assignment (ih hρ)
  | @assign n x line l value w n' inner ih =>
    have hle : n + 1 ≤ n' := inner.fresh.le
    have hinner := ih (hρ.later (Nat.le_succ n))
    rw [hρ n (Nat.le_refl n)] at hinner
    rw [hρ n' (by omega)]
    simp only [List.map_cons, Phrase.relabel, Expr.relabel]
    exact .assign hinner
  | set head inner ihhead ihinner =>
    simp only [List.map_append, List.map_cons, Phrase.relabel, Expr.relabel]
    exact .set (ihhead hρ) (ihinner (hρ.later head.fresh.le))

end Expr

end Lox
