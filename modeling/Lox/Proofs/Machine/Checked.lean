import Lox.Proofs.Indexed.Expr
import Lox.Proofs.Machine.Balance

/-!
# Runs that check themselves

Two things could go wrong in a step of the machine that are no failures of
the program.  An operator is applied by looking at its token, and a token may be
none that the operation is defined for.  And the depth is a counter that cannot
go below zero.  `checkedStep` does a step with both checks, and gives `none`
where one of them does not hold.

The parser puts a token into an expression only if the check holds for it
(`applyUnary_eq_none_iff`, `applyBinary_eq_none_iff`).  The depth counts the
calls on the stack, so that it is above zero where a call ends.  So no check
fails in a run from a balanced machine (`checkedRunAlong_eq`).
-/

namespace Lox.Machine

open Lox.Indexed (binaryOp?)

/-! ## Operators by their tokens -/

/-- Applies the unary operator that a token writes. -/
def applyUnary (operator : Token) (right : Value) :
    Option (Except Failure Value) :=
  match operator.kind with
  | .symbol .minus =>
    match right with
    | .number n => some (.ok (.number (-n)))
    | _ => some (.error (.operandNotNumber operator.lexeme operator.line))
  | .symbol .bang => some (.ok (.bool (!right.truthy)))
  | _ => none

/-- Applies an operator that wants two numbers to two numbers. -/
def applyNumeric (kind : Token.Kind) (a b : Float) : Option Value :=
  match kind with
  | .symbol .minus => some (.number (a - b))
  | .symbol .star => some (.number (a * b))
  | .symbol .slash => some (.number (a / b))
  | .symbol .greater => some (.bool (b < a))
  | .symbol .greaterEqual => some (.bool (b ≤ a))
  | .symbol .less => some (.bool (a < b))
  | .symbol .lessEqual => some (.bool (a ≤ b))
  | _ => none

/-- Applies the binary operator that a token writes.  That the operands are
numbers is looked at before the token. -/
def applyBinary (operator : Token) (left right : Value) :
    Option (Except Failure Value) :=
  match operator.kind with
  | .symbol .equalEqual => some (.ok (.bool (left.equal right)))
  | .symbol .bangEqual => some (.ok (.bool (!left.equal right)))
  | .symbol .plus =>
    match left, right with
    | .number a, .number b => some (.ok (.number (a + b)))
    | .string a, .string b => some (.ok (.string (a ++ b)))
    | _, _ =>
      some (.error (.operandsNotNumbersOrStrings operator.lexeme operator.line))
  | kind =>
    match left, right with
    | .number a, .number b => (applyNumeric kind a b).map .ok
    | _, _ => some (.error (.operandsNotNumbers operator.lexeme operator.line))

theorem applyUnary_symbol (op : UnaryOp) (line : Nat) (v : Value) :
    applyUnary ⟨.symbol op.symbol, line⟩ v = some (op.apply line v) := by
  cases op with
  | not => rfl
  | negate => cases v <;> rfl

theorem applyBinary_symbol (op : BinaryOp) (line : Nat) (left right : Value) :
    applyBinary ⟨.symbol op.symbol, line⟩ left right =
      some (op.apply line left right) := by
  cases op with
  | equal | notEqual => rfl
  | _ => cases left <;> cases right <;> rfl

/-- The token of a unary operator is the one that it was read from. -/
theorem unaryOp?_eq_some_iff {kind : Token.Kind} {op : UnaryOp} :
    Expr.unaryOp? kind = some op ↔ kind = .symbol op.symbol := by
  constructor
  · intro h
    cases kind with
    | symbol s => cases s <;> cases h <;> rfl
    | _ => cases h
  · rintro rfl
    cases op <;> rfl

/-- The token of a binary operator is the one that it was read from. -/
theorem binaryOp?_eq_some_iff {kind : Token.Kind} {op : BinaryOp} :
    binaryOp? kind = some op ↔ kind = .symbol op.symbol := by
  constructor
  · intro h
    cases kind with
    | symbol s => cases s <;> cases h <;> rfl
    | keyword k => cases k <;> cases h
    | _ => cases h
  · rintro rfl
    cases op <;> rfl

/-- A token can be applied to an operand exactly if it is read as a unary
operator. -/
theorem applyUnary_eq_none_iff (t : Token) (v : Value) :
    applyUnary t v = none ↔ Expr.unaryOp? t.kind = none := by
  obtain ⟨kind, line⟩ := t
  constructor
  · intro hnone
    cases hop : Expr.unaryOp? kind with
    | none => rfl
    | some op =>
      rw [unaryOp?_eq_some_iff.1 hop, applyUnary_symbol] at hnone
      cases hnone
  · intro hop
    cases kind with
    | symbol s => cases s <;> first | rfl | cases hop
    | _ => rfl

/-- A token can be applied to any two operands exactly if it is read as a binary
operator: no other token can be applied to two numbers. -/
theorem applyBinary_eq_none_iff (t : Token) :
    (∃ left right, applyBinary t left right = none) ↔ binaryOp? t.kind = none := by
  obtain ⟨kind, line⟩ := t
  constructor
  · rintro ⟨left, right, hnone⟩
    cases hop : binaryOp? kind with
    | none => rfl
    | some op =>
      rw [binaryOp?_eq_some_iff.1 hop, applyBinary_symbol] at hnone
      cases hnone
  · intro hop
    refine ⟨.number 0, .number 0, ?_⟩
    cases kind with
    | symbol s => cases s <;> first | rfl | cases hop
    | _ => rfl

/-! ## Checked steps -/

/-- One less, if that is possible. -/
def decrement : Nat → Option Nat
  | 0 => none
  | n + 1 => some n

/-- One step with its checks. -/
def checkedStep (set : Setting) (m : Machine) : Option Machine :=
  match m with
  | ⟨.value v, .unary op line :: stack, st⟩ => do
    let result ← applyUnary ⟨.symbol op.symbol, line⟩ v
    return deliver result stack st
  | ⟨.value v, .binaryRight left op line :: stack, st⟩ => do
    let result ← applyBinary ⟨.symbol op.symbol, line⟩ left v
    return deliver result stack st
  | ⟨.value v, .invocation :: stack, st⟩ => do
    let depth ← decrement st.depth
    return ⟨.value v, stack, { st with depth := depth }⟩
  | ⟨.failed f, .invocation :: stack, st⟩ => do
    let depth ← decrement st.depth
    return ⟨.failed f, stack, { st with depth := depth }⟩
  | m => some (step set m)

/-- Does one step at each of the times, with its checks. -/
def checkedRunAlong (setting : Float → Setting) :
    List Float → Machine → Option Machine
  | [], m => some m
  | now :: times, m => do
    let next ← checkedStep (setting now) m
    checkedRunAlong setting times next

section

variable {limit depth : Nat} {frame : FrameId} {set : Setting}
  {stack : List Pending} {st : State}

/-- A call that has not ended counts for the depth. -/
theorem Level.decrement (h : Level limit frame depth (.invocation :: stack) st) :
    decrement st.depth = some (st.depth - 1) := by
  rw [h.depth]
  rfl

/-- No check fails on a balanced machine. -/
theorem checkedStep_eq {m : Machine} (h : Balanced limit frame depth m) :
    checkedStep set m = some (step set m) := by
  obtain ⟨control, stack, st⟩ := m
  obtain ⟨hlevel, -⟩ := h
  cases control with
  | value v =>
    cases stack with
    | nil => rfl
    | cons pending stack =>
      cases pending with
      | unary op line => simp only [checkedStep, applyUnary_symbol]; rfl
      | binaryRight left op line => simp only [checkedStep, applyBinary_symbol]; rfl
      | invocation => simp only [checkedStep, hlevel.decrement]; rfl
      | _ => rfl
  | failed f =>
    cases stack with
    | nil => rfl
    | cons pending stack =>
      cases pending with
      | invocation => simp only [checkedStep, hlevel.decrement]; rfl
      | _ => rfl
  | _ => rfl

/-- No check fails in a run from a balanced machine. -/
theorem checkedRunAlong_eq {setting : Float → Setting} {m : Machine}
    (h : Balanced limit frame depth m)
    (hlimit : ∀ now, (setting now).maxDepth = limit) (times : List Float) :
    checkedRunAlong setting times m = some (runAlong setting times m) := by
  induction times generalizing m with
  | nil => rfl
  | cons now times ih =>
    rw [checkedRunAlong, checkedStep_eq h]
    exact ih (balanced_step h (hlimit now))

end

end Lox.Machine
