import Lox.Failure
import Lox.Value

/-!
# Operators on values

The meaning of the unary and binary operators.  Equality is defined on all
values; `+` adds numbers and joins strings; all other operators want numbers.
-/

namespace Lox

/-- Applies a unary operator that stands on `line`. -/
def UnaryOp.apply (op : UnaryOp) (line : Nat) (v : Value) :
    Except Failure Value :=
  match op, v with
  | .not, v => .ok (.bool (!v.truthy))
  | .negate, .number n => .ok (.number (-n))
  | .negate, _ => .error (.operandNotNumber op.symbol.lexeme line)

namespace BinaryOp

/-- Applies an operation that wants two numbers. -/
def onNumbers (operation : Float → Float → Value) (op : BinaryOp) (line : Nat)
    (left right : Value) : Except Failure Value :=
  match left, right with
  | .number a, .number b => .ok (operation a b)
  | _, _ => .error (.operandsNotNumbers op.symbol.lexeme line)

/-- Adds two numbers or joins two strings. -/
def sum (line : Nat) (left right : Value) : Except Failure Value :=
  match left, right with
  | .number a, .number b => .ok (.number (a + b))
  | .string a, .string b => .ok (.string (a ++ b))
  | _, _ => .error (.operandsNotNumbersOrStrings add.symbol.lexeme line)

/-- Applies a binary operator that stands on `line`. -/
def apply (op : BinaryOp) (line : Nat) (left right : Value) :
    Except Failure Value :=
  match op with
  | equal => .ok (.bool (left.equal right))
  | notEqual => .ok (.bool (!left.equal right))
  | add => sum line left right
  | subtract => onNumbers (fun a b => .number (a - b)) op line left right
  | multiply => onNumbers (fun a b => .number (a * b)) op line left right
  | divide => onNumbers (fun a b => .number (a / b)) op line left right
  | less => onNumbers (fun a b => .bool (a < b)) op line left right
  | lessEqual => onNumbers (fun a b => .bool (a ≤ b)) op line left right
  | greater => onNumbers (fun a b => .bool (b < a)) op line left right
  | greaterEqual => onNumbers (fun a b => .bool (b ≤ a)) op line left right

end BinaryOp

end Lox
