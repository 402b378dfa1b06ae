import Lox.Token

/-!
# Expressions

The tree of an expression.  Operators are their own types, so a tree cannot
hold an operator that has no meaning; each knows the token it is written
with.  Occurrences that the scope rules can bind, variables, assignments,
`this` and `super`, carry an id of their own.
-/

namespace Lox

/-- A name in the source and the line it stands on. -/
structure Ident where
  name : String
  line : Nat
  deriving Repr, DecidableEq

/-- An occurrence of a variable.  No two occurrences share an id. -/
structure Ref where
  id : Nat
  name : String
  line : Nat
  deriving Repr, DecidableEq

/-- The operators with one operand. -/
inductive UnaryOp where
  | not
  | negate
  deriving Repr, DecidableEq

/-- The operators that evaluate both operands. -/
inductive BinaryOp where
  | equal
  | notEqual
  | less
  | lessEqual
  | greater
  | greaterEqual
  | add
  | subtract
  | multiply
  | divide
  deriving Repr, DecidableEq

/-- The operators whose left operand may decide alone. -/
inductive LogicalOp where
  | and
  | or
  deriving Repr, DecidableEq

/-- The token that writes the operator. -/
def UnaryOp.symbol : UnaryOp → Symbol
  | not => .bang
  | negate => .minus

/-- The token that writes the operator. -/
def BinaryOp.symbol : BinaryOp → Symbol
  | equal => .equalEqual
  | notEqual => .bangEqual
  | less => .less
  | lessEqual => .lessEqual
  | greater => .greater
  | greaterEqual => .greaterEqual
  | add => .plus
  | subtract => .minus
  | multiply => .star
  | divide => .slash

/-- The token that writes the operator. -/
def LogicalOp.keyword : LogicalOp → Keyword
  | and => .kwAnd
  | or => .kwOr

/-- A constant in the source. -/
inductive Literal where
  | nil
  | bool (value : Bool)
  | number (value : Float)
  | string (content : String)
  deriving Repr

/-- An expression.  A `line` is that of the token that later errors point
at: the operator, the closing parenthesis of a call, the keyword. -/
inductive Expr where
  | literal (value : Literal)
  | group (inner : Expr)
  | unary (op : UnaryOp) (line : Nat) (right : Expr)
  | binary (left : Expr) (op : BinaryOp) (line : Nat) (right : Expr)
  | logical (left : Expr) (op : LogicalOp) (line : Nat) (right : Expr)
  | variable (ref : Ref)
  | assign (target : Ref) (value : Expr)
  | call (callee : Expr) (line : Nat) (arguments : List Expr)
  | get (object : Expr) (name : Ident)
  | set (object : Expr) (name : Ident) (value : Expr)
  | this (id : Nat) (line : Nat)
  | super (id : Nat) (line : Nat) (method : Ident)
  deriving Inhabited

end Lox
