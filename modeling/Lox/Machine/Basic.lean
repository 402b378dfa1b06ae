import Lox.Scope.Distances
import Lox.Sink
import Lox.Store

/-!
# The evaluator as a machine

A program runs on a machine that does one small step at a time.  Its control
says what is to be done: evaluate an expression, execute a statement, or hand
on a result.  What waits for the result is a stack of pending constructs,
innermost first.  There is no recursion on the nesting of a program, and a
run can be looked at after every step.

A construct either waits for a value or for the completion of a statement.
A result of the other kind leaves the machine `stuck`; machines that start
from a program never are.
-/

namespace Lox

/-- How a statement ended: by running to its end or by a `return`. -/
inductive Completion where
  | normal
  | returned (value : Value)

/-- A value that can be called. -/
inductive Callable where
  | native (function : Native)
  | closure (f : Closure)
  | cls (c : Class)

/-- The value as something that can be called. -/
def Value.callable? : Value → Option Callable
  | native n => some (.native n)
  | function f => some (.closure f)
  | cls c => some (.cls c)
  | _ => none

/-- How many arguments a call takes. -/
def Callable.arity : Callable → Nat
  | native n => n.arity
  | closure f => f.arity
  | cls c => c.arity

namespace Machine

/-- What the machine does next. -/
inductive Control where
  | eval (e : Expr)
  | exec (s : Stmt)
  | value (v : Value)
  | completed (c : Completion)
  | failed (f : Failure)
  | stuck

/-- A construct that waits for a result. -/
inductive Pending where
  /-- The operand of a unary operator. -/
  | unary (op : UnaryOp) (line : Nat)
  /-- The left operand of a binary operator. -/
  | binaryLeft (op : BinaryOp) (line : Nat) (right : Expr)
  /-- The right operand of a binary operator. -/
  | binaryRight (left : Value) (op : BinaryOp) (line : Nat)
  /-- The left operand of a logical operator. -/
  | logical (op : LogicalOp) (right : Expr)
  /-- The value assigned to a variable. -/
  | assign (target : Ref)
  /-- What is called. -/
  | callee (line : Nat) (arguments : List Expr)
  /-- An argument; the earlier ones are kept newest first. -/
  | argument (callee : Callable) (line : Nat) (earlier : List Value)
      (later : List Expr)
  /-- The object whose property is read. -/
  | get (name : Ident)
  /-- The object whose field is set. -/
  | setObject (name : Ident) (value : Expr)
  /-- The value of a field. -/
  | setValue (object : ObjectId) (name : String)
  /-- The initializer that runs on a new instance. -/
  | construct (object : Instance)
  /-- A call that counts for the depth. -/
  | invocation
  /-- An expression statement. -/
  | discard
  /-- The value to be printed. -/
  | print
  /-- The first value of a variable. -/
  | define (name : String)
  /-- The condition of an `if`. -/
  | branch (thenBranch : Stmt) (elseBranch : Option Stmt)
  /-- The condition of a `while`. -/
  | loopTest (condition : Expr) (body : Stmt)
  /-- The value of a `return`. -/
  | giveBack
  /-- The superclass of a class, named on `line`. -/
  | superclass (declaration : ClassDecl) (line : Nat)
  /-- The body of a `while`. -/
  | loopBody (condition : Expr) (body : Stmt)
  /-- The statements of a block; afterwards the frame `saved` is current. -/
  | block (later : List Stmt) (saved : FrameId)
  /-- The body of a function called on `line`. -/
  | body (f : Closure) (line : Nat)
  /-- The statements of a program. -/
  | program (later : List Stmt)

/-- What the machine changes. -/
structure State where
  store : Store
  sink : Sink
  /-- The current frame. -/
  frame : FrameId
  /-- How many calls are going on. -/
  depth : Nat

/-- What a native function does: from the time in seconds and the arguments
to a result or a reason why there is none. -/
abbrev Behaviour := (now : Float) → List Value → Except String Value

/-- What stays the same during a run. -/
structure Setting where
  /-- How many calls may go on at once. -/
  maxDepth : Nat
  distances : Distances
  /-- What the native functions do, by their numbers. -/
  natives : Array Behaviour
  /-- The time in seconds. -/
  now : Float
  /-- The frame of the globals. -/
  globals : FrameId

end Machine

/-- A machine in the middle of a run. -/
structure Machine where
  control : Machine.Control
  stack : List Machine.Pending
  state : Machine.State

namespace Machine

/-- How a run ended. -/
inductive Outcome where
  | value (v : Value)
  | completed
  | failed (f : Failure)

/-- The outcome of a machine that has nothing pending. -/
def outcome? (m : Machine) : Option Outcome :=
  match m.control, m.stack with
  | .value v, [] => some (.value v)
  | .completed _, [] => some .completed
  | .failed f, [] => some (.failed f)
  | _, _ => none

/-- Hands on a value or a failure. -/
def deliver (result : Except Failure Value) (stack : List Pending)
    (st : State) : Machine :=
  match result with
  | .ok v => ⟨.value v, stack, st⟩
  | .error f => ⟨.failed f, stack, st⟩

end Machine

end Lox
