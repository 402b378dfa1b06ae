/-!
# Failures of a running program

What can go wrong while a program runs.  A failure ends the run it happens
in; `Failure.message` is the one place where the wording is fixed.
-/

namespace Lox

/-- What was tried on a value that is neither an instance nor a class. -/
inductive Access where
  | read
  | write
  deriving Repr, DecidableEq

/-- The reason a run ended early. -/
inductive Failure where
  | undefinedVariable (name : String) (line : Nat)
  /-- `owner` is what was searched for the property. -/
  | undefinedProperty (name owner : String) (line : Nat)
  | operandNotNumber (operator : String) (line : Nat)
  | operandsNotNumbers (operator : String) (line : Nat)
  | operandsNotNumbersOrStrings (operator : String) (line : Nat)
  | arity (expected got line : Nat)
  | notCallable (line : Nat)
  | notAnInstance (access : Access) (line : Nat)
  | invalidSuperclass (line : Nat)
  | stackOverflow (limit line : Nat)
  | native (name message : String) (line : Nat)
  /-- The output took no more text. -/
  | output (reason : String)
  deriving Repr, DecidableEq

/-- The word for what only instances and classes have. -/
def Access.word : Access → String
  | read => "properties"
  | write => "fields"

namespace Failure

/-- The line a failure points at.  A failure of the output has none. -/
def line? : Failure → Option Nat
  | undefinedVariable _ line => some line
  | undefinedProperty _ _ line => some line
  | operandNotNumber _ line => some line
  | operandsNotNumbers _ line => some line
  | operandsNotNumbersOrStrings _ line => some line
  | arity _ _ line => some line
  | notCallable line => some line
  | notAnInstance _ line => some line
  | invalidSuperclass line => some line
  | stackOverflow _ line => some line
  | native _ _ line => some line
  | output _ => none

/-- The wording of a failure. -/
def message : Failure → String
  | undefinedVariable name line =>
    s!"[line {line}] Error: Undefined variable '{name}'."
  | undefinedProperty name owner line =>
    s!"[line {line}] Error: Undefined property '{name}' on {owner}."
  | operandNotNumber operator line =>
    s!"[line {line}] Error: Operand of '{operator}' must be a number."
  | operandsNotNumbers operator line =>
    s!"[line {line}] Error: Operands of '{operator}' must be numbers."
  | operandsNotNumbersOrStrings operator line =>
    s!"[line {line}] Error: Operands of '{operator}' must be two numbers or two strings."
  | arity expected got line =>
    s!"[line {line}] Error: Expected {expected} arguments but got {got}."
  | notCallable line =>
    s!"[line {line}] Error: Can only call functions and classes."
  | notAnInstance access line =>
    s!"[line {line}] Error: Only instances have {access.word}."
  | invalidSuperclass line =>
    s!"[line {line}] Error: Superclass must be a class."
  | stackOverflow limit line =>
    s!"[line {line}] Error: Stack overflow (call depth exceeded {limit})."
  | native name message line => s!"[line {line}] Error: {name}: {message}"
  | output reason => s!"Error: could not write program output: {reason}"

end Failure

end Lox
