import Lox.Machine.Step
import Lox.Scope.Resolve
import Lox.Stmt.Parser

/-!
# Sessions

A session keeps what lives on between sources: the globals and all that they
reach, the distances of the code loaded so far, the next free id, and the
sink.  A source is loaded, which gives a machine or the diagnostics that
reject it; the machine is driven to its end; and the session goes on from the
state it left.

`runWith` and `evalWith` do this with any way to drive a machine, so that the
same session runs with a bound on its steps or with a clock.
-/

namespace Lox

/-- What lives on between sources. -/
structure Session where
  store : Store
  sink : Sink
  distances : Distances
  natives : Array Machine.Behaviour
  nextId : Nat
  maxDepth : Nat

namespace Session

/-- How many calls may go on at once if nothing else is said. -/
def defaultMaxDepth : Nat := 1024

/-- The frame of the globals. -/
def globals : FrameId := 0

/-- Gives the next native function a name among the globals. -/
def defineNative (s : Session) (name : String) (arity : Nat)
    (behaviour : Machine.Behaviour) : Session :=
  let native : Native := ⟨s.natives.size, name, arity⟩
  { s with
    store := s.store.define globals name (.native native)
    natives := s.natives.push behaviour }

/-- The native function `clock`: the time in seconds. -/
def clock : Machine.Behaviour := fun now _ =>
  .ok (.number now)

/-- A session in which only `clock` is defined. -/
def new (maxDepth : Nat) (sink : Sink) : Session :=
  let s : Session :=
    { store := Store.empty.addFrame none .empty
      sink := sink
      distances := .empty
      natives := #[]
      nextId := 0
      maxDepth := maxDepth }
  s.defineNative "clock" 0 clock

/-! ## Loading -/

/-- What a machine of this session runs with, apart from the time. -/
def setting (s : Session) (now : Float) : Machine.Setting :=
  { maxDepth := s.maxDepth
    distances := s.distances
    natives := s.natives
    now := now
    globals := globals }

/-- The state in which code of this session starts. -/
def start (s : Session) : Machine.State :=
  { store := s.store, sink := s.sink, frame := globals, depth := 0 }

/-- Reads a source as a program.  All faults of the lexer come before those
of the parser; the ids used are used up in any case. -/
def parse (s : Session) (source : String) :
    Session × Except (List Diagnostic) (List Stmt) :=
  let scan := Token.scan source
  let parsed := Stmt.parse scan s.nextId
  let s := { s with nextId := parsed.nextId }
  match scan.diagnostics ++ parsed.diagnostics with
  | [] => (s, .ok parsed.statements)
  | diagnostics => (s, .error diagnostics)

/-- Applies the scope rules to a program.  The distances are kept in any
case. -/
def resolve (s : Session) (program : List Stmt) :
    Session × Except (List Diagnostic) (List Stmt) :=
  let resolved := Scope.resolve program s.distances
  let s := { s with distances := resolved.distances }
  match resolved.diagnostics with
  | [] => (s, .ok program)
  | diagnostics => (s, .error diagnostics)

/-- Reads a source as a program and applies the scope rules to it. -/
def load (s : Session) (source : String) :
    Session × Except (List Diagnostic) (List Stmt) :=
  match s.parse source with
  | (s, .ok program) => s.resolve program
  | (s, .error diagnostics) => (s, .error diagnostics)

/-- Reads a source as one expression.  The scope rules are not applied: all
its names are global. -/
def loadExpr (s : Session) (source : String) :
    Session × Except (List Diagnostic) Expr :=
  let scan := Token.scan source
  match scan.diagnostics with
  | [] =>
    let parsed := Expr.parse scan s.nextId
    ({ s with nextId := parsed.nextId }, parsed.result)
  | diagnostics => (s, .error diagnostics)

/-! ## Running -/

/-- What became of a source. -/
inductive Result where
  | rejected (diagnostics : List Diagnostic)
  | failed (f : Failure)
  | completed
  | value (v : Value)
  /-- The machine was not driven to its end. -/
  | unfinished

/-- What became of a source, and what it printed. -/
structure Answer where
  output : String
  result : Result

/-- What became of a machine.  A program that has run to its end flushes the
sink, which can fail. -/
def resultOf (m : Machine) : Result :=
  match m.outcome? with
  | some (.value v) => .value v
  | some (.failed f) => .failed f
  | some .completed =>
    match m.state.sink.flushFault with
    | some reason => .failed (.output reason)
    | none => .completed
  | none => .unfinished

/-- Goes on from the state a machine left. -/
def finish (s : Session) (m : Machine) : Session × Answer :=
  let output := m.state.sink.textFrom s.sink.accepted.size
  ({ s with store := m.state.store, sink := m.state.sink },
    ⟨output, resultOf m⟩)

/-- The answer to a source that is rejected. -/
def reject (diagnostics : List Diagnostic) : Answer :=
  ⟨"", .rejected diagnostics⟩

/-- A way to drive a machine, which may take its time from a clock. -/
abbrev Drive (μ : Type → Type) :=
  (Float → Machine.Setting) → Machine → μ Machine

/-- Runs a source as a program. -/
def runWith {μ : Type → Type} [Monad μ] (drive : Drive μ) (s : Session)
    (source : String) : μ (Session × Answer) :=
  match s.load source with
  | (s, .error diagnostics) => pure (s, reject diagnostics)
  | (s, .ok program) => do
    let m ← drive s.setting (.ofProgram program s.start)
    return s.finish m

/-- Evaluates a source as an expression. -/
def evalWith {μ : Type → Type} [Monad μ] (drive : Drive μ) (s : Session)
    (source : String) : μ (Session × Answer) :=
  match s.loadExpr source with
  | (s, .error diagnostics) => pure (s, reject diagnostics)
  | (s, .ok e) => do
    let m ← drive s.setting (.ofExpr e s.start)
    return s.finish m

/-- Drives a machine for up to `steps` steps at a fixed time. -/
def driveFor (steps : Nat) (now : Float) : Drive Id := fun setting m =>
  Machine.run (setting now) steps m

end Session

end Lox
