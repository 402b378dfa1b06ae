import Lox.Machine.Operator
import Lox.Machine.Property

/-!
# The steps of the machine

`step` does one step: it starts an expression or a statement, or hands a
result to the innermost pending construct.  `run` does a number of steps, or
fewer if the machine halts before.
-/

namespace Lox.Machine

/-! ## Starting expressions and statements -/

/-- The value of an occurrence: at its distance, or among the globals. -/
def lookUp (set : Setting) (st : State) (id : Nat) (name : String)
    (line : Nat) : Except Failure Value :=
  match set.distances.find? id with
  | some distance => st.store.readAt st.frame distance name line
  | none => st.store.read set.globals name line

/-- Starts an expression. -/
def evaluate (set : Setting) (e : Expr) (stack : List Pending) (st : State) :
    Machine :=
  match e with
  | .literal value => ⟨.value (.ofLiteral value), stack, st⟩
  | .group inner => ⟨.eval inner, stack, st⟩
  | .unary op line right => ⟨.eval right, .unary op line :: stack, st⟩
  | .binary left op line right =>
    ⟨.eval left, .binaryLeft op line right :: stack, st⟩
  | .logical left op _ right => ⟨.eval left, .logical op right :: stack, st⟩
  | .variable ref =>
    deliver (lookUp set st ref.id ref.name ref.line) stack st
  | .assign target value => ⟨.eval value, .assign target :: stack, st⟩
  | .call callee line arguments =>
    ⟨.eval callee, .callee line arguments :: stack, st⟩
  | .get object name => ⟨.eval object, .get name :: stack, st⟩
  | .set object name value =>
    ⟨.eval object, .setObject name value :: stack, st⟩
  | .this id line =>
    deliver (lookUp set st id Keyword.kwThis.lexeme line) stack st
  | .super id line method => getSuper set id line method stack st

/-- Gives a name a value in the current frame. -/
def defineHere (st : State) (name : String) (v : Value) : State :=
  { st with store := st.store.define st.frame name v }

/-- Starts a statement. -/
def execute (s : Stmt) (stack : List Pending) (st : State) : Machine :=
  match s with
  | .expression e => ⟨.eval e, .discard :: stack, st⟩
  | .print e => ⟨.eval e, .print :: stack, st⟩
  | .var name (some e) => ⟨.eval e, .define name.name :: stack, st⟩
  | .var name none =>
    ⟨.completed .normal, stack, defineHere st name.name .nil⟩
  | .block body =>
    let frame := st.store.nextFrame
    let saved := st.frame
    ⟨.completed .normal, .block body saved :: stack,
      { st with
        store := st.store.addFrame (some saved) .empty, frame := frame }⟩
  | .ifElse condition thenBranch elseBranch =>
    ⟨.eval condition, .branch thenBranch elseBranch :: stack, st⟩
  | .while condition body =>
    ⟨.eval condition, .loopTest condition body :: stack, st⟩
  | .function f =>
    let frame := st.frame
    let (store, closure) := st.store.makeClosure f frame
    ⟨.completed .normal, stack,
      { st with store := store.define frame f.name.name (.function closure) }⟩
  | .return _ (some e) => ⟨.eval e, .giveBack :: stack, st⟩
  | .return _ none => ⟨.completed (.returned .nil), stack, st⟩
  | .class declaration =>
    let st := defineHere st declaration.name.name .nil
    match declaration.superclass with
    | none => makeClass declaration none stack st
    | some parent =>
      ⟨.eval (.variable parent), .superclass declaration parent.line :: stack,
        st⟩

/-! ## Handing on results -/

/-- The frame that holds the variable of an occurrence: the one at its
distance, or the frame of the globals. -/
def owner? (set : Setting) (st : State) (target : Ref) : Option FrameId :=
  match set.distances.find? target.id with
  | some distance => st.store.ownerAt? st.frame distance target.name
  | none => st.store.owner? set.globals target.name

/-- Stores an assigned value.  The variable must exist. -/
def assign (set : Setting) (target : Ref) (v : Value) (stack : List Pending)
    (st : State) : Machine :=
  match owner? set st target with
  | some owner =>
    ⟨.value v, stack,
      { st with store := st.store.define owner target.name v }⟩
  | none => ⟨.failed (.undefinedVariable target.name target.line), stack, st⟩

/-- Prints a value and a line end. -/
def printValue (v : Value) (stack : List Pending) (st : State) : Machine :=
  let (sink, refused) := st.sink.writeLine v.display
  match refused with
  | none => ⟨.completed .normal, stack, { st with sink := sink }⟩
  | some reason => ⟨.failed (.output reason), stack, { st with sink := sink }⟩

/-- Whether a logical operator is decided by its left operand. -/
def decides (op : LogicalOp) (left : Value) : Bool :=
  match op with
  | .or => left.truthy
  | .and => !left.truthy

/-- Hands a value to a construct. -/
def resume (set : Setting) (v : Value) (pending : Pending)
    (stack : List Pending) (st : State) : Machine :=
  match pending with
  | .unary op line => deliver (op.apply line v) stack st
  | .binaryLeft op line right =>
    ⟨.eval right, .binaryRight v op line :: stack, st⟩
  | .binaryRight left op line => deliver (op.apply line left v) stack st
  | .logical op right =>
    if decides op v then ⟨.value v, stack, st⟩ else ⟨.eval right, stack, st⟩
  | .assign target => assign set target v stack st
  | .callee line arguments =>
    match v.callable? with
    | some callee => passArguments set callee line [] arguments stack st
    | none => ⟨.failed (.notCallable line), stack, st⟩
  | .argument callee line earlier later =>
    passArguments set callee line (v :: earlier) later stack st
  | .get name => getProperty set v name stack st
  | .setObject name value =>
    match objectId? v with
    | some object => ⟨.eval value, .setValue object name.name :: stack, st⟩
    | none => ⟨.failed (.notAnInstance .write name.line), stack, st⟩
  | .setValue object name =>
    ⟨.value v, stack, { st with store := st.store.setField object name v }⟩
  | .construct object => ⟨.value (.inst object), stack, st⟩
  | .invocation => ⟨.value v, stack, { st with depth := st.depth - 1 }⟩
  | .discard => ⟨.completed .normal, stack, st⟩
  | .print => printValue v stack st
  | .define name => ⟨.completed .normal, stack, defineHere st name v⟩
  | .branch thenBranch elseBranch =>
    if v.truthy then ⟨.exec thenBranch, stack, st⟩
    else match elseBranch with
      | some s => ⟨.exec s, stack, st⟩
      | none => ⟨.completed .normal, stack, st⟩
  | .loopTest condition body =>
    if v.truthy then ⟨.exec body, .loopBody condition body :: stack, st⟩
    else ⟨.completed .normal, stack, st⟩
  | .giveBack => ⟨.completed (.returned v), stack, st⟩
  | .superclass declaration line =>
    match v with
    | .cls parent => makeClass declaration (some parent) stack st
    | _ => ⟨.failed (.invalidSuperclass line), stack, st⟩
  | .loopBody _ _ | .block _ _ | .body _ _ | .program _ => ⟨.stuck, stack, st⟩

/-- Hands a completion to a construct. -/
def complete (c : Completion) (pending : Pending) (stack : List Pending)
    (st : State) : Machine :=
  match pending with
  | .loopBody condition body =>
    match c with
    | .normal => ⟨.eval condition, .loopTest condition body :: stack, st⟩
    | .returned _ => ⟨.completed c, stack, st⟩
  | .block later saved =>
    match c, later with
    | .normal, s :: later => ⟨.exec s, .block later saved :: stack, st⟩
    | _, _ => ⟨.completed c, stack, { st with frame := saved }⟩
  | .body f line => deliver (resultOf f line c st.store) stack st
  | .program later =>
    match c, later with
    | .normal, s :: later => ⟨.exec s, .program later :: stack, st⟩
    | _, _ => ⟨.completed c, stack, st⟩
  | _ => ⟨.stuck, stack, st⟩

/-- What a failure undoes when it passes a construct: a block gives back its
frame, a call its place in the depth. -/
def unwind (pending : Pending) (st : State) : State :=
  match pending with
  | .block _ saved => { st with frame := saved }
  | .invocation => { st with depth := st.depth - 1 }
  | _ => st

/-! ## Running -/

/-- One step.  A machine that has halted stays as it is. -/
def step (set : Setting) (m : Machine) : Machine :=
  match m with
  | ⟨.eval e, stack, st⟩ => evaluate set e stack st
  | ⟨.exec s, stack, st⟩ => execute s stack st
  | ⟨.value v, pending :: stack, st⟩ => resume set v pending stack st
  | ⟨.completed c, pending :: stack, st⟩ => complete c pending stack st
  | ⟨.failed f, pending :: stack, st⟩ => ⟨.failed f, stack, unwind pending st⟩
  | ⟨.value v, [], st⟩ => ⟨.value v, [], st⟩
  | ⟨.completed c, [], st⟩ => ⟨.completed c, [], st⟩
  | ⟨.failed f, [], st⟩ => ⟨.failed f, [], st⟩
  | ⟨.stuck, stack, st⟩ => ⟨.stuck, stack, st⟩

/-- Whether there is nothing left to do. -/
def halted (m : Machine) : Bool :=
  match m.control, m.stack with
  | .value _, [] => true
  | .completed _, [] => true
  | .failed _, [] => true
  | .stuck, _ => true
  | _, _ => false

/-- Does up to `steps` steps. -/
def run (set : Setting) : (steps : Nat) → Machine → Machine
  | 0, m => m
  | steps + 1, m => if m.halted then m else run set steps (step set m)

/-- The machine that runs a program. -/
def ofProgram (program : List Stmt) (st : State) : Machine :=
  ⟨.completed .normal, [.program program], st⟩

/-- The machine that evaluates an expression. -/
def ofExpr (e : Expr) (st : State) : Machine :=
  ⟨.eval e, [], st⟩

end Lox.Machine
