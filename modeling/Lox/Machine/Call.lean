import Lox.Machine.Basic

/-!
# Calls

Calling a value: the number of arguments is checked first, then the depth of
calls, and only then does anything of the callee run.  A getter that is read
from an object is called at once.
-/

namespace Lox.Machine

/-- Starts the body of a function: its parameters are the first variables of
a new frame inside the frame it closes over. -/
def enterBody (f : Closure) (arguments : List Value) (line : Nat)
    (stack : List Pending) (st : State) : Machine :=
  let names := f.declaration.params.map Ident.name
  let bindings := Table.empty.insertAll (names.zip arguments)
  let frame := st.store.nextFrame
  let saved := st.frame
  ⟨.completed .normal,
    .block f.declaration.body saved :: .body f line :: stack,
    { st with
      store := st.store.addFrame (some f.frame) bindings, frame := frame }⟩

/-- Makes an instance of a class and runs the initializer on it, if the class
has one. -/
def construct (c : Class) (arguments : List Value) (line : Nat)
    (stack : List Pending) (st : State) : Machine :=
  let object : Instance := ⟨st.store.nextObject, c⟩
  let store := st.store.addObject
  match c.findMethod? initializerName with
  | none => ⟨.value (.inst object), stack, { st with store := store }⟩
  | some method =>
    let (store, bound) := store.bindMethod method (.inst object)
    enterBody bound arguments line (.construct object :: stack)
      { st with store := store }

/-- Starts a callee with the right number of arguments. -/
def enter (set : Setting) (callee : Callable) (arguments : List Value)
    (line : Nat) (stack : List Pending) (st : State) : Machine :=
  match callee with
  | .closure f => enterBody f arguments line stack st
  | .cls c => construct c arguments line stack st
  | .native function =>
    match set.natives[function.id]? with
    | none => ⟨.stuck, stack, st⟩
    | some behaviour =>
      match behaviour set.now arguments with
      | .ok v => ⟨.value v, stack, st⟩
      | .error message =>
        ⟨.failed (.native function.name message line), stack, st⟩

/-- Calls a value from `line`. -/
def invoke (set : Setting) (callee : Callable) (arguments : List Value)
    (line : Nat) (stack : List Pending) (st : State) : Machine :=
  if arguments.length ≠ callee.arity then
    ⟨.failed (.arity callee.arity arguments.length line), stack, st⟩
  else if set.maxDepth ≤ st.depth then
    ⟨.failed (.stackOverflow set.maxDepth line), stack, st⟩
  else
    enter set callee arguments line (.invocation :: stack)
      { st with depth := st.depth + 1 }

/-- Hands on a value read from an object.  A getter is called first. -/
def settle (set : Setting) (v : Value) (line : Nat) (stack : List Pending)
    (st : State) : Machine :=
  match v with
  | .function f =>
    if f.isGetter then invoke set (.closure f) [] line stack st
    else ⟨.value v, stack, st⟩
  | _ => ⟨.value v, stack, st⟩

/-- Evaluates the arguments that are left, then calls. -/
def passArguments (set : Setting) (callee : Callable) (line : Nat)
    (earlier : List Value) (later : List Expr) (stack : List Pending)
    (st : State) : Machine :=
  match later with
  | [] => invoke set callee earlier.reverse line stack st
  | e :: later => ⟨.eval e, .argument callee line earlier later :: stack, st⟩

/-- The value of a call whose body has ended.  An initializer gives its
instance, whatever its body gives. -/
def resultOf (f : Closure) (line : Nat) (c : Completion) (store : Store) :
    Except Failure Value :=
  if f.declaration.isInitializer then
    store.readAt f.frame 0 Keyword.kwThis.lexeme line
  else match c with
    | .returned v => .ok v
    | .normal => .ok .nil

end Lox.Machine
