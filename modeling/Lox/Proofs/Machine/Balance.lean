import Lox.Proofs.Machine.Run

/-!
# The balance of the stack

Each block on the stack remembers the frame to go back to, each call its
place in the depth.  `Balanced` says of a machine that its stack leads back to
a frame and a depth, that the depth is within its limit, and that what is
handed on is of the form that the stack waits for: a value or a completion.
Every step keeps the balance (`balanced_step`), also one that fails and one
that unwinds a failure, and so does every run (`balanced_runAlong`).

A balanced machine that has worked off its stack is back in the frame and at
the depth it started with (`Balanced.restored`).
-/

namespace Lox.Machine

/-! ## What the stack leads back to -/

/-- The frame that is current once the stack is worked off. -/
def frameBelow : List Pending → FrameId → FrameId
  | [], frame => frame
  | .block _ saved :: rest, _ => frameBelow rest saved
  | _ :: rest, frame => frameBelow rest frame

/-- How many calls the stack holds. -/
def callsIn : List Pending → Nat
  | [] => 0
  | .invocation :: rest => callsIn rest + 1
  | _ :: rest => callsIn rest

/-! ## The forms of results -/

/-- What a construct can wait for. -/
inductive Form where
  | value
  | completion
  deriving DecidableEq

/-- What the construct waits for. -/
def Pending.takes : Pending → Form
  | loopBody _ _ | block _ _ | body _ _ | program _ => .completion
  | _ => .value

/-- What the construct hands on in the end. -/
def Pending.gives : Pending → Form
  | discard | print | define _ | branch _ _ | loopTest _ _ | giveBack
  | superclass _ _ | loopBody _ _ | block _ _ | program _ => .completion
  | _ => .value

/-- The stack waits for a result of this form, and each construct on it for
what the one above it hands on. -/
def Accepts : List Pending → Form → Prop
  | [], _ => True
  | pending :: rest, form => pending.takes = form ∧ Accepts rest pending.gives

/-- What is done next leads to a result that the stack waits for.  A failure
unwinds any stack. -/
def Control.Suits : Control → List Pending → Prop
  | eval _, stack => Accepts stack .value
  | value _, stack => Accepts stack .value
  | exec _, stack => Accepts stack .completion
  | completed _, stack => Accepts stack .completion
  | failed _, _ => True
  | stuck, _ => True

/-! ## Balance -/

/-- The stack leads back to a frame and a depth, and the depth is within its
limit. -/
structure Level (limit : Nat) (frame : FrameId) (depth : Nat)
    (stack : List Pending) (st : State) : Prop where
  frame : frameBelow stack st.frame = frame
  depth : st.depth = depth + callsIn stack
  bound : st.depth ≤ limit

/-- The stack is level, and what is done next suits it. -/
structure Balanced (limit : Nat) (frame : FrameId) (depth : Nat) (m : Machine) :
    Prop extends Level limit frame depth m.stack m.state where
  suits : m.control.Suits m.stack

section

variable {limit depth : Nat} {frame : FrameId} {set : Setting}
  {stack : List Pending} {st : State}

/-- What is stored has no part in the balance. -/
theorem Level.withStore (h : Level limit frame depth stack st) (store : Store) :
    Level limit frame depth stack { st with store := store } :=
  ⟨h.frame, h.depth, h.bound⟩

theorem Level.withSink (h : Level limit frame depth stack st) (sink : Sink) :
    Level limit frame depth stack { st with sink := sink } :=
  ⟨h.frame, h.depth, h.bound⟩

theorem Level.failed (h : Level limit frame depth stack st) (f : Failure) :
    Balanced limit frame depth ⟨.failed f, stack, st⟩ :=
  ⟨h, trivial⟩

/-- A construct that is no block and no call leaves the stack level. -/
theorem Level.push (h : Level limit frame depth stack st) {pending : Pending}
    (hframe : frameBelow (pending :: stack) st.frame =
      frameBelow stack st.frame)
    (hcalls : callsIn (pending :: stack) = callsIn stack) :
    Level limit frame depth (pending :: stack) st :=
  ⟨hframe.trans h.frame, hcalls ▸ h.depth, h.bound⟩

/-- What a failure undoes when it passes a construct is what the construct
did. -/
theorem Level.unwind {pending : Pending}
    (h : Level limit frame depth (pending :: stack) st) :
    Level limit frame depth stack (unwind pending st) := by
  cases pending with
  | invocation =>
    have hdepth : st.depth - 1 = depth + callsIn stack := by
      rw [h.depth, callsIn]
      omega
    have hbound : st.depth - 1 ≤ limit := by
      have := h.bound
      omega
    exact ⟨h.frame, hdepth, hbound⟩
  | _ => exact ⟨h.frame, h.depth, h.bound⟩

/-! ## Calls -/

theorem balanced_deliver (h : Level limit frame depth stack st)
    (haccepts : Accepts stack .value) (result : Except Failure Value) :
    Balanced limit frame depth (deliver result stack st) := by
  cases result with
  | ok v => exact ⟨h, haccepts⟩
  | error f => exact h.failed f

theorem balanced_enterBody (h : Level limit frame depth stack st)
    (haccepts : Accepts stack .value) (f : Closure) (arguments : List Value)
    (line : Nat) :
    Balanced limit frame depth (enterBody f arguments line stack st) :=
  ⟨⟨h.frame, h.depth, h.bound⟩, rfl, rfl, haccepts⟩

theorem balanced_construct (h : Level limit frame depth stack st)
    (haccepts : Accepts stack .value) (c : Class) (arguments : List Value)
    (line : Nat) :
    Balanced limit frame depth (construct c arguments line stack st) := by
  simp only [construct]
  split
  · exact ⟨h.withStore _, haccepts⟩
  · next method _ =>
    let object : Instance := ⟨st.store.nextObject, c⟩
    have hpush : Level limit frame depth (.construct object :: stack) st :=
      h.push rfl rfl
    exact balanced_enterBody (hpush.withStore _) ⟨rfl, haccepts⟩ _ arguments line

theorem balanced_enter (h : Level limit frame depth stack st)
    (haccepts : Accepts stack .value) (callee : Callable)
    (arguments : List Value) (line : Nat) :
    Balanced limit frame depth (enter set callee arguments line stack st) := by
  cases callee with
  | closure f => exact balanced_enterBody h haccepts f arguments line
  | cls c => exact balanced_construct h haccepts c arguments line
  | native function =>
    simp only [enter]
    split
    · exact ⟨h, trivial⟩
    · split
      · exact ⟨h, haccepts⟩
      · exact h.failed _

/-- A call takes its place in the depth only if the depth stays within the
limit. -/
theorem balanced_invoke (h : Level limit frame depth stack st)
    (haccepts : Accepts stack .value) (hlimit : set.maxDepth = limit)
    (callee : Callable) (arguments : List Value) (line : Nat) :
    Balanced limit frame depth (invoke set callee arguments line stack st) := by
  simp only [invoke]
  split
  · exact h.failed _
  · split
    · exact h.failed _
    · next hbelow =>
      have hdepth : st.depth + 1 = depth + (callsIn stack + 1) := by
        rw [h.depth]
        omega
      have hcall : Level limit frame depth (.invocation :: stack)
          { st with depth := st.depth + 1 } :=
        ⟨h.frame, hdepth, by simp only; omega⟩
      exact balanced_enter hcall ⟨rfl, haccepts⟩ callee arguments line

theorem balanced_settle (h : Level limit frame depth stack st)
    (haccepts : Accepts stack .value) (hlimit : set.maxDepth = limit)
    (v : Value) (line : Nat) :
    Balanced limit frame depth (settle set v line stack st) := by
  cases v with
  | function f =>
    simp only [settle]
    split
    · exact balanced_invoke h haccepts hlimit _ _ line
    · exact ⟨h, haccepts⟩
  | _ => exact ⟨h, haccepts⟩

theorem balanced_passArguments (h : Level limit frame depth stack st)
    (haccepts : Accepts stack .value) (hlimit : set.maxDepth = limit)
    (callee : Callable) (line : Nat) (earlier : List Value)
    (later : List Expr) :
    Balanced limit frame depth
      (passArguments set callee line earlier later stack st) := by
  cases later with
  | nil => exact balanced_invoke h haccepts hlimit callee _ line
  | cons e later => exact ⟨h.push rfl rfl, rfl, haccepts⟩

/-! ## Properties and classes -/

theorem balanced_readProperty (h : Level limit frame depth stack st)
    (haccepts : Accepts stack .value) (hlimit : set.maxDepth = limit)
    (object : Value) (id : ObjectId) (method? : String → Option Closure)
    (owner : String) (name : Ident) :
    Balanced limit frame depth
      (readProperty set object id method? owner name stack st) := by
  simp only [readProperty]
  split
  · exact balanced_settle h haccepts hlimit _ name.line
  · split
    · exact balanced_settle (h.withStore _) haccepts hlimit _ name.line
    · exact h.failed _

theorem balanced_getProperty (h : Level limit frame depth stack st)
    (haccepts : Accepts stack .value) (hlimit : set.maxDepth = limit)
    (object : Value) (name : Ident) :
    Balanced limit frame depth (getProperty set object name stack st) := by
  cases object with
  | inst | cls =>
    simp only [getProperty]
    exact balanced_readProperty h haccepts hlimit _ _ _ _ name
  | _ => exact h.failed _

theorem balanced_bindSuper (h : Level limit frame depth stack st)
    (haccepts : Accepts stack .value) (hlimit : set.maxDepth = limit)
    (superclass : Class) (distance line : Nat) (method : Ident) :
    Balanced limit frame depth
      (bindSuper set superclass distance line method stack st) := by
  cases distance with
  | zero => exact h.failed _
  | succ inner =>
    simp only [bindSuper]
    split
    · exact h.failed _
    · split
      · exact h.failed _
      · exact balanced_settle (h.withStore _) haccepts hlimit _ method.line

theorem balanced_getSuper (h : Level limit frame depth stack st)
    (haccepts : Accepts stack .value) (hlimit : set.maxDepth = limit)
    (id line : Nat) (method : Ident) :
    Balanced limit frame depth (getSuper set id line method stack st) := by
  simp only [getSuper]
  split
  · exact h.failed _
  · split
    · exact h.failed _
    · exact balanced_bindSuper h haccepts hlimit _ _ line method
    · exact h.failed _

theorem balanced_makeClass (h : Level limit frame depth stack st)
    (haccepts : Accepts stack .completion) (declaration : ClassDecl)
    (superclass : Option Class) :
    Balanced limit frame depth (makeClass declaration superclass stack st) := by
  have hname (c : Class) (store : Store) : Balanced limit frame depth
      (nameClass declaration.name c store stack st) := by
    simp only [nameClass]
    split
    · exact ⟨h.withStore _, haccepts⟩
    · exact (h.withStore _).failed _
  cases superclass with
  | none => exact hname _ _
  | some parent => exact hname _ _

/-! ## Steps -/

theorem balanced_evaluate (h : Level limit frame depth stack st)
    (haccepts : Accepts stack .value) (hlimit : set.maxDepth = limit)
    (e : Expr) : Balanced limit frame depth (evaluate set e stack st) := by
  cases e with
  | literal | group => exact ⟨h, haccepts⟩
  | «variable» | this => exact balanced_deliver h haccepts _
  | super id line method =>
    exact balanced_getSuper h haccepts hlimit id line method
  | _ => exact ⟨h.push rfl rfl, rfl, haccepts⟩

theorem balanced_execute (h : Level limit frame depth stack st)
    (haccepts : Accepts stack .completion) (s : Stmt) :
    Balanced limit frame depth (execute s stack st) := by
  cases s with
  | var name initializer =>
    cases initializer with
    | none => exact ⟨h.withStore _, haccepts⟩
    | some e => exact ⟨h.push rfl rfl, rfl, haccepts⟩
  | block body => exact ⟨⟨h.frame, h.depth, h.bound⟩, rfl, haccepts⟩
  | function f => exact ⟨h.withStore _, haccepts⟩
  | «return» line value =>
    cases value with
    | none => exact ⟨h, haccepts⟩
    | some e => exact ⟨h.push rfl rfl, rfl, haccepts⟩
  | «class» declaration =>
    simp only [execute]
    split
    · exact balanced_makeClass (h.withStore _) haccepts declaration none
    · exact ⟨(h.withStore _).push rfl rfl, rfl, haccepts⟩
  | _ => exact ⟨h.push rfl rfl, rfl, haccepts⟩

theorem balanced_resume {pending : Pending}
    (h : Level limit frame depth (pending :: stack) st)
    (haccepts : Accepts (pending :: stack) .value)
    (hlimit : set.maxDepth = limit) (v : Value) :
    Balanced limit frame depth (resume set v pending stack st) := by
  obtain ⟨htakes, hgives⟩ := haccepts
  have hrest := h.unwind
  cases pending with
  | loopBody | block | body | program => cases htakes
  | unary | binaryRight => exact balanced_deliver hrest hgives _
  | logical op right =>
    simp only [resume]
    split <;> exact ⟨hrest, hgives⟩
  | assign target =>
    simp only [resume, assign]
    split
    · exact ⟨hrest.withStore _, hgives⟩
    · exact hrest.failed _
  | callee line arguments =>
    simp only [resume]
    split
    · exact balanced_passArguments hrest hgives hlimit _ line _ _
    · exact hrest.failed _
  | argument c line earlier later =>
    exact balanced_passArguments hrest hgives hlimit c line _ later
  | get name => exact balanced_getProperty hrest hgives hlimit v name
  | setObject name value =>
    simp only [resume]
    split
    · exact ⟨hrest.push rfl rfl, rfl, hgives⟩
    · exact hrest.failed _
  | print =>
    simp only [resume, printValue]
    split
    · exact ⟨hrest.withSink _, hgives⟩
    · exact (hrest.withSink _).failed _
  | branch thenBranch elseBranch =>
    simp only [resume]
    split
    · exact ⟨hrest, hgives⟩
    · split <;> exact ⟨hrest, hgives⟩
  | loopTest condition body =>
    simp only [resume]
    split
    · exact ⟨hrest.push rfl rfl, rfl, hgives⟩
    · exact ⟨hrest, hgives⟩
  | superclass declaration line =>
    cases v with
    | cls parent => exact balanced_makeClass hrest hgives declaration (some parent)
    | _ => exact hrest.failed _
  | binaryLeft => exact ⟨hrest.push rfl rfl, rfl, hgives⟩
  | setValue | define => exact ⟨hrest.withStore _, hgives⟩
  | construct | invocation | discard | giveBack => exact ⟨hrest, hgives⟩

theorem balanced_complete {pending : Pending}
    (h : Level limit frame depth (pending :: stack) st)
    (haccepts : Accepts (pending :: stack) .completion) (c : Completion) :
    Balanced limit frame depth (complete c pending stack st) := by
  obtain ⟨htakes, hgives⟩ := haccepts
  have hrest := h.unwind
  cases pending with
  | loopBody condition body =>
    cases c with
    | normal => exact ⟨hrest.push rfl rfl, rfl, hgives⟩
    | returned v => exact ⟨hrest, hgives⟩
  | block later saved =>
    -- As long as there are statements left, the block stays on the stack.
    cases c with
    | normal =>
      cases later with
      | nil => exact ⟨hrest, hgives⟩
      | cons s later => exact ⟨⟨h.frame, h.depth, h.bound⟩, rfl, hgives⟩
    | returned v => exact ⟨hrest, hgives⟩
  | body f line => exact balanced_deliver hrest hgives _
  | program later =>
    cases c with
    | normal =>
      cases later with
      | nil => exact ⟨hrest, hgives⟩
      | cons s later => exact ⟨hrest.push rfl rfl, rfl, hgives⟩
    | returned v => exact ⟨hrest, hgives⟩
  | _ => cases htakes

/-- Every step keeps the balance. -/
theorem balanced_step {m : Machine} (h : Balanced limit frame depth m)
    (hlimit : set.maxDepth = limit) :
    Balanced limit frame depth (step set m) := by
  obtain ⟨control, stack, st⟩ := m
  obtain ⟨hlevel, hsuits⟩ := h
  cases control with
  | eval e => exact balanced_evaluate hlevel hsuits hlimit e
  | exec s => exact balanced_execute hlevel hsuits s
  | value v =>
    cases stack with
    | nil => exact ⟨hlevel, hsuits⟩
    | cons pending stack => exact balanced_resume hlevel hsuits hlimit v
  | completed c =>
    cases stack with
    | nil => exact ⟨hlevel, hsuits⟩
    | cons pending stack => exact balanced_complete hlevel hsuits c
  | failed f =>
    cases stack with
    | nil => exact hlevel.failed f
    | cons pending stack => exact hlevel.unwind.failed f
  | stuck => exact ⟨hlevel, trivial⟩

/-- Every run keeps the balance. -/
theorem balanced_runAlong {setting : Float → Setting} {m : Machine}
    (h : Balanced limit frame depth m)
    (hlimit : ∀ now, (setting now).maxDepth = limit) (times : List Float) :
    Balanced limit frame depth (runAlong setting times m) :=
  runAlong_induction (fun now _ hm => balanced_step hm (hlimit now)) h times

/-- A machine with an outcome is back where its stack led. -/
theorem Balanced.restored {m : Machine} (h : Balanced limit frame depth m)
    (houtcome : m.outcome? ≠ none) :
    m.state.frame = frame ∧ m.state.depth = depth := by
  obtain ⟨control, stack, st⟩ := m
  obtain ⟨rfl, -⟩ := eq_nil_of_outcome?_ne houtcome
  exact ⟨h.frame, h.depth⟩

end

end Lox.Machine
