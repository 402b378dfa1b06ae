import Lox.Proofs.Machine.Balance
import Lox.Proofs.Scope.Returns

/-!
# The order of the stack

What waits on the stack of a machine is in order.  Each block remembers the
frame to go back to and each call its place in the depth, so a machine that
has worked off its stack is back in the frame and at the depth it started
with.  And a `return` always finds the body of a function to leave.
`Orderly` says so, and `orderly_step` proves that a step keeps it.

It follows that a program that runs to its end can be continued by another
one, as if the second had been written behind the first
(`runAlong_program`).
-/

namespace Lox

namespace Machine

/-- The construct waits for code without `return`. -/
def Pending.ReturnFree : Pending → Prop
  | branch thenBranch none => thenBranch.ReturnFree
  | branch thenBranch (some elseBranch) =>
    thenBranch.ReturnFree ∧ elseBranch.ReturnFree
  | loopTest _ inner => inner.ReturnFree
  | loopBody _ inner => inner.ReturnFree
  | block later _ => Stmt.AllReturnFree later
  | program later => Stmt.AllReturnFree later
  | giveBack => False
  | _ => True

/-- What is done next does not return. -/
def Control.ReturnFree : Control → Prop
  | exec s => s.ReturnFree
  | completed (.returned _) => False
  | _ => True

/-! ## Order -/

/-- Whether the stack is that of a function body. -/
def inBody : List Pending → Prop
  | [] => False
  | .body _ _ :: _ => True
  | _ :: rest => inBody rest

/-- Outside of function bodies nothing that waits returns. -/
def Guarded : List Pending → Prop
  | [] => True
  | pending :: rest => (inBody rest ∨ pending.ReturnFree) ∧ Guarded rest

/-- The stack leads back to a frame and a depth, and is left by a `return`
from function bodies only. -/
structure Waiting (frame : FrameId) (depth : Nat) (stack : List Pending)
    (st : State) : Prop where
  frame : frameBelow stack st.frame = frame
  depth : st.depth = depth + callsIn stack
  guarded : Guarded stack

/-- The stack of the machine is in order, and what is done next returns from
function bodies only. -/
structure Orderly (frame : FrameId) (depth : Nat) (m : Machine) : Prop extends
    Waiting frame depth m.stack m.state where
  control : inBody m.stack ∨ m.control.ReturnFree

section

variable {frame : FrameId} {depth : Nat} {stack : List Pending} {st : State}

/-- Handing on something that is no `return` is in order. -/
theorem Waiting.orderly (h : Waiting frame depth stack st) {control : Control}
    (hcontrol : inBody stack ∨ control.ReturnFree) :
    Orderly frame depth ⟨control, stack, st⟩ :=
  ⟨h, hcontrol⟩

/-- What is stored has no part in the order. -/
theorem Waiting.withStore (h : Waiting frame depth stack st) (store : Store) :
    Waiting frame depth stack { st with store := store } :=
  ⟨h.frame, h.depth, h.guarded⟩

/-! ## Calls -/

theorem orderly_deliver (h : Waiting frame depth stack st)
    (result : Except Failure Value) :
    Orderly frame depth (deliver result stack st) := by
  cases result <;> exact h.orderly (.inr trivial)

theorem orderly_enterBody (h : Waiting frame depth stack st) (f : Closure)
    (arguments : List Value) (line : Nat) :
    Orderly frame depth (enterBody f arguments line stack st) :=
  ⟨⟨h.frame, h.depth, .inl trivial, .inr trivial, h.guarded⟩, .inr trivial⟩

theorem orderly_construct (h : Waiting frame depth stack st) (c : Class)
    (arguments : List Value) (line : Nat) :
    Orderly frame depth (construct c arguments line stack st) := by
  simp only [construct]
  split
  · exact (h.withStore _).orderly (.inr trivial)
  · refine orderly_enterBody ?_ _ _ _
    exact ⟨h.frame, h.depth, .inr trivial, h.guarded⟩

theorem orderly_enter (h : Waiting frame depth stack st) (set : Setting)
    (callee : Callable) (arguments : List Value) (line : Nat) :
    Orderly frame depth (enter set callee arguments line stack st) := by
  cases callee with
  | closure f => exact orderly_enterBody h f arguments line
  | cls c => exact orderly_construct h c arguments line
  | native function =>
    simp only [enter]
    split
    · exact h.orderly (.inr trivial)
    · split <;> exact h.orderly (.inr trivial)

theorem orderly_invoke (h : Waiting frame depth stack st) (set : Setting)
    (callee : Callable) (arguments : List Value) (line : Nat) :
    Orderly frame depth (invoke set callee arguments line stack st) := by
  simp only [invoke]
  split
  · exact h.orderly (.inr trivial)
  · split
    · exact h.orderly (.inr trivial)
    · have hdepth : st.depth + 1 = depth + (callsIn stack + 1) := by
        rw [h.depth, Nat.add_assoc]
      refine orderly_enter ?_ set callee arguments line
      exact ⟨h.frame, hdepth, .inr trivial, h.guarded⟩

theorem orderly_settle (h : Waiting frame depth stack st) (set : Setting)
    (v : Value) (line : Nat) :
    Orderly frame depth (settle set v line stack st) := by
  cases v with
  | function f =>
    simp only [settle]
    split
    · exact orderly_invoke h set _ _ line
    · exact h.orderly (.inr trivial)
  | _ => exact h.orderly (.inr trivial)

theorem orderly_passArguments (h : Waiting frame depth stack st)
    (set : Setting) (callee : Callable) (line : Nat) (earlier : List Value)
    (later : List Expr) :
    Orderly frame depth
      (passArguments set callee line earlier later stack st) := by
  cases later with
  | nil => exact orderly_invoke h set callee _ line
  | cons e later =>
    exact ⟨⟨h.frame, h.depth, .inr trivial, h.guarded⟩, .inr trivial⟩

/-! ## Properties and classes -/

theorem orderly_readProperty (h : Waiting frame depth stack st)
    (set : Setting) (object : Value) (id : ObjectId)
    (method? : String → Option Closure) (owner : String) (name : Ident) :
    Orderly frame depth
      (readProperty set object id method? owner name stack st) := by
  simp only [readProperty]
  split
  · exact orderly_settle h set _ name.line
  · split
    · exact orderly_settle (h.withStore _) set _ name.line
    · exact h.orderly (.inr trivial)

theorem orderly_getProperty (h : Waiting frame depth stack st) (set : Setting)
    (object : Value) (name : Ident) :
    Orderly frame depth (getProperty set object name stack st) := by
  cases object with
  | inst | cls =>
    simp only [getProperty]
    exact orderly_readProperty h set _ _ _ _ name
  | _ => exact h.orderly (.inr trivial)

theorem orderly_bindSuper (h : Waiting frame depth stack st) (set : Setting)
    (superclass : Class) (distance line : Nat) (method : Ident) :
    Orderly frame depth
      (bindSuper set superclass distance line method stack st) := by
  cases distance with
  | zero => exact h.orderly (.inr trivial)
  | succ inner =>
    simp only [bindSuper]
    split
    · exact h.orderly (.inr trivial)
    · split
      · exact h.orderly (.inr trivial)
      · exact orderly_settle (h.withStore _) set _ method.line

theorem orderly_getSuper (h : Waiting frame depth stack st) (set : Setting)
    (id line : Nat) (method : Ident) :
    Orderly frame depth (getSuper set id line method stack st) := by
  simp only [getSuper]
  split
  · exact h.orderly (.inr trivial)
  · split
    · exact h.orderly (.inr trivial)
    · exact orderly_bindSuper h set _ _ line method
    · exact h.orderly (.inr trivial)

theorem orderly_nameClass (h : Waiting frame depth stack st) (name : Ident)
    (c : Class) (store : Store) :
    Orderly frame depth (nameClass name c store stack st) := by
  simp only [nameClass]
  split <;> exact (h.withStore _).orderly (.inr trivial)

theorem orderly_makeClass (h : Waiting frame depth stack st)
    (declaration : ClassDecl) (superclass : Option Class) :
    Orderly frame depth (makeClass declaration superclass stack st) := by
  cases superclass with
  | none => exact orderly_nameClass h _ _ _
  | some parent => exact orderly_nameClass h _ _ _

/-! ## Steps -/

theorem orderly_evaluate (h : Waiting frame depth stack st) (set : Setting)
    (e : Expr) : Orderly frame depth (evaluate set e stack st) := by
  cases e with
  | literal => exact h.orderly (.inr trivial)
  | group => exact h.orderly (.inr trivial)
  | «variable» | this => exact orderly_deliver h _
  | super id line method => exact orderly_getSuper h set id line method
  | _ => exact ⟨⟨h.frame, h.depth, .inr trivial, h.guarded⟩, .inr trivial⟩

theorem orderly_execute (h : Waiting frame depth stack st) {s : Stmt}
    (hs : inBody stack ∨ s.ReturnFree) :
    Orderly frame depth (execute s stack st) := by
  cases s with
  | var name initializer =>
    cases initializer with
    | none => exact (h.withStore _).orderly (.inr trivial)
    | some e => exact ⟨⟨h.frame, h.depth, .inr trivial, h.guarded⟩, .inr trivial⟩
  | block body =>
    rw [Stmt.ReturnFree] at hs
    exact ⟨⟨h.frame, h.depth, hs, h.guarded⟩, .inr trivial⟩
  | ifElse condition thenBranch elseBranch =>
    cases elseBranch with
    | none | some =>
      rw [Stmt.ReturnFree] at hs
      exact ⟨⟨h.frame, h.depth, hs, h.guarded⟩, .inr trivial⟩
  | «while» condition body =>
    rw [Stmt.ReturnFree] at hs
    exact ⟨⟨h.frame, h.depth, hs, h.guarded⟩, .inr trivial⟩
  | function f => exact (h.withStore _).orderly (.inr trivial)
  | «return» line value =>
    rw [Stmt.ReturnFree, or_false] at hs
    cases value with
    | none => exact h.orderly (.inl hs)
    | some e => exact ⟨⟨h.frame, h.depth, .inl hs, h.guarded⟩, .inr trivial⟩
  | «class» declaration =>
    simp only [execute]
    split
    · exact orderly_makeClass (h.withStore _) declaration none
    · exact ⟨⟨h.frame, h.depth, .inr trivial, h.guarded⟩, .inr trivial⟩
  | _ => exact ⟨⟨h.frame, h.depth, .inr trivial, h.guarded⟩, .inr trivial⟩

/-- Nothing but a block, a call or the body of a function changes where the
stack leads. -/
theorem Waiting.rest {pending : Pending}
    (h : Waiting frame depth (pending :: stack) st)
    (hframe : frameBelow (pending :: stack) st.frame =
      frameBelow stack st.frame)
    (hcalls : callsIn (pending :: stack) = callsIn stack) :
    Waiting frame depth stack st :=
  ⟨hframe ▸ h.frame, hcalls ▸ h.depth, h.guarded.2⟩

theorem orderly_resume {pending : Pending}
    (h : Waiting frame depth (pending :: stack) st) (set : Setting) (v : Value) :
    (resume set v pending stack st).control = .stuck ∨
      Orderly frame depth (resume set v pending stack st) := by
  have hpending := h.guarded.1
  cases pending with
  | loopBody | block | body | program => exact .inl rfl
  | invocation =>
    have hdepth : st.depth - 1 = depth + callsIn stack := by
      rw [h.depth, callsIn]
      omega
    exact .inr ⟨⟨h.frame, hdepth, h.guarded.2⟩, .inr trivial⟩
  | unary | binaryRight => exact .inr (orderly_deliver (h.rest rfl rfl) _)
  | logical op right =>
    simp only [resume]
    split <;> exact .inr ((h.rest rfl rfl).orderly (.inr trivial))
  | assign target =>
    simp only [resume, assign]
    split
    · exact .inr (((h.rest rfl rfl).withStore _).orderly (.inr trivial))
    · exact .inr ((h.rest rfl rfl).orderly (.inr trivial))
  | callee line arguments =>
    simp only [resume]
    split
    · exact .inr (orderly_passArguments (h.rest rfl rfl) set _ line _ _)
    · exact .inr ((h.rest rfl rfl).orderly (.inr trivial))
  | argument c line earlier later =>
    exact .inr (orderly_passArguments (h.rest rfl rfl) set c line _ later)
  | get name => exact .inr (orderly_getProperty (h.rest rfl rfl) set v name)
  | setObject name value =>
    simp only [resume]
    split
    · exact .inr ⟨⟨h.frame, h.depth, .inr trivial, h.guarded.2⟩, .inr trivial⟩
    · exact .inr ((h.rest rfl rfl).orderly (.inr trivial))
  | print =>
    simp only [resume, printValue]
    split <;> exact .inr ⟨⟨h.frame, h.depth, h.guarded.2⟩, .inr trivial⟩
  | branch thenBranch elseBranch =>
    have hrest := h.rest rfl rfl
    cases elseBranch with
    | none =>
      simp only [resume]
      split
      · exact .inr (hrest.orderly hpending)
      · exact .inr (hrest.orderly (.inr trivial))
    | some elseBranch =>
      simp only [resume]
      split
      · exact .inr (hrest.orderly (hpending.imp_right And.left))
      · exact .inr (hrest.orderly (hpending.imp_right And.right))
  | loopTest condition body =>
    simp only [resume]
    split
    · exact .inr ⟨⟨h.frame, h.depth, hpending, h.guarded.2⟩, hpending⟩
    · exact .inr ((h.rest rfl rfl).orderly (.inr trivial))
  | giveBack =>
    have hbody : inBody stack := hpending.resolve_right id
    exact .inr ((h.rest rfl rfl).orderly (.inl hbody))
  | superclass declaration line =>
    cases v with
    | cls parent =>
      exact .inr (orderly_makeClass (h.rest rfl rfl) declaration (some parent))
    | _ => exact .inr ((h.rest rfl rfl).orderly (.inr trivial))
  | binaryLeft =>
    exact .inr ⟨⟨h.frame, h.depth, .inr trivial, h.guarded.2⟩, .inr trivial⟩
  | setValue | construct | discard | define =>
    exact .inr ⟨⟨h.frame, h.depth, h.guarded.2⟩, .inr trivial⟩

theorem orderly_complete {pending : Pending} {c : Completion}
    (h : Orderly frame depth ⟨.completed c, pending :: stack, st⟩) :
    (complete c pending stack st).control = .stuck ∨
      Orderly frame depth (complete c pending stack st) := by
  obtain ⟨h, hcontrol⟩ := h
  have hpending := h.guarded.1
  cases pending with
  | loopBody condition body =>
    cases c with
    | normal =>
      exact .inr ⟨⟨h.frame, h.depth, hpending, h.guarded.2⟩, .inr trivial⟩
    | returned v => exact .inr ((h.rest rfl rfl).orderly hcontrol)
  | block later saved =>
    cases c with
    | normal =>
      cases later with
      | nil => exact .inr ⟨⟨h.frame, h.depth, h.guarded.2⟩, .inr trivial⟩
      | cons s later =>
        have hs := hpending.imp_right And.left
        have hlater := hpending.imp_right And.right
        exact .inr ⟨⟨h.frame, h.depth, hlater, h.guarded.2⟩, hs⟩
    | returned v =>
      exact .inr ⟨⟨h.frame, h.depth, h.guarded.2⟩, hcontrol⟩
  | body f line => exact .inr (orderly_deliver (h.rest rfl rfl) _)
  | program later =>
    cases c with
    | normal =>
      cases later with
      | nil => exact .inr ((h.rest rfl rfl).orderly (.inr trivial))
      | cons s later =>
        have hs := hpending.imp_right And.left
        have hlater := hpending.imp_right And.right
        exact .inr ⟨⟨h.frame, h.depth, hlater, h.guarded.2⟩, hs⟩
    | returned v => exact .inr ((h.rest rfl rfl).orderly hcontrol)
  | _ => exact .inl rfl

theorem waiting_unwind {pending : Pending}
    (h : Waiting frame depth (pending :: stack) st) :
    Waiting frame depth stack (unwind pending st) := by
  cases pending with
  | invocation =>
    have hdepth : st.depth - 1 = depth + callsIn stack := by
      rw [h.depth, callsIn]
      omega
    exact ⟨h.frame, hdepth, h.guarded.2⟩
  | block => exact ⟨h.frame, h.depth, h.guarded.2⟩
  | _ => exact h.rest rfl rfl

/-- A step keeps the order, unless the machine gets stuck. -/
theorem orderly_step {m : Machine} (h : Orderly frame depth m) (set : Setting) :
    (step set m).control = .stuck ∨ Orderly frame depth (step set m) := by
  obtain ⟨control, stack, st⟩ := m
  cases control with
  | eval e => exact .inr (orderly_evaluate h.toWaiting set e)
  | exec s => exact .inr (orderly_execute h.toWaiting h.control)
  | value v =>
    cases stack with
    | nil => exact .inr h
    | cons pending stack => exact orderly_resume h.toWaiting set v
  | completed c =>
    cases stack with
    | nil => exact .inr h
    | cons pending stack => exact orderly_complete h
  | failed f =>
    cases stack with
    | nil => exact .inr h
    | cons pending stack =>
      exact .inr ((waiting_unwind h.toWaiting).orderly (.inr trivial))
  | stuck => exact .inl rfl

end

/-! ## A program and its continuation -/

theorem outcome?_of_stuck {m : Machine} (h : m.control = .stuck) :
    m.outcome? = none := by
  obtain ⟨control, stack, st⟩ := m
  simp only at h
  subst h
  rfl

theorem runAlong_stuck_ne {setting : Float → Setting} {m : Machine}
    (h : m.control = .stuck) (times : List Float) :
    (runAlong setting times m).outcome? ≠ some .completed := by
  have hhalted : m.halted = true := by
    obtain ⟨control, stack, st⟩ := m
    simp only at h
    subst h
    rfl
  rw [runAlong_of_halted hhalted, outcome?_of_stuck h]
  exact nofun

theorem outcome?_append_singleton (control : Control) (top : List Pending)
    (pending : Pending) (st : State) :
    (⟨control, top ++ [pending], st⟩ : Machine).outcome? = none := by
  cases top <;> cases control <;> rfl

/-- A program that runs to its end leads back to where it started, and what
is written behind it goes on from there. -/
theorem runAlong_program {setting : Float → Setting} {frame : FrameId}
    {depth : Nat} {control : Control} {top : List Pending} {later : List Stmt}
    {st : State} {times : List Float}
    (h : Orderly frame depth ⟨control, top ++ [.program later], st⟩)
    (hend : (runAlong setting times
      ⟨control, top ++ [.program later], st⟩).outcome? = some .completed) :
    ∃ n st', n ≤ times.length ∧ st'.frame = frame ∧ st'.depth = depth ∧
      runAlong setting times ⟨control, top ++ [.program later], st⟩ =
        ⟨.completed .normal, [], st'⟩ ∧
      ∀ more, runAlong setting (times.take n)
          ⟨control, top ++ [.program (later ++ more)], st⟩ =
        ⟨.completed .normal, [.program more], st'⟩ := by
  induction times generalizing control top later st with
  | nil =>
    rw [runAlong, outcome?_append_singleton] at hend
    cases hend
  | cons now times ih =>
    rw [runAlong] at hend
    by_cases hm : (⟨control, top, st⟩ : Machine).outcome? = none
    · -- The machine does not reach the bottom of its stack in this step.
      have hstep (base : List Pending) := step_onTop (setting now) base hm
      simp only [onTop] at hstep
      have horderly := (orderly_step h (setting now)).resolve_left fun hstuck =>
        runAlong_stuck_ne hstuck times hend
      rw [hstep] at hend horderly
      obtain ⟨n, st', hn, hframe, hdepth, hrun, hmore⟩ := ih horderly hend
      refine ⟨n + 1, st', Nat.succ_le_succ hn, hframe, hdepth, ?_, ?_⟩
      · rw [runAlong, hstep, hrun]
      · intro more
        rw [List.take_succ_cons, runAlong, hstep, hmore]
    · obtain ⟨rfl, hcontrol⟩ := eq_nil_of_outcome?_ne hm
      simp only [List.nil_append] at h hend ih ⊢
      rcases hcontrol with ⟨v, rfl⟩ | ⟨c, rfl⟩ | ⟨f, rfl⟩
      · exact absurd hend (runAlong_stuck_ne rfl times)
      · cases c with
        | returned v => exact absurd h.control (by simp [inBody, Control.ReturnFree])
        | normal =>
          cases later with
          | nil =>
            refine ⟨0, st, Nat.zero_le _, h.frame, h.depth, ?_, fun more => rfl⟩
            rw [runAlong]
            exact runAlong_of_halted rfl times
          | cons s later =>
            have horderly : Orderly frame depth
                ⟨.exec s, [] ++ [.program later], st⟩ :=
              (orderly_step h (setting now)).resolve_left fun hstuck =>
                runAlong_stuck_ne hstuck times hend
            obtain ⟨n, st', hn, hframe, hdepth, hrun, hmore⟩ :=
              ih horderly hend
            exact ⟨n + 1, st', Nat.succ_le_succ hn, hframe, hdepth, hrun, hmore⟩
      · have hfailed : step (setting now) ⟨.failed f, [.program later], st⟩ =
            ⟨.failed f, [], st⟩ := rfl
        rw [hfailed, runAlong_of_halted rfl] at hend
        cases hend

end Machine

end Lox
