import Lox.Proofs.Machine.Members
import Lox.Proofs.Store.Names

/-!
# What a part of an expression leaves alone

What runs in a block or in a function runs in a frame that was not there
before (`Placed`).  Evaluating an expression, calling what it calls and making
a class start no statement and add no name to a frame there is; all they may do
to the stack is to wait with constructs of expressions (`Continues`).  There is
one lemma for each operation of the machine.
-/

namespace Lox

namespace Machine

/-! ## Where code runs -/

/-- No block is open, neither that of a block statement nor that of the body
of a function. -/
def InPlace : List Pending → Prop
  | [] => True
  | .block _ _ :: _ => False
  | _ :: rest => InPlace rest

/-- The stack leads from the current frame to `base`, and in blocks the
current frame is none of the first `n`. -/
def Placed (n : Nat) (base : FrameId) : List Pending → FrameId → Prop
  | [], frame => frame = base
  | .block _ saved :: rest, frame => n ≤ frame ∧ Placed n base rest saved
  | _ :: rest, frame => Placed n base rest frame

theorem Placed.eq_of_inPlace {n : Nat} {base frame : FrameId}
    {stack : List Pending} (h : Placed n base stack frame)
    (hplace : InPlace stack) : frame = base := by
  induction stack with
  | nil => exact h
  | cons pending rest ih =>
    cases pending with
    | block => exact hplace.elim
    | _ => exact ih h hplace

theorem Placed.le_of_not_inPlace {n : Nat} {base frame : FrameId}
    {stack : List Pending} (h : Placed n base stack frame)
    (hplace : ¬ InPlace stack) : n ≤ frame := by
  induction stack with
  | nil => exact absurd trivial hplace
  | cons pending rest ih =>
    cases pending with
    | block => exact h.1
    | _ => exact ih h hplace

/-- More can be put on a stack, with frames that are new from there on. -/
theorem Placed.append {n n' : Nat} {base base' frame : FrameId}
    {added stack : List Pending} (h : Placed n' base' added frame)
    (hstack : Placed n base stack base') (hle : n ≤ n') :
    Placed n base (added ++ stack) frame := by
  induction added generalizing frame with
  | nil =>
    obtain rfl : frame = base' := h
    exact hstack
  | cons pending rest ih =>
    cases pending with
    | block => exact ⟨Nat.le_trans hle h.1, ih h.2⟩
    | _ => exact ih h

/-! ## What a part of an expression does -/

/-- The construct belongs to an expression or to a call. -/
def Pending.OfExpr : Pending → Prop
  | .discard | .print | .define _ | .branch _ _ | .loopTest _ _ | .giveBack
  | .superclass _ _ | .loopBody _ _ | .program _ => False
  | _ => True

/-- From a stack and a state the machine goes on with a part of an expression:
no statement starts, and no name is added to a frame there is. -/
structure Continues (stack : List Pending) (st : State) (m : Machine) :
    Prop where
  control : ∀ s, m.control ≠ .exec s
  names : st.store.Keeps st.store.frames.size m.state.store
  size : st.store.frames.size ≤ m.state.store.frames.size
  stack : ∃ added, m.stack = added ++ stack ∧ (∀ p ∈ added, p.OfExpr) ∧
    Placed st.store.frames.size st.frame added m.state.frame

namespace Continues

variable {stack : List Pending} {st : State} {m : Machine}

/-- The machine hands on or evaluates something. -/
theorem on (stack : List Pending) (st : State) {control : Control}
    (hcontrol : ∀ s, control ≠ .exec s) :
    Continues stack st ⟨control, stack, st⟩ where
  control := hcontrol
  names := .refl _ _ _
  size := Nat.le_refl _
  stack := ⟨[], rfl, by simp, rfl⟩

/-- The machine waits with a construct that is no block. -/
theorem push {pending : Pending} (h : Continues (pending :: stack) st m)
    (hexpr : pending.OfExpr)
    (hplaced : ∀ n frame, Placed n frame [pending] frame) :
    Continues stack st m where
  control := h.control
  names := h.names
  size := h.size
  stack := by
    obtain ⟨added, hstack, hadded, hframe⟩ := h.stack
    refine ⟨added ++ [pending], ?_, ?_, ?_⟩
    · rw [hstack, List.append_assoc]
      rfl
    · intro p hp
      rcases List.mem_append.1 hp with hp | hp
      · exact hadded p hp
      · rw [List.mem_singleton.1 hp]
        exact hexpr
    · exact hframe.append (hplaced _ _) (Nat.le_refl _)

/-- The store has changed before, without a new name. -/
theorem after {store : Store} {depth : Nat}
    (h : Continues stack { st with store := store, depth := depth } m)
    (hnames : st.store.Keeps st.store.frames.size store)
    (hsize : st.store.frames.size ≤ store.frames.size) :
    Continues stack st m where
  control := h.control
  names := hnames.trans (h.names.mono hsize fun _ _ _ => id)
  size := Nat.le_trans hsize h.size
  stack := by
    obtain ⟨added, hstack, hadded, hframe⟩ := h.stack
    refine ⟨added, hstack, hadded, ?_⟩
    have hplaced : Placed st.store.frames.size st.frame (added ++ [])
        m.state.frame := hframe.append rfl hsize
    rwa [List.append_nil] at hplaced

end Continues

section

variable (set : Setting) (stack : List Pending) (st : State)

theorem continues_deliver (result : Except Failure Value) :
    Continues stack st (deliver result stack st) := by
  cases result <;> exact .on stack st fun _ => by rintro ⟨⟩

theorem continues_enterBody (f : Closure) (arguments : List Value)
    (line : Nat) : Continues stack st (enterBody f arguments line stack st) where
  control := fun _ => by rintro ⟨⟩
  names := Store.keeps_addFrame _ _ _
  size := by
    simp only [enterBody, Store.addFrame, Array.size_push]
    exact Nat.le_succ _
  stack := ⟨[.block f.declaration.body st.frame, .body f line], rfl,
    by simp [Pending.OfExpr], Nat.le_refl _, rfl⟩

theorem continues_construct (c : Class) (arguments : List Value) (line : Nat) :
    Continues stack st (construct c arguments line stack st) := by
  have hnames : st.store.Keeps st.store.frames.size st.store.addObject :=
    Store.keeps_of_frames _ rfl
  simp only [construct]
  split
  · exact (Continues.on stack { st with store := st.store.addObject } fun _ => by
      rintro ⟨⟩).after hnames (Nat.le_refl _)
  · next method _ =>
    have hbind := Store.keeps_bindMethod st.store.addObject method
      (.inst ⟨st.store.nextObject, c⟩)
    refine (((continues_enterBody (.construct _ :: stack) _ _ arguments
      line).push trivial fun _ _ => rfl).after (hnames.trans hbind) ?_)
    simp only [Store.bindMethod, Store.makeClosure, Store.addFrame,
      Store.addObject, Array.size_push]
    exact Nat.le_succ _

theorem continues_enter (callee : Callable) (arguments : List Value)
    (line : Nat) :
    Continues stack st (enter set callee arguments line stack st) := by
  cases callee with
  | closure f => exact continues_enterBody stack st f arguments line
  | cls c => exact continues_construct stack st c arguments line
  | native function =>
    simp only [enter]
    split
    · exact .on stack st fun _ => by rintro ⟨⟩
    · split <;> exact .on stack st fun _ => by rintro ⟨⟩

theorem continues_invoke (callee : Callable) (arguments : List Value)
    (line : Nat) :
    Continues stack st (invoke set callee arguments line stack st) := by
  simp only [invoke]
  split
  · exact .on stack st fun _ => by rintro ⟨⟩
  · split
    · exact .on stack st fun _ => by rintro ⟨⟩
    · exact ((continues_enter set (.invocation :: stack) _ callee arguments
        line).push trivial fun _ _ => rfl).after (.refl _ _ _) (Nat.le_refl _)

theorem continues_settle (v : Value) (line : Nat) :
    Continues stack st (settle set v line stack st) := by
  cases v with
  | function f =>
    simp only [settle]
    split
    · exact continues_invoke set stack st _ _ line
    · exact .on stack st fun _ => by rintro ⟨⟩
  | _ => exact .on stack st fun _ => by rintro ⟨⟩

/-- Binding a method makes a frame and nothing else. -/
theorem continues_bound (method : Closure) (object : Value) (line : Nat) :
    Continues stack st
      (settle set (.function (st.store.bindMethod method object).2) line stack
        { st with store := (st.store.bindMethod method object).1 }) := by
  refine (continues_settle set stack _ _ line).after
    (Store.keeps_bindMethod st.store method object) ?_
  simp only [Store.bindMethod, Store.makeClosure, Store.addFrame,
    Array.size_push]
  exact Nat.le_succ _

theorem continues_passArguments (callee : Callable) (line : Nat)
    (earlier : List Value) (later : List Expr) :
    Continues stack st
      (passArguments set callee line earlier later stack st) := by
  cases later with
  | nil => exact continues_invoke set stack st callee _ line
  | cons e later =>
    exact (Continues.on (.argument callee line earlier later :: stack) st
      fun _ => by rintro ⟨⟩).push trivial fun _ _ => rfl

theorem continues_readProperty (object : Value) (id : ObjectId)
    (method? : String → Option Closure) (owner : String) (name : Ident) :
    Continues stack st
      (readProperty set object id method? owner name stack st) := by
  simp only [readProperty]
  split
  · exact continues_settle set stack st _ name.line
  · split
    · exact continues_bound set stack st _ object name.line
    · exact .on stack st fun _ => by rintro ⟨⟩

theorem continues_getProperty (object : Value) (name : Ident) :
    Continues stack st (getProperty set object name stack st) := by
  cases object with
  | inst | cls =>
    simp only [getProperty]
    exact continues_readProperty set stack st _ _ _ _ name
  | _ => exact .on stack st fun _ => by rintro ⟨⟩

theorem continues_bindSuper (superclass : Class) (distance line : Nat)
    (method : Ident) :
    Continues stack st
      (bindSuper set superclass distance line method stack st) := by
  cases distance with
  | zero => exact .on stack st fun _ => by rintro ⟨⟩
  | succ inner =>
    simp only [bindSuper]
    split
    · exact .on stack st fun _ => by rintro ⟨⟩
    · split
      · exact .on stack st fun _ => by rintro ⟨⟩
      · exact continues_bound set stack st _ _ method.line

theorem continues_getSuper (id line : Nat) (method : Ident) :
    Continues stack st (getSuper set id line method stack st) := by
  simp only [getSuper]
  split
  · exact .on stack st fun _ => by rintro ⟨⟩
  · split
    · exact .on stack st fun _ => by rintro ⟨⟩
    · exact continues_bindSuper set stack st _ _ line method
    · exact .on stack st fun _ => by rintro ⟨⟩

theorem continues_evaluate (e : Expr) :
    Continues stack st (evaluate set e stack st) := by
  cases e with
  | literal | group => exact .on stack st fun _ => by rintro ⟨⟩
  | «variable» | this => exact continues_deliver stack st _
  | super id line method => exact continues_getSuper set stack st id line method
  | _ =>
    exact (Continues.on (_ :: stack) st fun _ => by rintro ⟨⟩).push trivial
      fun _ _ => rfl

theorem continues_assign (target : Ref) (v : Value) :
    Continues stack st (assign set target v stack st) := by
  simp only [assign]
  split
  · next owner howner =>
    have hheld : (st.store.valueIn? owner target.name).isSome = true := by
      unfold owner? at howner
      split at howner
      · exact Store.isSome_of_ownerAt? howner
      · exact Store.isSome_of_owner? howner
    refine (Continues.on stack { st with
      store := st.store.define owner target.name v } fun _ => by
        rintro ⟨⟩).after (Store.keeps_define hheld _ v) ?_
    exact Nat.le_of_eq (Store.size_define ..).symm
  · exact .on stack st fun _ => by rintro ⟨⟩

theorem continues_resume {pending : Pending} (hpending : pending.OfExpr)
    (v : Value) : Continues stack st (resume set v pending stack st) := by
  cases pending with
  | unary | binaryRight => exact continues_deliver stack st _
  | binaryLeft op line right =>
    exact (Continues.on (_ :: stack) st fun _ => by rintro ⟨⟩).push trivial
      fun _ _ => rfl
  | logical op right =>
    simp only [resume]
    split <;> exact .on stack st fun _ => by rintro ⟨⟩
  | assign target => exact continues_assign set stack st target v
  | callee line arguments =>
    simp only [resume]
    split
    · exact continues_passArguments set stack st _ line _ _
    · exact .on stack st fun _ => by rintro ⟨⟩
  | argument c line earlier later =>
    exact continues_passArguments set stack st c line _ later
  | get name => exact continues_getProperty set stack st v name
  | setObject name value =>
    simp only [resume]
    split
    · exact (Continues.on (_ :: stack) st fun _ => by rintro ⟨⟩).push trivial
        fun _ _ => rfl
    · exact .on stack st fun _ => by rintro ⟨⟩
  | setValue object name =>
    exact (Continues.on stack { st with
      store := st.store.setField object name v } fun _ => by rintro ⟨⟩).after
        (Store.keeps_of_frames _ rfl) (Nat.le_refl _)
  | construct | body | block => exact .on stack st fun _ => by rintro ⟨⟩
  | invocation =>
    exact (Continues.on stack { st with depth := st.depth - 1 } fun _ => by
      rintro ⟨⟩).after (.refl _ _ _) (Nat.le_refl _)
  | _ => exact hpending.elim

/-! ## Making classes -/

/-- The name of a class is a variable already when the class is made. -/
theorem continues_nameClass (name : Ident) (c : Class) (store : Store)
    (hnames : st.store.Keeps st.store.frames.size store)
    (hsize : st.store.frames.size ≤ store.frames.size) :
    Continues stack st (nameClass name c store stack st) := by
  simp only [nameClass]
  split
  · next owner howner =>
    have hheld : (store.addObject.valueIn? owner name.name).isSome = true :=
      Store.isSome_of_owner? (s := store) howner
    have hadded : store.Keeps st.store.frames.size store.addObject :=
      Store.keeps_of_frames _ rfl
    have hdefine := hadded.trans (Store.keeps_define hheld _ (.cls c))
    refine (Continues.on stack { st with
      store := store.addObject.define owner name.name (.cls c) } fun _ => by
        rintro ⟨⟩).after (hnames.trans hdefine) ?_
    rw [Store.size_define]
    exact hsize
  · exact (Continues.on stack { st with store := store } fun _ => by
      rintro ⟨⟩).after hnames hsize

theorem continues_makeClass (declaration : ClassDecl)
    (superclass : Option Class) :
    Continues stack st (makeClass declaration superclass stack st) := by
  cases superclass with
  | none =>
    rw [makeClass_base]
    have hframes := frames_makeMembers st.frame declaration.methods
      ⟨.empty, .empty⟩ st.store
    exact continues_nameClass stack st _ _ _ (Store.keeps_of_frames _ hframes)
      (Nat.le_of_eq (congrArg Array.size hframes).symm)
  | some parent =>
    rw [makeClass_derived]
    have hframes := frames_makeMembers st.store.nextFrame declaration.methods
      ⟨.empty, .empty⟩ (superStore parent st)
    refine continues_nameClass stack st _ _ _
      ((Store.keeps_addFrame st.store _ _).trans
        (Store.keeps_of_frames _ hframes)) ?_
    rw [hframes]
    simp only [superStore, Store.addFrame, Array.size_push]
    exact Nat.le_succ _

/-- A superclass is checked, and the class is made. -/
theorem continues_inherit (declaration : ClassDecl) (line : Nat) (v : Value) :
    Continues stack st
      (resume set v (.superclass declaration line) stack st) := by
  cases v with
  | cls parent => exact continues_makeClass stack st declaration (some parent)
  | _ => exact .on stack st fun _ => by rintro ⟨⟩

end

end Machine

end Lox
