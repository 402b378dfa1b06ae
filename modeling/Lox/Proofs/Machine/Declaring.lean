import Lox.Proofs.Machine.Continuing
import Lox.Proofs.Machine.Stack

/-!
# Code declares names in its own frame only

A step declares at most one name, and in the current frame: when a `fun` or a
`class` statement or a `var` without a value starts, or when a `var` gets its
value.  `declared?` says which name that is, and `gains_step` that no step
adds any other name to a frame there is.

What runs in a block or in a function runs in a frame that was not there
before (`Placed`).  So of the frames that a statement finds, it can only add
to the one it is executed in, and only the names of the declarations that it
executes there itself (`Standing`, `gains_runAlong`).
-/

namespace Lox

/-! ## Declarations -/

/-- The name that a statement declares in the frame it is executed in. -/
def Stmt.declares? : Stmt → Option String
  | .var name _ => some name.name
  | .function f => some f.name.name
  | .class c => some c.name.name
  | _ => none

/-- The declarations that a statement executes in its own frame: itself, or
those that its branches or its body execute, but none that stands in a block. -/
def Stmt.inPlace : Stmt → List Stmt
  | .var name initializer => [.var name initializer]
  | .function f => [.function f]
  | .class c => [.class c]
  | .ifElse _ thenBranch none => thenBranch.inPlace
  | .ifElse _ thenBranch (some elseBranch) =>
    thenBranch.inPlace ++ elseBranch.inPlace
  | .while _ body => body.inPlace
  | _ => []

namespace Machine

/-- The name that the next step declares in the current frame. -/
def declared? (m : Machine) : Option String :=
  match m with
  | ⟨.exec (.var name none), _, _⟩ => some name.name
  | ⟨.exec (.function f), _, _⟩ => some f.name.name
  | ⟨.exec (.class c), _, _⟩ => some c.name.name
  | ⟨.value _, .define name :: _, _⟩ => some name
  | _ => none

/-! ## What a step declares -/

theorem store_defineHere (st : State) (name : String) (v : Value) :
    (defineHere st name v).store = st.store.define st.frame name v := rfl

theorem gains_execute (s : Stmt) (stack : List Pending) (st : State) :
    st.store.Gains st.store.frames.size
      (fun frame name =>
        frame = st.frame ∧ declared? ⟨.exec s, stack, st⟩ = some name)
      (execute s stack st).state.store := by
  have hdefine (name : String) (v : Value) (store : Store) (n : Nat)
      (hnew : declared? ⟨.exec s, stack, st⟩ = some name) :
      store.Gains n (fun frame name' => frame = st.frame ∧
        declared? ⟨.exec s, stack, st⟩ = some name')
        (store.define st.frame name v) :=
    (Store.gains_define n store st.frame name v).mono (Nat.le_refl _)
      fun _ _ _ h => ⟨h.1, h.2 ▸ hnew⟩
  cases s with
  | «expression» | print | ifElse | «while» => exact .refl _ _ _
  | «return» _ value => cases value <;> exact .refl _ _ _
  | block => exact (Store.keeps_addFrame st.store _ _).gains _
  | var name initializer =>
    cases initializer with
    | some e => exact .refl _ _ _
    | none => exact hdefine name.name .nil st.store _ rfl
  | function f =>
    have hmade : st.store.Keeps st.store.frames.size
        (st.store.makeClosure f st.frame).1 := Store.keeps_of_frames _ rfl
    exact (hmade.gains _).trans (hdefine f.name.name _ _ _ rfl)
  | «class» declaration =>
    have hnamed := hdefine declaration.name.name .nil st.store
      st.store.frames.size rfl
    simp only [execute]
    split
    · have hmade := (continues_makeClass stack
        (defineHere st declaration.name.name .nil) declaration none).names
      rw [store_defineHere, Store.size_define] at hmade
      exact hnamed.trans (hmade.gains _)
    · exact hnamed

/-- A step adds at most the name that it declares, and adds it to the current
frame. -/
theorem gains_step (set : Setting) (m : Machine) :
    m.state.store.Gains m.state.store.frames.size
      (fun frame name => frame = m.state.frame ∧ declared? m = some name)
      (step set m).state.store := by
  obtain ⟨control, stack, st⟩ := m
  cases control with
  | eval e => exact (continues_evaluate set stack st e).names.gains _
  | exec s => exact gains_execute s stack st
  | value v =>
    cases stack with
    | nil => exact .refl _ _ _
    | cons pending stack =>
      by_cases hexpr : pending.OfExpr
      · exact (continues_resume set stack st hexpr v).names.gains _
      cases pending with
      | discard | giveBack | loopBody | program => exact .refl _ _ _
      | print =>
        simp only [step, resume, printValue]
        split <;> exact .refl _ _ _
      | define name =>
        exact (Store.gains_define _ st.store st.frame name v).mono
          (Nat.le_refl _) fun _ _ _ h => ⟨h.1, congrArg some h.2.symm⟩
      | branch thenBranch elseBranch =>
        simp only [step, resume]
        split
        · exact .refl _ _ _
        · cases elseBranch <;> exact .refl _ _ _
      | loopTest =>
        simp only [step, resume]
        split <;> exact .refl _ _ _
      | superclass declaration line =>
        exact (continues_inherit set stack st declaration line v).names.gains _
      | _ => exact absurd trivial hexpr
  | completed c =>
    cases stack with
    | nil => exact .refl _ _ _
    | cons pending stack =>
      have hstore : (complete c pending stack st).state.store = st.store := by
        cases pending with
        | loopBody => cases c <;> rfl
        | block later | program later => cases c <;> cases later <;> rfl
        | body f line =>
          simp only [complete]
          cases resultOf f line c st.store <;> rfl
        | _ => rfl
      simp only [step, hstore]
      exact .refl _ _ _
  | failed f =>
    cases stack with
    | nil => exact .refl _ _ _
    | cons pending stack => cases pending <;> exact .refl _ _ _
  | stuck => exact .refl _ _ _

/-! ## Statements that are executed in place -/

/-- The declarations that a construct still executes in its frame. -/
def Pending.inPlace : Pending → List Stmt
  | .branch thenBranch none => thenBranch.inPlace
  | .branch thenBranch (some elseBranch) =>
    thenBranch.inPlace ++ elseBranch.inPlace
  | .loopTest _ loop | .loopBody _ loop => loop.inPlace
  | _ => []

/-- A construct executes none but the given declarations in its frame, and a
variable that waits for its value is that of a declaration that ran. -/
structure Pending.Stands (parts : List Stmt) (Ran : Stmt → Prop)
    (pending : Pending) : Prop where
  inPlace : ∀ d ∈ pending.inPlace, d ∈ parts
  ran : ∀ name, pending = .define name →
    ∃ d ∈ parts, d.declares? = some name ∧ Ran d
  noProgram : ∀ later, pending ≠ .program later

/-- The constructs outside of all blocks do. -/
def StandsIn (parts : List Stmt) (Ran : Stmt → Prop) : List Pending → Prop
  | [] => True
  | pending :: rest =>
    (InPlace rest → pending.Stands parts Ran) ∧ StandsIn parts Ran rest

/-- The stack and the state of a run of the given declarations, in which those
in `Ran` have been executed, that started in the frame `base` when there were
`n` frames. -/
structure Rooted (n : Nat) (base : FrameId) (parts : List Stmt)
    (Ran : Stmt → Prop) (stack : List Pending) (st : State) : Prop where
  size : n ≤ st.store.frames.size
  placed : Placed n base stack st.frame
  stands : StandsIn parts Ran stack

/-- A machine in the middle of such a run, or stuck. -/
structure Standing (n : Nat) (base : FrameId) (parts : List Stmt)
    (Ran : Stmt → Prop) (m : Machine) : Prop where
  rooted : m.control ≠ .stuck → Rooted n base parts Ran m.stack m.state
  exec : InPlace m.stack → ∀ s, m.control = .exec s →
    ∀ d ∈ s.inPlace, d ∈ parts

section

variable {n : Nat} {base : FrameId} {parts : List Stmt}
  {Ran Q : Stmt → Prop} {stack : List Pending} {st : State} {m : Machine}

theorem Pending.OfExpr.stands {p : Pending} (h : p.OfExpr) :
    p.Stands parts Ran := by
  cases p with
  | discard | print | define | branch | loopTest | giveBack | superclass
  | loopBody | program => exact h.elim
  | _ =>
    refine ⟨?_, ?_, ?_⟩
    · simp [Pending.inPlace]
    · simp
    · simp

theorem Pending.Stands.mono {pending : Pending}
    (h : pending.Stands parts Ran) (himp : ∀ d, Ran d → Q d) :
    pending.Stands parts Q where
  inPlace := h.inPlace
  ran := by
    intro name heq
    obtain ⟨d, hd, hname, hran⟩ := h.ran name heq
    exact ⟨d, hd, hname, himp d hran⟩
  noProgram := h.noProgram

theorem StandsIn.mono (h : StandsIn parts Ran stack)
    (himp : ∀ d, Ran d → Q d) : StandsIn parts Q stack := by
  induction stack with
  | nil => trivial
  | cons pending rest ih =>
    exact ⟨fun hplace => (h.1 hplace).mono himp, ih h.2⟩

theorem StandsIn.append {added : List Pending}
    (hadded : ∀ p ∈ added, p.OfExpr) (h : StandsIn parts Ran stack) :
    StandsIn parts Ran (added ++ stack) := by
  induction added with
  | nil => exact h
  | cons pending rest ih =>
    rw [List.forall_mem_cons] at hadded
    exact ⟨fun _ => hadded.1.stands, ih hadded.2⟩

namespace Rooted

theorem mono (h : Rooted n base parts Ran stack st)
    (himp : ∀ d, Ran d → Q d) : Rooted n base parts Q stack st :=
  ⟨h.size, h.placed, h.stands.mono himp⟩

/-- The store and more can change while the current frame stays. -/
theorem change (h : Rooted n base parts Ran stack st) {t : State}
    (hsize : st.store.frames.size ≤ t.store.frames.size)
    (hframe : t.frame = st.frame) : Rooted n base parts Ran stack t :=
  ⟨Nat.le_trans h.size hsize, hframe ▸ h.placed, h.stands⟩

theorem define (h : Rooted n base parts Ran stack st) (name : String)
    (v : Value) : Rooted n base parts Ran stack (defineHere st name v) :=
  h.change (Nat.le_of_eq (Store.size_define ..).symm) rfl

theorem push (h : Rooted n base parts Ran stack st) {p : Pending}
    (hplaced : Placed n st.frame [p] st.frame)
    (hstands : InPlace stack → p.Stands parts Ran) :
    Rooted n base parts Ran (p :: stack) st :=
  ⟨h.size, hplaced.append h.placed (Nat.le_refl n), hstands, h.stands⟩

/-- No statement starts. -/
theorem standing (h : Rooted n base parts Ran stack st) {c : Control}
    (hcontrol : ∀ s, c ≠ .exec s) :
    Standing n base parts Ran ⟨c, stack, st⟩ :=
  ⟨fun _ => h, fun _ s heq => absurd heq (hcontrol s)⟩

/-- The machine goes on with a part of an expression. -/
theorem continues (h : Rooted n base parts Ran stack st)
    (hm : Continues stack st m) : Standing n base parts Ran m := by
  obtain ⟨added, hstack, hadded, hplaced⟩ := hm.stack
  refine ⟨fun _ => ⟨Nat.le_trans h.size hm.size, ?_, ?_⟩,
    fun _ s heq => absurd heq (hm.control s)⟩
  · rw [hstack]
    exact hplaced.append h.placed h.size
  · rw [hstack]
    exact h.stands.append hadded

end Rooted

/-! ## Steps of such a run -/

/-- What a statement does first. -/
theorem standing_execute {s : Stmt} (h : Rooted n base parts Ran stack st)
    (hs : InPlace stack → ∀ d ∈ s.inPlace, d ∈ parts)
    (hran : InPlace stack → Ran s) :
    Standing n base parts Ran (execute s stack st) := by
  -- A construct of this statement that waits for an expression.
  have hwait (pending : Pending) (e : Expr)
      (hplaced : Placed n st.frame [pending] st.frame)
      (hparts : ∀ d ∈ pending.inPlace, d ∈ s.inPlace)
      (hdefine : ∀ name, pending = .define name →
        s ∈ s.inPlace ∧ s.declares? = some name)
      (hprogram : ∀ later, pending ≠ .program later) :
      Standing n base parts Ran ⟨.eval e, pending :: stack, st⟩ := by
    refine (h.push hplaced fun hplace => ⟨?_, ?_, hprogram⟩).standing fun _ => by
      rintro ⟨⟩
    · exact fun d hd => hs hplace d (hparts d hd)
    · intro name heq
      obtain ⟨hmem, hname⟩ := hdefine name heq
      exact ⟨s, hs hplace s hmem, hname, hran hplace⟩
  cases s with
  | «expression» e =>
    exact hwait .discard e rfl (by simp [Pending.inPlace]) (by simp) (by simp)
  | print e =>
    exact hwait .print e rfl (by simp [Pending.inPlace]) (by simp) (by simp)
  | var name initializer =>
    cases initializer with
    | none => exact (h.define name.name .nil).standing fun _ => by rintro ⟨⟩
    | some e =>
      refine hwait (.define name.name) e rfl (by simp [Pending.inPlace]) ?_
        (by simp)
      rintro _ ⟨⟩
      exact ⟨by simp [Stmt.inPlace], rfl⟩
  | block body =>
    have hsize : n ≤ st.store.nextFrame := h.size
    refine ⟨fun _ => ⟨?_, ⟨hsize, h.placed⟩, fun _ => ?_, h.stands⟩,
      fun hplace => hplace.elim⟩
    · simp only [execute, Store.addFrame, Array.size_push]
      exact Nat.le_succ_of_le h.size
    · exact Pending.OfExpr.stands (p := .block _ _) trivial
  | ifElse condition thenBranch elseBranch =>
    exact hwait (.branch thenBranch elseBranch) condition rfl
      (by cases elseBranch <;> simp [Pending.inPlace, Stmt.inPlace]) (by simp)
      (by simp)
  | «while» condition body =>
    exact hwait (.loopTest condition body) condition rfl
      (by simp [Pending.inPlace, Stmt.inPlace]) (by simp) (by simp)
  | function f =>
    have hmade := h.change (t := { st with
      store := (st.store.makeClosure f st.frame).1 }) (Nat.le_refl _) rfl
    exact (hmade.define f.name.name _).standing fun _ => by rintro ⟨⟩
  | «return» line value =>
    cases value with
    | none => exact h.standing fun _ => by rintro ⟨⟩
    | some e =>
      exact hwait .giveBack e rfl (by simp [Pending.inPlace]) (by simp)
        (by simp)
  | «class» declaration =>
    have hnamed := h.define declaration.name.name .nil
    simp only [execute]
    split
    · exact hnamed.continues (continues_makeClass stack _ declaration none)
    · next parent _ =>
      have hwaits := hnamed.push
        (p := .superclass declaration parent.line) rfl fun _ =>
          ⟨by simp [Pending.inPlace], by simp, by simp⟩
      exact hwaits.standing fun _ => by rintro ⟨⟩

/-- A value is handed to a construct. -/
theorem standing_resume (set : Setting) (v : Value) {pending : Pending}
    (h : Rooted n base parts Ran (pending :: stack) st) :
    Standing n base parts Ran (resume set v pending stack st) := by
  have hstands := h.stands.1
  have hrest (hplaced : Placed n base stack st.frame) :
      Rooted n base parts Ran stack st := ⟨h.size, hplaced, h.stands.2⟩
  cases pending with
  | block => exact ⟨fun hstuck => absurd rfl hstuck, fun _ _ => by rintro ⟨⟩⟩
  | discard | giveBack =>
    exact (hrest h.placed).standing fun _ => by rintro ⟨⟩
  | loopBody | program =>
    exact (hrest h.placed).standing (c := .stuck) fun _ => by rintro ⟨⟩
  | print =>
    have hprinted := (hrest h.placed).change (t := { st with
      sink := (st.sink.writeLine v.display).1 }) (Nat.le_refl _) rfl
    simp only [resume, printValue]
    split <;> exact hprinted.standing fun _ => by rintro ⟨⟩
  | define name =>
    exact ((hrest h.placed).define name v).standing fun _ => by rintro ⟨⟩
  | branch thenBranch elseBranch =>
    simp only [resume]
    split
    · refine ⟨fun _ => hrest h.placed, ?_⟩
      rintro hplace _ ⟨⟩ d hd
      refine (hstands hplace).inPlace d ?_
      cases elseBranch with
      | none => exact hd
      | some => exact List.mem_append_left _ hd
    · cases elseBranch with
      | none => exact (hrest h.placed).standing fun _ => by rintro ⟨⟩
      | some =>
        refine ⟨fun _ => hrest h.placed, ?_⟩
        rintro hplace _ ⟨⟩ d hd
        exact (hstands hplace).inPlace d (List.mem_append_right _ hd)
  | loopTest condition body =>
    simp only [resume]
    split
    · refine ⟨fun _ => (hrest h.placed).push
        (p := .loopBody condition body) rfl fun hplace =>
          ⟨(hstands hplace).inPlace, by simp, by simp⟩, ?_⟩
      rintro hplace _ ⟨⟩
      exact (hstands hplace).inPlace
    · exact (hrest h.placed).standing fun _ => by rintro ⟨⟩
  | superclass declaration line =>
    exact (hrest h.placed).continues (continues_inherit set stack st declaration line v)
  | unary | binaryLeft | binaryRight | logical | assign | callee | argument
  | get | setObject | setValue | construct | invocation | body =>
    exact (hrest h.placed).continues
      (continues_resume set stack st (by trivial) v)

/-- A completion is handed to a construct. -/
theorem standing_complete (c : Completion) {pending : Pending}
    (h : Rooted n base parts Ran (pending :: stack) st) :
    Standing n base parts Ran (complete c pending stack st) := by
  have hstands := h.stands.1
  have hrest (hplaced : Placed n base stack st.frame) :
      Rooted n base parts Ran stack st := ⟨h.size, hplaced, h.stands.2⟩
  cases pending with
  | loopBody condition body =>
    have hstack := hrest h.placed
    cases c with
    | returned => exact hstack.standing fun _ => by rintro ⟨⟩
    | normal =>
      have hloop := hstack.push (p := .loopTest condition body) rfl
        fun hplace => ⟨(hstands hplace).inPlace, by simp, by simp⟩
      exact hloop.standing fun _ => by rintro ⟨⟩
  | block later saved =>
    have hstack : Rooted n base parts Ran stack { st with frame := saved } :=
      ⟨h.size, h.placed.2, h.stands.2⟩
    cases c with
    | returned => exact hstack.standing fun _ => by rintro ⟨⟩
    | normal =>
      cases later with
      | nil => exact hstack.standing fun _ => by rintro ⟨⟩
      | cons s later =>
        exact ⟨fun _ => ⟨h.size, h.placed, fun _ =>
          Pending.OfExpr.stands (p := .block later saved) trivial,
          h.stands.2⟩,
          fun hplace => hplace.elim⟩
  | program later =>
    have hstack := hrest h.placed
    have hblocked (hplace : InPlace stack) : False :=
      (hstands hplace).noProgram later rfl
    cases c with
    | returned => exact hstack.standing fun _ => by rintro ⟨⟩
    | normal =>
      cases later with
      | nil => exact hstack.standing fun _ => by rintro ⟨⟩
      | cons s later =>
        exact ⟨fun _ => hstack.push (p := .program later) rfl
          fun hplace => (hblocked hplace).elim,
          fun hplace => (hblocked hplace).elim⟩
  | body f line =>
    exact (hrest h.placed).continues (continues_deliver stack st _)
  | _ =>
    exact (hrest h.placed).standing (c := .stuck) fun _ => by rintro ⟨⟩

/-- A failure leaves a construct. -/
theorem standing_unwind (f : Failure) {pending : Pending}
    (h : Rooted n base parts Ran (pending :: stack) st) :
    Standing n base parts Ran ⟨.failed f, stack, unwind pending st⟩ := by
  have hrest := h.stands.2
  refine Rooted.standing ?_ fun _ => by rintro ⟨⟩
  cases pending with
  | block later saved => exact ⟨h.size, h.placed.2, hrest⟩
  | _ => exact ⟨h.size, h.placed, hrest⟩

/-- A step keeps what stands, and a statement that it starts in place has
been executed then. -/
theorem standing_step (set : Setting) (h : Standing n base parts Ran m) :
    Standing n base parts
      (fun d => Ran d ∨ m.control = .exec d ∧ InPlace m.stack)
      (step set m) := by
  obtain ⟨control, stack, st⟩ := m
  have hrooted (hcontrol : control ≠ .stuck) :=
    (h.rooted hcontrol).mono (Q := fun d =>
      Ran d ∨ control = .exec d ∧ InPlace stack) fun _ => .inl
  cases control with
  | eval e =>
    exact (hrooted (by simp)).continues (continues_evaluate set stack st e)
  | exec s =>
    exact standing_execute (hrooted (by simp))
      (fun hplace => h.exec hplace s rfl) fun hplace => .inr ⟨rfl, hplace⟩
  | value v =>
    cases stack with
    | nil => exact (hrooted (by simp)).standing fun _ => by rintro ⟨⟩
    | cons pending stack => exact standing_resume set v (hrooted (by simp))
  | completed c =>
    cases stack with
    | nil => exact (hrooted (by simp)).standing fun _ => by rintro ⟨⟩
    | cons pending stack => exact standing_complete c (hrooted (by simp))
  | failed f =>
    cases stack with
    | nil => exact (hrooted (by simp)).standing fun _ => by rintro ⟨⟩
    | cons pending stack => exact standing_unwind f (hrooted (by simp))
  | stuck => exact ⟨fun hstuck => absurd rfl hstuck, fun _ _ => by rintro ⟨⟩⟩

/-- A step adds no name to the frames there were in the beginning, except in
place and to the first of them. -/
theorem Standing.gains_inPlace (set : Setting)
    (h : Standing n base parts Ran m) :
    m.state.store.Gains n
      (fun frame name =>
        frame = base ∧ InPlace m.stack ∧ declared? m = some name)
      (step set m).state.store := by
  by_cases hcontrol : m.control = .stuck
  · obtain ⟨control, stack, st⟩ := m
    cases hcontrol
    exact .refl _ _ _
  have hrooted := h.rooted hcontrol
  refine (gains_step set m).mono hrooted.size ?_
  rintro frame hlt name ⟨rfl, hname⟩
  have hplace : InPlace m.stack := Classical.byContradiction fun hplace =>
    Nat.not_lt.2 (hrooted.placed.le_of_not_inPlace hplace) hlt
  exact ⟨hrooted.placed.eq_of_inPlace hplace, hplace, hname⟩

/-- Each of these names is that of a declaration that has been executed in
place. -/
theorem Standing.gains (set : Setting) (h : Standing n base parts Ran m) :
    m.state.store.Gains n
      (fun frame name => frame = base ∧ ∃ d ∈ parts, d.declares? = some name ∧
        (Ran d ∨ m.control = .exec d ∧ InPlace m.stack))
      (step set m).state.store := by
  refine (h.gains_inPlace set).mono (Nat.le_refl _) ?_
  rintro frame - name ⟨hframe, hplace, hname⟩
  refine ⟨hframe, ?_⟩
  have hdeclaration (d : Stmt) (hexec : m.control = .exec d)
      (hmem : d ∈ d.inPlace) (hd : d.declares? = some name) :
      ∃ d ∈ parts, d.declares? = some name ∧
        (Ran d ∨ m.control = .exec d ∧ InPlace m.stack) :=
    ⟨d, h.exec hplace d hexec d hmem, hd, .inr ⟨hexec, hplace⟩⟩
  unfold declared? at hname
  split at hname
  · exact hdeclaration _ rfl (by simp [Stmt.inPlace]) hname
  · exact hdeclaration _ rfl (by simp [Stmt.inPlace]) hname
  · exact hdeclaration _ rfl (by simp [Stmt.inPlace]) hname
  · cases hname
    have hrooted := h.rooted (by simp)
    obtain ⟨d, hd, hdeclares, hran⟩ := (hrooted.stands.1 hplace).ran _ rfl
    exact ⟨d, hd, hdeclares, .inl hran⟩
  · cases hname

/-- A step in a block adds no name to the frames there were in the
beginning. -/
theorem Standing.keeps (set : Setting) (h : Standing n base parts Ran m)
    (hplace : ¬ InPlace m.stack) :
    m.state.store.Keeps n (step set m).state.store := by
  refine (h.gains_inPlace set).mono (Nat.le_refl _) ?_
  rintro frame - name ⟨-, hin, -⟩
  exact hplace hin

end

/-! ## Runs -/

/-- In a run from `m` along the times the statement is executed in place. -/
def Executes (setting : Float → Setting) :
    List Float → Machine → Stmt → Prop
  | [], _, _ => False
  | now :: times, m, s =>
    m.control = .exec s ∧ InPlace m.stack ∨
      Executes setting times (step (setting now) m) s

variable {n : Nat} {base : FrameId} {parts : List Stmt}
  {Ran : Stmt → Prop} {m : Machine} {setting : Float → Setting}

theorem standing_runAlong (times : List Float)
    (h : Standing n base parts Ran m) :
    Standing n base parts
      (fun d => Ran d ∨ Executes setting times m d)
      (runAlong setting times m) := by
  induction times generalizing m Ran with
  | nil =>
    exact ⟨fun hcontrol => (h.rooted hcontrol).mono fun _ => .inl, h.exec⟩
  | cons now times ih =>
    have hrest := ih (standing_step (setting now) h)
    refine ⟨fun hcontrol => (hrest.rooted hcontrol).mono ?_, hrest.exec⟩
    rintro d ((hran | hexec) | hlater)
    · exact .inl hran
    · exact .inr (.inl hexec)
    · exact .inr (.inr hlater)

theorem gains_runAlong (times : List Float)
    (h : Standing n base parts Ran m) :
    m.state.store.Gains n
      (fun frame name => frame = base ∧ ∃ d ∈ parts, d.declares? = some name ∧
        (Ran d ∨ Executes setting times m d))
      (runAlong setting times m).state.store := by
  induction times generalizing m Ran with
  | nil => exact .refl _ _ _
  | cons now times ih =>
    have hrest := ih (standing_step (setting now) h)
    refine ((h.gains (setting now)).mono (Nat.le_refl _) ?_).trans
      (hrest.mono (Nat.le_refl _) ?_)
    · rintro frame - name ⟨hframe, d, hd, hname, hran | hexec⟩
      · exact ⟨hframe, d, hd, hname, .inl hran⟩
      · exact ⟨hframe, d, hd, hname, .inr (.inl hexec)⟩
    · rintro frame - name ⟨hframe, d, hd, hname, (hran | hexec) | hlater⟩
      · exact ⟨hframe, d, hd, hname, .inl hran⟩
      · exact ⟨hframe, d, hd, hname, .inr (.inl hexec)⟩
      · exact ⟨hframe, d, hd, hname, .inr (.inr hlater)⟩

/-- An expression or a statement starts where nothing is pending. -/
theorem standing_start (st : State) (control : Control) (parts : List Stmt)
    (hparts : ∀ s, control = .exec s → ∀ d ∈ s.inPlace, d ∈ parts) :
    Standing st.store.frames.size st.frame parts (fun _ => False)
      ⟨control, [], st⟩ :=
  ⟨fun _ => ⟨Nat.le_refl _, rfl, trivial⟩, fun _ => hparts⟩

/-- Code declares names in its own frame only.  After any number of steps, and
so at any end, the frames that were there before have their parents and have
lost no name.  Evaluating an expression gives them no new name.  Executing a
statement gives new names to none but the current frame, and each is the name
of a declaration that has been executed in it directly.  While a block or a
function runs, no frame that was there before the statement gets a name. -/
theorem declares_in_own_frame (setting : Float → Setting) (times : List Float)
    (st : State) :
    (∀ e, st.store.Keeps st.store.frames.size
      (runAlong setting times ⟨.eval e, [], st⟩).state.store) ∧
    (∀ s, st.store.Gains st.store.frames.size
      (fun frame name => frame = st.frame ∧
        ∃ d ∈ s.inPlace, d.declares? = some name ∧
          Executes setting times ⟨.exec s, [], st⟩ d)
      (runAlong setting times ⟨.exec s, [], st⟩).state.store) ∧
    ∀ s now, ¬ InPlace (runAlong setting times ⟨.exec s, [], st⟩).stack →
      (runAlong setting times ⟨.exec s, [], st⟩).state.store.Keeps
        st.store.frames.size
        (step (setting now)
          (runAlong setting times ⟨.exec s, [], st⟩)).state.store := by
  have hstatement (s : Stmt) := standing_start st (.exec s) s.inPlace
    (by rintro _ ⟨⟩ d hd; exact hd)
  refine ⟨fun e => ?_, fun s => ?_, fun s now hplace => ?_⟩
  · have hstart := standing_start st (.eval e) []
      (by rintro _ ⟨⟩)
    refine (gains_runAlong times hstart).mono (Nat.le_refl _) ?_
    rintro frame - name ⟨-, d, hd, -⟩
    cases hd
  · refine (gains_runAlong times (hstatement s)).mono (Nat.le_refl _) ?_
    rintro frame - name ⟨hframe, d, hd, hname, hran | hexec⟩
    · exact hran.elim
    · exact ⟨hframe, d, hd, hname, hexec⟩
  · exact (standing_runAlong times (hstatement s)).keeps (setting now) hplace

/-- One frame, and no native functions. -/
def sampleFrame : State :=
  ⟨Store.empty.addFrame none .empty, .unlimited, 0, 0⟩

/-- A variable in a block. -/
def sampleBlock : Stmt :=
  .block [.var ⟨"a", 1⟩ none]

/-- After two steps the variable of the block is about to be declared, and not
in the frame that was there before. -/
theorem declares_in_own_frame_sample :
    let setting (now : Float) : Setting := ⟨8, .empty, #[], now, 0⟩
    let m := runAlong setting [0, 0] ⟨.exec sampleBlock, [], sampleFrame⟩
    declared? m = some "a" ∧ ¬ InPlace m.stack ∧
      m.state.store.Keeps 1 (step (setting 0) m).state.store :=
  have hplace : ¬ InPlace [.block [] 0] := fun h => h
  ⟨rfl, hplace,
    (declares_in_own_frame _ [0, 0] sampleFrame).2.2 sampleBlock 0 hplace⟩

end Machine

end Lox
