import Lox.Proofs.Machine.Output

/-!
# One run on two sinks

What a machine does depends on its sink only where the sink refuses bytes.
A step that prints nothing is the same on every sink (`step_withSink`), and
so is a step that prints a line in full; so two machines that are alike but
for the sink stay alike until the one sink refuses what the other one takes
(`alike_step`).  From there on the machine whose sink has refused unwinds its
stack and does nothing else (`runAlong_failed`), which takes no longer than
what the other machine still has to do (`length_runAlong`).
-/

namespace Lox

/-! ## Lines that are taken in part -/

namespace Sink

theorem write_taken {s : Sink} {text : String} (h : (s.write text).2 = none) :
    (s.write text).1 = s.after text := by
  unfold write at h ⊢
  simp only at h ⊢
  split
  · rfl
  · next hpart =>
    rw [if_neg hpart] at h
    cases h

/-- The sink has taken a part of a text, which is a beginning of it. -/
def TookPart (s : Sink) (text : String) (s' : Sink) : Prop :=
  ∃ part rest : ByteArray,
    s' = { s with accepted := s.accepted ++ part } ∧ text.toUTF8 = part ++ rest

theorem tookPart_after (s : Sink) (text : String) :
    s.TookPart text (s.after text) :=
  ⟨text.toUTF8, .empty, rfl, ByteArray.append_empty.symm⟩

theorem write_refused {s : Sink} {text reason : String}
    (h : (s.write text).2 = some reason) :
    reason = s.refusal ∧ s.TookPart text (s.write text).1 := by
  unfold write at h ⊢
  simp only at h ⊢
  split
  · next hfull =>
    rw [if_pos hfull] at h
    cases h
  · next hpart =>
    rw [if_neg hpart] at h
    have hle : s.takes s.accepted text.toUTF8 ≤ text.toUTF8.size := by omega
    refine ⟨(Option.some.inj h).symm, _,
      text.toUTF8.extract (s.takes s.accepted text.toUTF8) text.toUTF8.size,
      rfl, ?_⟩
    rw [← ByteArray.extract_eq_extract_append_extract _ (Nat.zero_le _) hle,
      ByteArray.extract_zero_size]

/-- A line is taken in full or refused in the middle. -/
theorem writeLine_cases (s : Sink) (text : String) :
    s.writeLine text = (s.after (text ++ "\n"), none) ∨
      (s.writeLine text).2 = some s.refusal ∧
        s.TookPart (text ++ "\n") (s.writeLine text).1 := by
  cases hfirst : s.write text with
  | mk s₁ refused =>
    have hfirst' : (s.write text).2 = refused := by rw [hfirst]
    cases refused with
    | some reason =>
      obtain ⟨rfl, part, rest, hs₁, htext⟩ := write_refused hfirst'
      rw [hfirst] at hs₁
      simp only [writeLine, hfirst]
      refine .inr ⟨trivial, part, rest ++ "\n".toUTF8, hs₁, ?_⟩
      rw [String.toUTF8_eq_toByteArray, String.toByteArray_append,
        ← ByteArray.append_assoc]
      exact congrArg (· ++ _) htext
    | none =>
      have hs₁ := write_taken hfirst'
      rw [hfirst] at hs₁
      have hs₁ : s₁ = s.after text := hs₁
      simp only [writeLine, hfirst]
      cases hsecond : s₁.write "\n" with
      | mk s₂ refused =>
        have hsecond' : (s₁.write "\n").2 = refused := by rw [hsecond]
        cases refused with
        | none =>
          have hs₂ := write_taken hsecond'
          rw [hsecond, hs₁, after_after] at hs₂
          have hs₂ : s₂ = s.after (text ++ "\n") := hs₂
          exact .inl (by rw [hs₂])
        | some reason =>
          obtain ⟨rfl, part, rest, hs₂, htext⟩ := write_refused hsecond'
          rw [hsecond, hs₁] at hs₂
          have hrefusal : s₁.refusal = s.refusal := by rw [hs₁]; rfl
          refine .inr ⟨by rw [hrefusal], text.toUTF8 ++ part, rest, ?_, ?_⟩
          · rw [← ByteArray.append_assoc]
            exact hs₂
          · rw [ByteArray.append_assoc, ← htext]
            simp only [String.toUTF8_eq_toByteArray, String.toByteArray_append]

/-- A sink that takes everything, but may fail when it is flushed. -/
theorem writeLine_of_takes {s : Sink}
    (h : ∀ before offered : ByteArray, offered.size ≤ s.takes before offered)
    (text : String) : s.writeLine text = (s.after (text ++ "\n"), none) := by
  have hwrite (t : Sink) (ht : t.takes = s.takes) (text : String) :
      t.write text = (t.after text, none) := by
    simp only [write, ht, h, if_true, after]
  simp only [writeLine, hwrite s rfl, hwrite (s.after text) rfl, after_after]

end Sink

/-! ## Steps on another sink -/

namespace Machine

/-- The machine on another sink. -/
def withSink (sink : Sink) (m : Machine) : Machine :=
  ⟨m.control, m.stack, { m.state with sink := sink }⟩

section

variable (set : Setting) (sink : Sink) (stack : List Pending) (st : State)

theorem deliver_withSink (result : Except Failure Value) :
    deliver result stack { st with sink := sink } =
      (deliver result stack st).withSink sink := by
  cases result <;> rfl

theorem enter_withSink (callee : Callable) (arguments : List Value)
    (line : Nat) :
    enter set callee arguments line stack { st with sink := sink } =
      (enter set callee arguments line stack st).withSink sink := by
  cases callee with
  | closure f => rfl
  | cls c =>
    simp only [enter, construct]
    cases c.findMethod? initializerName <;> rfl
  | native function =>
    simp only [enter]
    cases set.natives[function.id]? with
    | none => rfl
    | some behaviour =>
      simp only
      cases behaviour set.now arguments <;> rfl

theorem invoke_withSink (callee : Callable) (arguments : List Value)
    (line : Nat) :
    invoke set callee arguments line stack { st with sink := sink } =
      (invoke set callee arguments line stack st).withSink sink := by
  simp only [invoke]
  split
  · rfl
  · split
    · rfl
    · exact enter_withSink set sink (.invocation :: stack)
        { st with depth := st.depth + 1 } callee arguments line

theorem settle_withSink (v : Value) (line : Nat) :
    settle set v line stack { st with sink := sink } =
      (settle set v line stack st).withSink sink := by
  cases v with
  | function f =>
    simp only [settle]
    split
    · exact invoke_withSink set sink stack st _ _ line
    · rfl
  | _ => rfl

theorem passArguments_withSink (callee : Callable) (line : Nat)
    (earlier : List Value) (later : List Expr) :
    passArguments set callee line earlier later stack { st with sink := sink } =
      (passArguments set callee line earlier later stack st).withSink sink := by
  cases later with
  | nil => exact invoke_withSink set sink stack st _ _ line
  | cons e later => rfl

theorem readProperty_withSink (object : Value) (id : ObjectId)
    (method? : String → Option Closure) (owner : String) (name : Ident) :
    readProperty set object id method? owner name stack
        { st with sink := sink } =
      (readProperty set object id method? owner name stack st).withSink
        sink := by
  simp only [readProperty]
  cases st.store.field? id name.name with
  | some v => exact settle_withSink set sink stack st v name.line
  | none =>
    cases method? name.name with
    | none => rfl
    | some method =>
      exact settle_withSink set sink stack
        { st with store := (st.store.bindMethod method object).1 } _ name.line

theorem getProperty_withSink (object : Value) (name : Ident) :
    getProperty set object name stack { st with sink := sink } =
      (getProperty set object name stack st).withSink sink := by
  cases object with
  | inst | cls =>
    simp only [getProperty]
    exact readProperty_withSink set sink stack st _ _ _ _ name
  | _ => rfl

theorem getSuper_withSink (id line : Nat) (method : Ident) :
    getSuper set id line method stack { st with sink := sink } =
      (getSuper set id line method stack st).withSink sink := by
  have hbind (superclass : Class) (distance : Nat) :
      bindSuper set superclass distance line method stack
          { st with sink := sink } =
        (bindSuper set superclass distance line method stack st).withSink
          sink := by
    cases distance with
    | zero => rfl
    | succ inner =>
      simp only [bindSuper]
      cases st.store.readAt st.frame inner Keyword.kwThis.lexeme line with
      | error f => rfl
      | ok object =>
        simp only
        cases superclass.findMethod? method.name with
        | none => rfl
        | some f =>
          exact settle_withSink set sink stack
            { st with store := (st.store.bindMethod f object).1 } _ method.line
  simp only [getSuper]
  cases set.distances.find? id with
  | none => rfl
  | some distance =>
    simp only
    cases st.store.readAt st.frame distance Keyword.kwSuper.lexeme line with
    | error f => rfl
    | ok v =>
      cases v with
      | cls c => exact hbind c distance
      | _ => rfl

theorem makeClass_withSink (declaration : ClassDecl)
    (superclass : Option Class) :
    makeClass declaration superclass stack { st with sink := sink } =
      (makeClass declaration superclass stack st).withSink sink := by
  have hname (c : Class) (store : Store) :
      nameClass declaration.name c store stack { st with sink := sink } =
        (nameClass declaration.name c store stack st).withSink sink := by
    simp only [nameClass]
    cases store.owner? st.frame declaration.name.name <;> rfl
  cases superclass <;> exact hname _ _

theorem evaluate_withSink (e : Expr) :
    evaluate set e stack { st with sink := sink } =
      (evaluate set e stack st).withSink sink := by
  cases e with
  | «variable» | this => exact deliver_withSink sink stack st _
  | super id line method => exact getSuper_withSink set sink stack st id line method
  | _ => rfl

theorem execute_withSink (s : Stmt) :
    execute s stack { st with sink := sink } =
      (execute s stack st).withSink sink := by
  cases s with
  | var name initializer => cases initializer <;> rfl
  | «return» line value => cases value <;> rfl
  | «class» declaration =>
    simp only [execute]
    cases declaration.superclass with
    | none =>
      exact makeClass_withSink sink stack
        (defineHere st declaration.name.name .nil) declaration none
    | some parent => rfl
  | _ => rfl

/-- Only `print` looks at the sink. -/
theorem resume_withSink (v : Value) {pending : Pending}
    (h : pending ≠ .print) :
    resume set v pending stack { st with sink := sink } =
      (resume set v pending stack st).withSink sink := by
  cases pending with
  | print => exact absurd rfl h
  | unary | binaryRight => exact deliver_withSink sink stack st _
  | logical op right =>
    simp only [resume]
    split <;> rfl
  | assign target =>
    have howner : owner? set { st with sink := sink } target =
        owner? set st target := rfl
    simp only [resume, assign, howner]
    cases owner? set st target <;> rfl
  | callee line arguments =>
    simp only [resume]
    cases v.callable? with
    | none => rfl
    | some c => exact passArguments_withSink set sink stack st c line [] arguments
  | argument c line earlier later =>
    exact passArguments_withSink set sink stack st c line (v :: earlier) later
  | get name => exact getProperty_withSink set sink stack st v name
  | setObject name value =>
    simp only [resume]
    cases objectId? v <;> rfl
  | branch thenBranch elseBranch =>
    simp only [resume]
    split
    · rfl
    · cases elseBranch <;> rfl
  | loopTest condition body =>
    simp only [resume]
    split <;> rfl
  | superclass declaration line =>
    cases v with
    | cls parent =>
      exact makeClass_withSink sink stack st declaration (some parent)
    | _ => rfl
  | _ => rfl

theorem complete_withSink (c : Completion) (pending : Pending) :
    complete c pending stack { st with sink := sink } =
      (complete c pending stack st).withSink sink := by
  cases pending with
  | loopBody condition body => cases c <;> rfl
  | block later saved => cases c <;> cases later <;> rfl
  | body f line => exact deliver_withSink sink stack st _
  | program later => cases c <;> cases later <;> rfl
  | _ => rfl

end

/-- The value that the machine prints in its next step. -/
def prints? (m : Machine) : Option Value :=
  match m.control, m.stack with
  | .value v, .print :: _ => some v
  | _, _ => none

theorem prints?_withSink (sink : Sink) (m : Machine) :
    (m.withSink sink).prints? = m.prints? :=
  rfl

/-- A step that prints nothing is the same on every sink. -/
theorem step_withSink (set : Setting) (sink : Sink) {m : Machine}
    (h : m.prints? = none) :
    step set (m.withSink sink) = (step set m).withSink sink := by
  obtain ⟨control, stack, st⟩ := m
  cases control with
  | eval e => exact evaluate_withSink set sink stack st e
  | exec s => exact execute_withSink sink stack st s
  | value v =>
    cases stack with
    | nil => rfl
    | cons pending stack =>
      refine resume_withSink set sink stack st v ?_
      rintro rfl
      cases h
  | completed c =>
    cases stack with
    | nil => rfl
    | cons pending stack => exact complete_withSink sink stack st c pending
  | failed f =>
    cases stack with
    | nil => rfl
    | cons pending stack => cases pending <;> rfl
  | stuck => rfl

/-! ## Machines that are alike -/

/-- The machines are the same but for their sinks, each of which has taken
the same text since the start. -/
def Alike (start start' : Sink) (m m' : Machine) : Prop :=
  ∃ text, m.state.sink = start.after text ∧ m' = m.withSink (start'.after text)

/-- The sink of the machine refuses the value that is printed next. -/
def Refuses (m : Machine) (v : Value) : Prop :=
  m.prints? = some v ∧ (m.state.sink.writeLine v.display).2 ≠ none

theorem exists_of_prints? {m : Machine} {v : Value} (h : m.prints? = some v) :
    ∃ stack st, m = ⟨.value v, .print :: stack, st⟩ := by
  obtain ⟨control, stack, st⟩ := m
  simp only [prints?] at h
  split at h
  · cases h
    exact ⟨_, _, rfl⟩
  · cases h

/-- A step that prints nothing leaves the sink alone. -/
theorem sink_step_of_prints? (set : Setting) {m : Machine}
    (h : m.prints? = none) : (step set m).state.sink = m.state.sink :=
  congrArg (fun m => m.state.sink) (step_withSink set m.state.sink h)

/-- Machines that are alike stay so unless the second one has its output
refused. -/
theorem alike_step {start start' : Sink} (hstart : start.Reliable)
    (set : Setting) {m m' : Machine} (h : Alike start start' m m') :
    Alike start start' (step set m) (step set m') ∨ ∃ v, m'.Refuses v := by
  obtain ⟨text, hsink, rfl⟩ := h
  cases hprints : m.prints? with
  | none =>
    refine .inl ⟨text, ?_, step_withSink set _ hprints⟩
    rw [sink_step_of_prints? set hprints, hsink]
  | some v =>
    obtain ⟨stack, st, rfl⟩ := exists_of_prints? hprints
    have hsink : st.sink = start.after text := hsink
    rcases (start'.after text).writeLine_cases v.display with
      htaken | ⟨hrefused, -⟩
    · refine .inl ⟨text ++ (v.display ++ "\n"), ?_, ?_⟩
      · simp only [step, resume, printValue, hsink, (hstart.after text).writeLine,
          Sink.after_after]
      · simp only [step, resume, printValue, withSink, htaken, hsink,
          (hstart.after text).writeLine, Sink.after_after]
    · refine .inr ⟨v, rfl, ?_⟩
      rw [withSink, hrefused]
      exact Option.some_ne_none _

/-- On a sink that never fails a value is printed in full. -/
theorem sink_step_of_reliable (set : Setting) {m : Machine} {v : Value}
    (h : m.prints? = some v) (hsink : m.state.sink.Reliable) :
    (step set m).state.sink = m.state.sink.after (v.display ++ "\n") := by
  obtain ⟨stack, st, rfl⟩ := exists_of_prints? h
  have hsink : st.sink.Reliable := hsink
  simp only [step, resume, printValue, hsink.writeLine]

variable {setting : Float → Setting}

theorem length_ticks (clock : Nat → Float) (n : Nat) :
    (ticks clock n).length = n := by
  rw [ticks, List.length_map, List.length_range]

theorem runAlong_ticks_last (clock : Nat → Float) (n : Nat) (m : Machine) :
    runAlong setting (ticks clock (n + 1)) m =
      step (setting (clock n)) (runAlong setting (ticks clock n) m) := by
  rw [ticks_add, runAlong_append]
  rfl

/-- Two runs are alike to the end, or to a step where the second one has its
output refused. -/
theorem alike_runAlong {start start' : Sink} (hstart : start.Reliable)
    (clock : Nat → Float) {m m' : Machine} (h : Alike start start' m m')
    (n : Nat) :
    Alike start start' (runAlong setting (ticks clock n) m)
        (runAlong setting (ticks clock n) m') ∨
      ∃ j < n, Alike start start' (runAlong setting (ticks clock j) m)
          (runAlong setting (ticks clock j) m') ∧
        ∃ v, (runAlong setting (ticks clock j) m').Refuses v := by
  induction n with
  | zero => exact .inl h
  | succ n ih =>
    rcases ih with halike | ⟨j, hj, hstopped⟩
    · rw [runAlong_ticks_last, runAlong_ticks_last]
      rcases alike_step hstart (setting (clock n)) halike with hnext | hrefuses
      · exact .inl hnext
      · exact .inr ⟨n, Nat.lt_succ_self n, halike, hrefuses⟩
    · exact .inr ⟨j, Nat.lt_succ_of_lt hj, hstopped⟩

/-! ## After a failure -/

/-- The machine has failed and has since then only taken its stack down. -/
structure FailedFrom (f : Failure) (m last : Machine) (steps : Nat) : Prop where
  control : last.control = .failed f
  stack : last.stack = m.stack.drop steps
  store : last.state.store = m.state.store
  sink : last.state.sink = m.state.sink

/-- A machine that has failed takes its stack down, one construct in a step,
and does nothing else. -/
theorem runAlong_failed (setting : Float → Setting) {f : Failure} {m : Machine}
    (h : m.control = .failed f) (times : List Float) :
    FailedFrom f m (runAlong setting times m) times.length := by
  induction times generalizing m with
  | nil => exact ⟨h, rfl, rfl, rfl⟩
  | cons now times ih =>
    obtain ⟨control, stack, st⟩ := m
    cases h
    cases stack with
    | nil =>
      have hlast := ih (m := ⟨.failed f, [], st⟩) rfl
      have hstack : _ = ([] : List Pending) := hlast.stack.trans List.drop_nil
      exact ⟨hlast.control, hstack.trans List.drop_nil.symm, hlast.store,
        hlast.sink⟩
    | cons pending stack =>
      have hlast := ih (m := ⟨.failed f, stack, unwind pending st⟩) rfl
      have hkept : (unwind pending st).store = st.store ∧
          (unwind pending st).sink = st.sink := by
        cases pending <;> exact ⟨rfl, rfl⟩
      exact ⟨hlast.control, hlast.stack, hlast.store.trans hkept.1,
        hlast.sink.trans hkept.2⟩

/-- A machine whose output is refused fails; of the line a part is taken. -/
theorem step_refused (set : Setting) {m : Machine} {v : Value}
    (h : m.Refuses v) :
    (step set m).control = .failed (.output m.state.sink.refusal) ∧
      (step set m).stack = m.stack.tail ∧
      (step set m).state.store = m.state.store ∧
      (step set m).state.sink = (m.state.sink.writeLine v.display).1 ∧
      m.state.sink.TookPart (v.display ++ "\n") (step set m).state.sink := by
  obtain ⟨hprints, hrefused⟩ := h
  obtain ⟨stack, st, rfl⟩ := exists_of_prints? hprints
  rcases st.sink.writeLine_cases v.display with htaken | ⟨hreason, hpart⟩
  · exact absurd (congrArg Prod.snd htaken) hrefused
  · simp only [step, resume, printValue, hreason]
    exact ⟨trivial, rfl, trivial, trivial, hpart⟩

/-- From the step in which its output is refused, a machine only takes its
stack down. -/
theorem runAlong_refused (setting : Float → Setting) {m : Machine} {v : Value}
    (h : m.Refuses v) (now : Float) (times : List Float) :
    let last := runAlong setting (now :: times) m
    last.control = .failed (.output m.state.sink.refusal) ∧
      last.stack = m.stack.drop (times.length + 1) ∧
      last.state.store = m.state.store ∧
      last.state.sink = (m.state.sink.writeLine v.display).1 := by
  obtain ⟨hcontrol, hstack, hstore, hsink, -⟩ := step_refused (setting now) h
  have hlast := runAlong_failed setting hcontrol times
  refine ⟨hlast.control, ?_, hlast.store.trans hstore, hlast.sink.trans hsink⟩
  rw [runAlong, hlast.stack, hstack, List.drop_tail]

/-- A step takes at most one construct off the stack. -/
theorem length_step (set : Setting) (m : Machine) :
    m.stack.length ≤ (step set m).stack.length + 1 := by
  obtain ⟨control, stack, st⟩ := m
  cases stack with
  | nil => exact Nat.zero_le _
  | cons pending stack =>
    -- What lies below the innermost construct has no part in the step.
    have hrunning : (⟨control, [pending], st⟩ : Machine).outcome? = none := by
      cases control <;> rfl
    have hstep := step_onTop set stack hrunning
    have hstack : (step set ⟨control, pending :: stack, st⟩).stack =
        (step set ⟨control, [pending], st⟩).stack ++ stack :=
      congrArg Machine.stack hstep
    rw [hstack, List.length_append, List.length_cons]
    omega

theorem length_runAlong (setting : Float → Setting) (times : List Float)
    (m : Machine) :
    m.stack.length ≤ (runAlong setting times m).stack.length + times.length := by
  induction times generalizing m with
  | nil => exact Nat.le_refl _
  | cons now times ih =>
    have hstep := length_step (setting now) m
    have hrest := ih (step (setting now) m)
    rw [runAlong, List.length_cons]
    omega

end Machine

end Lox
