import Lox.Proofs.Machine.Run

/-!
# What a run prints

Only `print` touches the sink: a step leaves it alone or offers it one line
(`sink_step`).  A sink that never fails takes all that it is offered, so what
a run prints is a text, and the texts of runs one after the other are joined
(`sink_runAlong`, `Sink.textFrom_after`).  Whatever the sink, nothing that was
printed is taken back (`precedes_runAlong`).
-/

namespace Lox

namespace Sink

/-- The sink takes everything and never fails. -/
structure Reliable (s : Sink) : Prop where
  takes : ∀ before offered : ByteArray, offered.size ≤ s.takes before offered
  flush : s.flushFault = none

/-- The sink after a text that was taken in full. -/
def after (s : Sink) (text : String) : Sink :=
  { s with accepted := s.accepted ++ text.toUTF8 }

theorem Reliable.after {s : Sink} (h : s.Reliable) (text : String) :
    (s.after text).Reliable :=
  ⟨h.takes, h.flush⟩

theorem Reliable.write {s : Sink} (h : s.Reliable) (text : String) :
    s.write text = (s.after text, none) := by
  simp only [Sink.write, h.takes, if_true, Sink.after]

theorem after_after (s : Sink) (text text' : String) :
    (s.after text).after text' = s.after (text ++ text') := by
  simp only [after, String.toUTF8_eq_toByteArray, String.toByteArray_append,
    ByteArray.append_assoc]

@[simp] theorem after_empty (s : Sink) : s.after "" = s := by
  simp only [after, String.toUTF8_eq_toByteArray, String.toByteArray_empty,
    ByteArray.append_empty]

theorem Reliable.writeLine {s : Sink} (h : s.Reliable) (text : String) :
    s.writeLine text = (s.after (text ++ "\n"), none) := by
  simp only [Sink.writeLine, h.write, (h.after text).write, after_after]

/-- What was taken last can be read back. -/
theorem textFrom_after (s : Sink) (text : String) :
    (s.after text).textFrom s.accepted.size = text := by
  have hbytes : (s.after text).accepted.extract s.accepted.size
      (s.after text).accepted.size = text.toUTF8 := by
    exact ByteArray.extract_append_eq_right rfl ByteArray.size_append
  have hread : String.fromUTF8? text.toUTF8 = some text := by
    have hvalid : text.toByteArray.IsValidUTF8 := text.isValidUTF8
    simp [String.fromUTF8?, String.fromUTF8, hvalid]
  rw [textFrom, hbytes, hread, Option.getD_some]

/-! ## Sinks that take more -/

/-- The sink takes what it is offered in full or not at all. -/
def Whole (s : Sink) : Prop :=
  ∀ before offered : ByteArray,
    offered.size ≤ s.takes before offered ∨ s.takes before offered = 0

/-- The second sink is the first one after more bytes, which are those of a
text if the sink takes no part of what it is offered. -/
def Precedes (s s' : Sink) : Prop :=
  ∃ more : ByteArray, s' = { s with accepted := s.accepted ++ more } ∧
    (s.Whole → ∃ text : String, more = text.toUTF8)

theorem Precedes.refl (s : Sink) : s.Precedes s :=
  ⟨.empty, by rw [ByteArray.append_empty], fun _ => ⟨"", rfl⟩⟩

theorem Precedes.trans {s s' s'' : Sink} (h : s.Precedes s')
    (h' : s'.Precedes s'') : s.Precedes s'' := by
  obtain ⟨more, rfl, htext⟩ := h
  obtain ⟨more', rfl, htext'⟩ := h'
  refine ⟨more ++ more', by rw [← ByteArray.append_assoc], fun hwhole => ?_⟩
  obtain ⟨text, rfl⟩ := htext hwhole
  obtain ⟨text', rfl⟩ := htext' hwhole
  refine ⟨text ++ text', ?_⟩
  simp only [String.toUTF8_eq_toByteArray, String.toByteArray_append]

theorem precedes_write (s : Sink) (text : String) :
    s.Precedes (s.write text).1 := by
  unfold write
  simp only
  split
  · exact ⟨text.toUTF8, rfl, fun _ => ⟨text, rfl⟩⟩
  · next hpart =>
    refine ⟨_, rfl, fun hwhole => ⟨"", ?_⟩⟩
    rcases hwhole s.accepted text.toUTF8 with hfull | hnone
    · exact absurd hfull hpart
    · rw [hnone, ByteArray.extract_same]
      rfl

theorem precedes_writeLine (s : Sink) (text : String) :
    s.Precedes (s.writeLine text).1 := by
  have hfirst := precedes_write s text
  unfold writeLine
  split
  · next s' heq =>
    rw [heq] at hfirst
    exact hfirst.trans (precedes_write s' "\n")
  · next s' reason heq =>
    rw [heq] at hfirst
    exact hfirst

/-- What was printed up to the first sink is printed up to the second one. -/
theorem Precedes.textFrom {s s' s'' : Sink} (h : s.Precedes s')
    (h' : s'.Precedes s'') (hwhole : s.Whole) :
    ∃ more, s''.textFrom s.accepted.size = s'.textFrom s.accepted.size ++ more := by
  obtain ⟨_, rfl, htext⟩ := h
  obtain ⟨_, rfl, htext'⟩ := h'
  obtain ⟨text, rfl⟩ := htext hwhole
  obtain ⟨text', rfl⟩ := htext' hwhole
  have hjoined := after_after s text text'
  refine ⟨text', ?_⟩
  rw [show ({ s with accepted := s.accepted ++ text.toUTF8 } : Sink) =
    s.after text from rfl, textFrom_after, ← textFrom_after s (text ++ text'),
    ← hjoined]
  rfl

end Sink

namespace Machine

/-! ## One step -/

section

variable (set : Setting) (stack : List Pending) (st : State)

theorem sink_deliver (result : Except Failure Value) :
    (deliver result stack st).state.sink = st.sink := by
  cases result <;> rfl

theorem sink_enter (callee : Callable) (arguments : List Value) (line : Nat) :
    (enter set callee arguments line stack st).state.sink = st.sink := by
  cases callee with
  | closure f => rfl
  | cls c =>
    simp only [enter, construct]
    split <;> rfl
  | native function =>
    simp only [enter]
    split
    · rfl
    · split <;> rfl

theorem sink_invoke (callee : Callable) (arguments : List Value) (line : Nat) :
    (invoke set callee arguments line stack st).state.sink = st.sink := by
  simp only [invoke]
  split
  · rfl
  · split
    · rfl
    · exact sink_enter set _ _ callee arguments line

theorem sink_settle (v : Value) (line : Nat) :
    (settle set v line stack st).state.sink = st.sink := by
  cases v with
  | function f =>
    simp only [settle]
    split
    · exact sink_invoke set stack st _ _ line
    · rfl
  | _ => rfl

theorem sink_passArguments (callee : Callable) (line : Nat)
    (earlier : List Value) (later : List Expr) :
    (passArguments set callee line earlier later stack st).state.sink =
      st.sink := by
  cases later with
  | nil => exact sink_invoke set stack st _ _ line
  | cons e later => rfl

theorem sink_getProperty (object : Value) (name : Ident) :
    (getProperty set object name stack st).state.sink = st.sink := by
  have hread (object : Value) (id : ObjectId)
      (method? : String → Option Closure) (owner : String) :
      (readProperty set object id method? owner name stack st).state.sink =
        st.sink := by
    simp only [readProperty]
    split
    · exact sink_settle set stack st _ name.line
    · split
      · exact sink_settle set stack _ _ name.line
      · rfl
  cases object with
  | inst | cls => exact hread _ _ _ _
  | _ => rfl

theorem sink_getSuper (id line : Nat) (method : Ident) :
    (getSuper set id line method stack st).state.sink = st.sink := by
  simp only [getSuper]
  split
  · rfl
  · split
    · rfl
    · next distance _ _ superclass _ =>
      cases distance with
      | zero => rfl
      | succ inner =>
        simp only [bindSuper]
        split
        · rfl
        · split
          · rfl
          · exact sink_settle set stack _ _ method.line
    · rfl

theorem sink_makeClass (declaration : ClassDecl) (superclass : Option Class) :
    (makeClass declaration superclass stack st).state.sink = st.sink := by
  have hname (c : Class) (store : Store) :
      (nameClass declaration.name c store stack st).state.sink = st.sink := by
    simp only [nameClass]
    split <;> rfl
  cases superclass <;> exact hname _ _

theorem sink_evaluate (e : Expr) :
    (evaluate set e stack st).state.sink = st.sink := by
  cases e with
  | «variable» | this => exact sink_deliver stack st _
  | super id line method => exact sink_getSuper set stack st id line method
  | _ => rfl

theorem sink_execute (s : Stmt) :
    (execute s stack st).state.sink = st.sink := by
  cases s with
  | var name initializer => cases initializer <;> rfl
  | «return» line value => cases value <;> rfl
  | «class» declaration =>
    simp only [execute]
    split
    · exact sink_makeClass stack _ declaration none
    · rfl
  | _ => rfl

theorem sink_resume (v : Value) (pending : Pending) :
    (resume set v pending stack st).state.sink = st.sink ∨
      ∃ text, (resume set v pending stack st).state.sink =
        (st.sink.writeLine text).1 := by
  cases pending with
  | print =>
    refine .inr ⟨v.display, ?_⟩
    simp only [resume, printValue]
    split <;> rfl
  | unary | binaryRight => exact .inl (sink_deliver stack st _)
  | logical | setObject | loopTest =>
    refine .inl ?_
    simp only [resume]
    split <;> rfl
  | assign target =>
    refine .inl ?_
    simp only [resume, assign]
    split <;> rfl
  | callee line arguments =>
    refine .inl ?_
    simp only [resume]
    split
    · exact sink_passArguments set stack st _ line _ _
    · rfl
  | argument c line earlier later =>
    exact .inl (sink_passArguments set stack st c line _ later)
  | get name => exact .inl (sink_getProperty set stack st v name)
  | branch thenBranch elseBranch =>
    refine .inl ?_
    simp only [resume]
    split
    · rfl
    · split <;> rfl
  | superclass declaration line =>
    refine .inl ?_
    cases v with
    | cls parent => exact sink_makeClass stack st declaration (some parent)
    | _ => rfl
  | _ => exact .inl rfl

theorem sink_complete (c : Completion) (pending : Pending) :
    (complete c pending stack st).state.sink = st.sink := by
  cases pending with
  | loopBody => cases c <;> rfl
  | block later saved => cases c <;> cases later <;> rfl
  | body f line => exact sink_deliver stack st _
  | program later => cases c <;> cases later <;> rfl
  | _ => rfl

end

/-- A step leaves the sink alone or offers it one line. -/
theorem sink_step (set : Setting) (m : Machine) :
    (step set m).state.sink = m.state.sink ∨
      ∃ text, (step set m).state.sink = (m.state.sink.writeLine text).1 := by
  obtain ⟨control, stack, st⟩ := m
  cases control with
  | eval e => exact .inl (sink_evaluate set stack st e)
  | exec s => exact .inl (sink_execute stack st s)
  | value v =>
    cases stack with
    | nil => exact .inl rfl
    | cons pending stack => exact sink_resume set stack st v pending
  | completed c =>
    cases stack with
    | nil => exact .inl rfl
    | cons pending stack => exact .inl (sink_complete stack st c pending)
  | failed f =>
    cases stack with
    | nil => exact .inl rfl
    | cons pending stack =>
      refine .inl ?_
      cases pending <;> rfl
  | stuck => exact .inl rfl

theorem precedes_step (set : Setting) (m : Machine) :
    m.state.sink.Precedes (step set m).state.sink := by
  rcases sink_step set m with hsink | ⟨text, hsink⟩
  · rw [hsink]
    exact .refl _
  · rw [hsink]
    exact Sink.precedes_writeLine _ text

/-- A run takes nothing back that was printed. -/
theorem precedes_runAlong (setting : Float → Setting) (m : Machine)
    (times : List Float) :
    m.state.sink.Precedes (runAlong setting times m).state.sink := by
  refine runAlong_induction
    (motive := fun m' => m.state.sink.Precedes m'.state.sink) ?_ (.refl _) times
  intro now m' h
  exact h.trans (precedes_step (setting now) m')

/-- A run on a sink that never fails prints a text. -/
theorem sink_runAlong {setting : Float → Setting} {m : Machine}
    (h : m.state.sink.Reliable) (times : List Float) :
    ∃ text, (runAlong setting times m).state.sink = m.state.sink.after text := by
  induction times generalizing m with
  | nil => exact ⟨"", (Sink.after_empty _).symm⟩
  | cons now times ih =>
    rcases sink_step (setting now) m with hsink | ⟨line, hsink⟩
    · rw [← hsink] at h ⊢
      exact ih h
    · rw [h.writeLine] at hsink
      have hreliable : (step (setting now) m).state.sink.Reliable := by
        rw [hsink]
        exact h.after _
      obtain ⟨text, htext⟩ := ih hreliable
      refine ⟨line ++ "\n" ++ text, ?_⟩
      rw [runAlong, htext, hsink, Sink.after_after]

end Machine

end Lox
