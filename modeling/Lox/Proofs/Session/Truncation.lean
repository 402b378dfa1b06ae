import Lox.Proofs.Machine.Sinks
import Lox.Proofs.Session.Depth

/-!
# Sinks that fail

A source is run in one session on two sinks, one that never fails and one
that does.  A sink that refuses bytes only cuts the output short: the run goes
the same way up to the line that is refused and does nothing after it.  A sink
that fails when it is flushed takes the whole output, and its fault is
reported only if nothing else is (`runWith_truncates`).
-/

namespace Lox.Session

open Machine (runAlong ticks)

/-! ## Machines that are alike -/

/-- A result, where a program that has run to its end flushes a sink with this
fault. -/
def Result.flushing (fault : Option String) : Result → Result
  | completed =>
    match fault with
    | some reason => failed (.output reason)
    | none => completed
  | result => result

theorem Result.flushing_none (result : Result) : result.flushing none = result := by
  cases result <;> rfl

/-- The session on another sink. -/
def withSink (s : Session) (sink : Sink) : Session :=
  { s with sink := sink }

/-- Machines that are alike finish in the same way, but for what flushing
does. -/
theorem finish_alike {s : Session} {whole other : Sink} (h : whole.flushFault = none)
    {m m' : Machine} (halike : Machine.Alike whole other m m') :
    let one := (s.withSink whole).finish m
    let two := (s.withSink other).finish m'
    two.2 = ⟨one.2.output, one.2.result.flushing other.flushFault⟩ ∧
      two.1 = one.1.withSink (other.after one.2.output) := by
  obtain ⟨text, hsink, rfl⟩ := halike
  have houtput : m.state.sink.textFrom whole.accepted.size = text := by
    rw [hsink, Sink.textFrom_after]
  have hresult : resultOf (m.withSink (other.after text)) =
      (resultOf m).flushing other.flushFault := by
    have hfault : m.state.sink.flushFault = none := by rw [hsink]; exact h
    have houtcome : (m.withSink (other.after text)).outcome? = m.outcome? := rfl
    simp only [resultOf, houtcome, hfault]
    cases m.outcome? with
    | none => rfl
    | some outcome => cases outcome <;> rfl
  have houtput' : (m.withSink (other.after text)).state.sink.textFrom
      other.accepted.size = text := Sink.textFrom_after other text
  refine ⟨?_, ?_⟩
  · simp only [finish, withSink, hresult, houtput, houtput']
  · simp only [finish, withSink, houtput]
    rfl

/-! ## Loading -/

/-- Loading does not depend on the sink. -/
theorem load_withSink (s : Session) (sink : Sink) (source : String) :
    (s.withSink sink).load source =
      ((s.load source).1.withSink sink, (s.load source).2) :=
  load_commutes (withSink · sink) (fun _ => rfl) (fun _ _ => rfl)
    (fun _ => rfl) (fun _ _ => rfl) s source

/-- A source is rejected on every sink, with the same diagnostics. -/
theorem runWith_of_rejected {s t : Session} {source : String} {diagnostics : List Diagnostic}
    (h : s.load source = (t, .error diagnostics)) (sink : Sink)
    (times : List Float) :
    (s.withSink sink).runWith (driveAlong times) source =
      (t.withSink sink, reject diagnostics) := by
  simp only [runWith, load_withSink, h]
  rfl

theorem runWith_of_accepted {s t : Session} {source : String} {program : List Stmt}
    (h : s.load source = (t, .ok program)) (sink : Sink) (times : List Float) :
    (s.withSink sink).runWith (driveAlong times) source =
      (t.withSink sink).finish (runAlong t.setting times
        (.ofProgram program (t.withSink sink).start)) := by
  have hload : (s.withSink sink).load source = (t.withSink sink, .ok program) := by
    rw [load_withSink, h]
  exact runWith_of_load hload times

/-! ## Runs that are cut short -/

/-- The program on a sink, after some ticks of a clock. -/
def programOn (t : Session) (program : List Stmt) (clock : Nat → Float)
    (sink : Sink) (n : Nat) : Machine :=
  runAlong t.setting (ticks clock n) (.ofProgram program (t.withSink sink).start)

/-- The run on the sink `cut` goes as the one on `whole` up to step `j`, in
which a line is refused.  From then on it only fails: nothing is stored and
nothing is printed any more. -/
def StopsAt (t : Session) (program : List Stmt) (clock : Nat → Float)
    (whole cut : Sink) (j : Nat) : Prop :=
  let before := t.programOn program clock cut j
  Machine.Alike whole cut (t.programOn program clock whole j) before ∧
    ∃ v, before.Refuses v ∧ ∀ i, j < i →
      let later := t.programOn program clock cut i
      later.control = .failed (.output cut.refusal) ∧
        later.state.store = before.state.store ∧
        later.state.sink = (before.state.sink.writeLine v.display).1

section

variable {t : Session} {program : List Stmt} {clock : Nat → Float}
  {whole cut : Sink}

theorem programOn_add (sink : Sink) (j k : Nat) :
    t.programOn program clock sink (j + k) =
      runAlong t.setting (ticks (fun i => clock (j + i)) k)
        (t.programOn program clock sink j) := by
  rw [programOn, Machine.ticks_add, Machine.runAlong_append]
  rfl

/-- After a line has been refused the stack is taken down. -/
theorem programOn_refused {j : Nat} {v : Value}
    (h : (t.programOn program clock cut j).Refuses v) (d : Nat) :
    let before := t.programOn program clock cut j
    let later := t.programOn program clock cut (j + (d + 1))
    later.control = .failed (.output before.state.sink.refusal) ∧
      later.stack = before.stack.drop (d + 1) ∧
      later.state.store = before.state.store ∧
      later.state.sink = (before.state.sink.writeLine v.display).1 := by
  have hrun := Machine.runAlong_refused t.setting h (clock j)
    (ticks (fun i => clock (j + (1 + i))) d)
  rw [Machine.length_ticks] at hrun
  intro before later
  have hlater : later = _ := programOn_add cut j (d + 1)
  rw [Machine.runAlong_ticks_succ] at hlater
  rw [hlater]
  exact hrun

/-- Two runs of a program are alike to the end, or the second one stops. -/
theorem alike_programOn (hwhole : whole.Reliable) (n : Nat) :
    Machine.Alike whole cut (t.programOn program clock whole n)
        (t.programOn program clock cut n) ∨
      ∃ j < n, t.StopsAt program clock whole cut j := by
  have hstart : Machine.Alike whole cut
      (.ofProgram program (t.withSink whole).start)
      (.ofProgram program (t.withSink cut).start) :=
    ⟨"", (Sink.after_empty _).symm, by rw [Sink.after_empty]; rfl⟩
  rcases Machine.alike_runAlong hwhole clock hstart n with
    halike | ⟨j, hj, halike, v, hrefuses⟩
  · exact .inl halike
  · refine .inr ⟨j, hj, halike, v, hrefuses, fun i hi => ?_⟩
    obtain ⟨d, rfl⟩ : ∃ d, i = j + (d + 1) := ⟨i - j - 1, by omega⟩
    obtain ⟨hcontrol, -, hstore, hsink⟩ := programOn_refused hrefuses d
    have hrefusal : (t.programOn program clock cut j).state.sink.refusal =
        cut.refusal := by
      obtain ⟨text, -, heq⟩ := halike
      exact congrArg (fun m => m.state.sink.refusal) heq
    rw [hrefusal] at hcontrol
    exact ⟨hcontrol, hstore, hsink⟩

/-- A run that stops has an outcome no later than the one that does not. -/
theorem resultOf_of_stopsAt {j n : Nat} (hj : j < n)
    (h : t.StopsAt program clock whole cut j)
    (houtcome : (t.programOn program clock whole n).outcome? ≠ none) :
    resultOf (t.programOn program clock cut n) =
      .failed (.output cut.refusal) := by
  obtain ⟨halike, v, hrefuses, hlater⟩ := h
  obtain ⟨d, rfl⟩ : ∃ d, n = j + (d + 1) := ⟨n - j - 1, by omega⟩
  obtain ⟨hcontrol, -, -⟩ := hlater _ hj
  obtain ⟨-, hstack, -, -⟩ := programOn_refused hrefuses d
  -- The other run, too, needs a step for each construct that waits.
  have hlength := Machine.length_runAlong t.setting
    (ticks (fun i => clock (j + i)) (d + 1)) (t.programOn program clock whole j)
  have hsame : (t.programOn program clock cut j).stack =
      (t.programOn program clock whole j).stack := by
    obtain ⟨text, -, heq⟩ := halike
    rw [heq]
    rfl
  have hempty : (t.programOn program clock whole (j + (d + 1))).stack = [] :=
    (Machine.eq_nil_of_outcome?_ne houtcome).1
  rw [← programOn_add, hempty, Machine.length_ticks, ← hsame] at hlength
  have hdone : (t.programOn program clock cut (j + (d + 1))).stack = [] := by
    rw [hstack]
    exact List.drop_eq_nil_of_le (by simpa using hlength)
  have houtcome : (t.programOn program clock cut (j + (d + 1))).outcome? =
      some (.failed (.output cut.refusal)) := by
    rw [Machine.outcome?, hcontrol, hdone]
  rw [resultOf, houtcome]

/-- A run that stops has printed a beginning of what the other one has. -/
theorem bytes_of_stopsAt (hwhole : whole.Reliable) {j n : Nat} (hj : j < n)
    (h : t.StopsAt program clock whole cut j) :
    ∃ text, (t.programOn program clock whole n).state.sink = whole.after text ∧
      cut.TookPart text (t.programOn program clock cut n).state.sink := by
  obtain ⟨⟨text, hsink, heq⟩, v, hrefuses, hlater⟩ := h
  obtain ⟨d, rfl⟩ : ∃ d, n = j + (d + 1) := ⟨n - j - 1, by omega⟩
  obtain ⟨-, -, hlast⟩ := hlater _ hj
  have hcut : (t.programOn program clock cut j).state.sink = cut.after text := by
    rw [heq]
    rfl
  -- The whole line is printed on the one sink, a part of it on the other.
  have hprints : (t.programOn program clock whole j).prints? = some v := by
    have hprints := hrefuses.1
    rwa [heq, Machine.prints?_withSink] at hprints
  have hreliable : (t.programOn program clock whole j).state.sink.Reliable := by
    rw [hsink]
    exact hwhole.after text
  have hline := Machine.sink_step_of_reliable (t.setting (clock j)) hprints
    hreliable
  have hreliable' : (Machine.step (t.setting (clock j))
      (t.programOn program clock whole j)).state.sink.Reliable := by
    rw [hline]
    exact hreliable.after _
  obtain ⟨more, hmore⟩ := Machine.sink_runAlong hreliable'
    (ticks (fun i => clock (j + (1 + i))) d)
  obtain ⟨-, -, -, hrefused, part, rest, htook, hpart⟩ :=
    Machine.step_refused (t.setting (clock j)) hrefuses
  rw [hrefused, hcut] at htook
  refine ⟨text ++ (v.display ++ "\n" ++ more), ?_, text.toUTF8 ++ part,
    rest ++ more.toUTF8, ?_, ?_⟩
  · rw [programOn_add, Machine.runAlong_ticks_succ]
    exact hmore.trans (by rw [hline, hsink, Sink.after_after, Sink.after_after])
  · rw [hlast, hcut, htook, ← ByteArray.append_assoc]
    rfl
  · have hline : (v.display ++ "\n" ++ more).toUTF8 = part ++ (rest ++ more.toUTF8) := by
      rw [← ByteArray.append_assoc, ← hpart]
      exact String.toByteArray_append
    rw [ByteArray.append_assoc, ← hline]
    exact String.toByteArray_append

/-- A sink that takes everything refuses nothing. -/
theorem alike_of_takes (hwhole : whole.Reliable)
    (htakes : ∀ before offered : ByteArray,
      offered.size ≤ cut.takes before offered) (n : Nat) :
    Machine.Alike whole cut (t.programOn program clock whole n)
      (t.programOn program clock cut n) := by
  refine (alike_programOn hwhole n).resolve_right ?_
  rintro ⟨j, -, ⟨text, -, heq⟩, v, ⟨-, hrefused⟩, -⟩
  rw [heq] at hrefused
  have htakes : ∀ before offered : ByteArray,
      offered.size ≤ (cut.after text).takes before offered := htakes
  have htaken := Sink.writeLine_of_takes htakes v.display
  exact hrefused (congrArg Prod.snd htaken)

end

/-- A failing sink only truncates.  A source is run in one session, on one
clock, on three sinks, and its run on the sink `whole`, which never fails, has
come to an end.

On a sink `cut` that can be flushed but may refuse bytes, the bytes taken are
a beginning of the output on `whole`.  Either the answers are the same and the
sessions differ in the sink only; or the one failure is that of the output,
and the program was accepted and stopped at the line that was refused.

On a sink `late` that takes everything but cannot be flushed the output is
the whole output, and the fault is reported in place of a program having run
to its end; every other result is the one on `whole`. -/
theorem runWith_truncates (s : Session) {whole cut late : Sink}
    (hwhole : whole.Reliable) (hcut : cut.flushFault = none)
    (hlate : ∀ before offered : ByteArray,
      offered.size ≤ late.takes before offered)
    (clock : Nat → Float) (n : Nat) (source : String) :
    let run := fun sink : Sink =>
      (s.withSink sink).runWith (driveAlong (ticks clock n)) source
    (run whole).2.result ≠ .unfinished →
    cut.TookPart (run whole).2.output (run cut).1.sink ∧
    ((run cut).2 = (run whole).2 ∧
        (run cut).1 = (run whole).1.withSink (run cut).1.sink ∨
      (run cut).2.result = .failed (.output cut.refusal) ∧
        ∃ t program, s.load source = (t, .ok program) ∧
          ∃ j < n, t.StopsAt program clock whole cut j) ∧
    (run late).2 = ⟨(run whole).2.output,
        (run whole).2.result.flushing late.flushFault⟩ ∧
      (run late).1 = (run whole).1.withSink
        (late.after (run whole).2.output) := by
  intro run hfinished
  cases hload : s.load source with
  | mk t loaded =>
    cases loaded with
    | error diagnostics =>
      have hrun (sink : Sink) : run sink = (t.withSink sink, reject diagnostics) :=
        runWith_of_rejected hload sink (ticks clock n)
      have hempty (sink : Sink) : sink.after (reject diagnostics).output = sink :=
        Sink.after_empty sink
      have hpart := cut.tookPart_after (reject diagnostics).output
      rw [hempty] at hpart
      rw [hrun, hrun, hrun, hempty]
      exact ⟨hpart, .inl ⟨rfl, rfl⟩, rfl, rfl⟩
    | ok program =>
      have hrun (sink : Sink) : run sink =
          (t.withSink sink).finish (t.programOn program clock sink n) :=
        runWith_of_accepted hload sink (ticks clock n)
      have hlast : Machine.Alike whole late
          (t.programOn program clock whole n) (t.programOn program clock late n) :=
        alike_of_takes hwhole hlate n
      rw [hrun] at hfinished
      rw [hrun, hrun, hrun]
      have hcases : Machine.Alike whole cut (t.programOn program clock whole n)
          (t.programOn program clock cut n) ∨ _ := alike_programOn hwhole n
      rcases hcases with halike | ⟨j, hj, hstops⟩
      · obtain ⟨hanswer, hsession⟩ := finish_alike (s := t) hwhole.flush halike
        have heta (a : Answer) : ⟨a.output, a.result⟩ = a := rfl
        rw [hcut, Result.flushing_none, heta] at hanswer
        refine ⟨?_, .inl ⟨hanswer, ?_⟩, finish_alike hwhole.flush hlast⟩
        · rw [hsession]
          exact cut.tookPart_after _
        · rw [hsession]
          rfl
      · obtain ⟨text, hsink, hpart⟩ := bytes_of_stopsAt hwhole hj hstops
        have houtcome := outcome?_of_finished hfinished
        have hfailed := resultOf_of_stopsAt hj hstops houtcome
        refine ⟨?_, .inr ⟨hfailed, t, program, rfl, j, hj, hstops⟩,
          finish_alike hwhole.flush hlast⟩
        have houtput : ((t.withSink whole).finish
            (t.programOn program clock whole n)).2.output = text := by
          simp only [finish, hsink]
          exact Sink.textFrom_after whole text
        rw [houtput]
        exact hpart

/-- A sink that takes one byte. -/
def sampleCut : Sink :=
  ⟨.empty, fun before _ => 1 - before.size, "full", none⟩

/-- A sink that takes everything but cannot be flushed. -/
def sampleLate : Sink :=
  { Sink.unlimited with flushFault := some "closed" }

/-- The line end is refused by the one sink and flushing by the other. -/
theorem runWith_truncates_sample :
    let s := Session.new 8 .unlimited
    let run := fun sink : Sink => (s.withSink sink).runWith
      (driveAlong (ticks (fun _ => 0) 12)) "print \"a\"; clock();"
    Sink.unlimited.Reliable ∧ sampleCut.flushFault = none ∧
      (run .unlimited).2.result = .completed ∧
      (run sampleCut).2.result = .failed (.output "full") ∧
      sampleCut.TookPart "a\n" (run sampleCut).1.sink ∧
      (run sampleLate).2 = ⟨"a\n", .failed (.output "closed")⟩ := by
  intro s run
  have hreliable : Sink.unlimited.Reliable := ⟨fun _ _ => Nat.le_refl _, rfl⟩
  have hwhole : (run .unlimited).2 = ⟨"a\n", .completed⟩ := by
    have hrun : run .unlimited = _ := runWith_of_load
      (load_samplePrints (s := s.withSink .unlimited) rfl) (ticks (fun _ => 0) 12)
    have houtput : (run .unlimited).2.output = "a\n" := by
      rw [hrun]
      decide +kernel
    have hresult : (run .unlimited).2.result = .completed := by
      rw [hrun]
      with_unfolding_all rfl
    rw [← houtput, ← hresult]
  have hcut : (run sampleCut).2.result = .failed (.output "full") := by
    have hrun : run sampleCut = _ := runWith_of_load
      (load_samplePrints (s := s.withSink sampleCut) rfl) (ticks (fun _ => 0) 12)
    rw [hrun]
    with_unfolding_all rfl
  have hfinished : (run .unlimited).2.result ≠ .unfinished := by
    rw [hwhole]
    intro h
    cases h
  obtain ⟨hpart, -, hlate, -⟩ := runWith_truncates s hreliable
    (show sampleCut.flushFault = none from rfl)
    (show ∀ before offered : ByteArray,
      offered.size ≤ sampleLate.takes before offered from fun _ _ => Nat.le_refl _)
    (fun _ => 0) 12 "print \"a\"; clock();" hfinished
  rw [hwhole] at hpart hlate
  exact ⟨hreliable, rfl, congrArg Answer.result hwhole, hcut, hpart, hlate⟩

end Lox.Session
