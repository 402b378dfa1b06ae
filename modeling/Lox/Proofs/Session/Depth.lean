import Lox.Proofs.Machine.Balance
import Lox.Proofs.Machine.Calls
import Lox.Proofs.Machine.Output
import Lox.Proofs.Session.Reached

/-!
# The depth of calls

What a run does with the depth of calls comes to two facts.

Whatever is evaluated, executed or called, and however it ends, leaves the
current frame and the depth as it found them; on the way the depth counts the
calls that are going on, and it reaches the limit but never passes it
(`context_restored`).

And the limit has no part in a run until it is reached.  Two runs of one
source under different limits go the same way, step by step, until the lower
limit stops one of them (`runWith_limit`).
-/

namespace Lox.Session

open Machine (Balanced Call Setting State callsIn nextCall? runAlong ticks)

/-! ## The context is restored -/

/-- What can be run on its own. -/
inductive Task where
  | expression (e : Expr)
  | statement (s : Stmt)
  | call (callee : Callable) (arguments : List Value) (line : Nat)
  | program (list : List Stmt)

/-- The machine that starts a task. -/
def Task.start (set : Setting) (st : State) : Task → Machine
  | expression e => ⟨.eval e, [], st⟩
  | statement s => ⟨.exec s, [], st⟩
  | call callee arguments line => Machine.invoke set callee arguments line [] st
  | program list => .ofProgram list st

/-- The next step reports a failure that was not there before. -/
def Raises (set : Setting) (m : Machine) (f : Failure) : Prop :=
  (∀ g, m.control ≠ .failed g) ∧ (Machine.step set m).control = .failed f

theorem Task.balanced (set : Setting) {st : State}
    (h : st.depth ≤ set.maxDepth) (task : Task) :
    Balanced set.maxDepth st.frame st.depth (task.start set st) := by
  have hlevel : Machine.Level set.maxDepth st.frame st.depth [] st :=
    ⟨rfl, rfl, h⟩
  cases task with
  | expression e => exact ⟨hlevel, trivial⟩
  | statement s => exact ⟨hlevel, trivial⟩
  | call callee arguments line =>
    exact Machine.balanced_invoke hlevel trivial rfl callee arguments line
  | program list => exact ⟨hlevel.push rfl rfl, rfl, trivial⟩

/-- A stack overflow is reported exactly where a call with the right number
of arguments is made at the limit. -/
theorem raises_overflow_iff {set : Setting} {m : Machine}
    (h : m.state.depth ≤ set.maxDepth) :
    (∃ limit line, Raises set m (.stackOverflow limit line)) ↔
      ∃ c, nextCall? set m = some c ∧ c.Matches ∧
        m.state.depth = set.maxDepth := by
  constructor
  · rintro ⟨limit, line, hcontrol, hstep⟩
    obtain ⟨c, hc, hmatches, hdepth, -⟩ :=
      (Machine.overflow_iff hcontrol).1 hstep
    exact ⟨c, hc, hmatches, Nat.le_antisymm h hdepth⟩
  · rintro ⟨c, hc, hmatches, hdepth⟩
    have hcontrol : ∀ g, m.control ≠ .failed g := by
      obtain ⟨control, stack, st⟩ := m
      rintro g rfl
      cases hc
    exact ⟨set.maxDepth, c.line, hcontrol, (Machine.overflow_iff hcontrol).2
      ⟨c, hc, hmatches, Nat.le_of_eq hdepth.symm, rfl, rfl⟩⟩

/-- Every path restores the context.  Take any session, any state whose depth
is within the limit and any task.  At every step the depth is that of the
start and one more for each call that is going on, and within the limit; a
stack overflow is reported exactly where a call with the right number of
arguments is made at the limit; and once there is an outcome, of whatever
kind, the frame and the depth are those of the start.  A task that is part of
another one, with more waiting below it, runs in the same way.  So a program
ends at the globals and at depth zero. -/
theorem context_restored (s : Session) {st : State}
    (hdepth : st.depth ≤ s.maxDepth) (task : Task) (first : Float)
    (times : List Float) :
    let start := task.start (s.setting first) st
    let m := runAlong s.setting times start
    (m.state.depth = st.depth + callsIn m.stack ∧
      m.state.depth ≤ s.maxDepth) ∧
    (m.outcome? ≠ none →
      m.state.frame = st.frame ∧ m.state.depth = st.depth) ∧
    (∀ now, (∃ limit line,
        Raises (s.setting now) m (.stackOverflow limit line)) ↔
      ∃ c, nextCall? (s.setting now) m = some c ∧ c.Matches ∧
        m.state.depth = s.maxDepth) ∧
    (∀ callee arguments line stack now, (∃ limit line', (Machine.invoke
        (s.setting now) callee arguments line stack st).control =
          .failed (.stackOverflow limit line')) ↔
      arguments.length = callee.arity ∧ st.depth = s.maxDepth) ∧
    (∀ base, (∀ k < times.length,
        (runAlong s.setting (times.take k) start).outcome? = none) →
      runAlong s.setting times (start.onTop base) = m.onTop base) ∧
    (∀ list, let last := runAlong s.setting times (.ofProgram list s.start)
      last.outcome? ≠ none →
        last.state.frame = globals ∧ last.state.depth = 0) := by
  intro start m
  have hlimit (now : Float) : (s.setting now).maxDepth = s.maxDepth := rfl
  have hstart : Balanced s.maxDepth st.frame st.depth start :=
    task.balanced (s.setting first) hdepth
  have hm : Balanced s.maxDepth st.frame st.depth m :=
    Machine.balanced_runAlong hstart hlimit times
  refine ⟨⟨hm.depth, hm.bound⟩, hm.restored,
    fun now => raises_overflow_iff hm.bound, ?_, ?_, ?_⟩
  · intro callee arguments line stack now
    simp only [Machine.invoke_overflow_iff, hlimit]
    constructor
    · rintro ⟨limit, line', harity, hle, -⟩
      exact ⟨harity, Nat.le_antisymm hdepth hle⟩
    · rintro ⟨harity, heq⟩
      exact ⟨_, _, harity, Nat.le_of_eq heq.symm, rfl, rfl⟩
  · exact fun base hrunning => Machine.runAlong_onTop hrunning base
  · intro list last
    have hzero : s.start.depth ≤ (s.setting first).maxDepth := Nat.zero_le _
    have hprogram : Balanced s.maxDepth globals 0 (.ofProgram list s.start) :=
      Task.balanced (s.setting first) hzero (.program list)
    exact (Machine.balanced_runAlong hprogram hlimit times).restored

/-- A call of `clock`. -/
def sampleCall : Expr :=
  .call (.variable ⟨0, "clock", 1⟩) 1 []

/-- A call at the limit fails, and leaves frame and depth as they were. -/
theorem context_restored_sample :
    let s := Session.new 1 .unlimited
    let st : State := { s.start with depth := 1 }
    let m := runAlong s.setting [0, 0, 0] ⟨.eval sampleCall, [], st⟩
    st.depth ≤ s.maxDepth ∧
      m.outcome? = some (.failed (.stackOverflow 1 1)) ∧
      m.state.frame = globals ∧ m.state.depth = 1 := by
  have houtcome : (runAlong (Session.new 1 .unlimited).setting [0, 0, 0]
      ⟨.eval sampleCall, [], { (Session.new 1 .unlimited).start with
        depth := 1 }⟩).outcome? = some (.failed (.stackOverflow 1 1)) := by
    with_unfolding_all rfl
  intro s st m
  have hdepth : st.depth ≤ s.maxDepth := Nat.le_refl 1
  have hrestored := (context_restored s hdepth (.expression sampleCall) 0
    [0, 0, 0]).2.1
  refine ⟨hdepth, houtcome, hrestored fun hnone => ?_⟩
  cases houtcome.symm.trans hnone

/-! ## The limit only cuts runs short -/

/-- Two machines that run under a lower and a higher limit: they are the same,
or the first one has reached the lower limit, and the second one has printed
what the first one has and goes on. -/
inductive Apace (limit : Nat) : Machine → Machine → Prop where
  | same (m : Machine) : Apace limit m m
  | stopped {m m' : Machine} (line : Nat)
      (control : m.control = .failed (.stackOverflow limit line))
      (sink : m.state.sink.Precedes m'.state.sink) : Apace limit m m'

/-- A failure stays the same while it unwinds the stack, and prints
nothing. -/
theorem step_failed (set : Setting) {m : Machine} {f : Failure}
    (h : m.control = .failed f) :
    (Machine.step set m).control = .failed f ∧
      (Machine.step set m).state.sink = m.state.sink := by
  obtain ⟨control, stack, st⟩ := m
  cases h
  cases stack with
  | nil => exact ⟨rfl, rfl⟩
  | cons pending stack => cases pending <;> exact ⟨rfl, rfl⟩

theorem apace_step {set : Setting} {limit : Nat} (hle : set.maxDepth ≤ limit)
    {m m' : Machine} (h : Apace set.maxDepth m m') :
    Apace set.maxDepth (Machine.step set m)
      (Machine.step (set.withLimit limit) m') := by
  cases h with
  | same =>
    rcases Machine.step_withLimit hle m with heq | ⟨⟨line, hline⟩, hsink⟩
    · rw [heq]
      exact .same _
    · refine .stopped line hline ?_
      rw [hsink]
      exact Machine.precedes_step _ m
  | stopped line control sink =>
    obtain ⟨hcontrol, hsink⟩ := step_failed set control
    refine .stopped line hcontrol ?_
    rw [hsink]
    exact sink.trans (Machine.precedes_step _ m')

/-- Runs under two limits go the same way until the lower one is reached. -/
theorem apace_runAlong {setting : Float → Setting} {lower higher : Nat}
    (hle : lower ≤ higher) (hlower : ∀ now, (setting now).maxDepth = lower)
    (times : List Float) {m m' : Machine} (h : Apace lower m m') :
    Apace lower (runAlong setting times m)
      (runAlong (fun now => (setting now).withLimit higher) times m') := by
  induction times generalizing m m' with
  | nil => exact h
  | cons now times ih =>
    rw [← hlower now] at h hle
    have hstep := apace_step hle h
    rw [hlower now] at hstep
    exact ih hstep

/-- A stack overflow that a run reports names the limit of the run. -/
theorem limit_of_overflow {setting : Float → Setting} {d : Nat}
    (hlimit : ∀ now, (setting now).maxDepth = d) (times : List Float)
    {m : Machine} (hstart : ∀ f, m.control ≠ .failed f) {limit line : Nat}
    (h : (runAlong setting times m).control =
      .failed (.stackOverflow limit line)) : limit = d := by
  have hrun : ∀ limit line, (runAlong setting times m).control =
      .failed (.stackOverflow limit line) → limit = d := by
    refine Machine.runAlong_induction (motive := fun m => ∀ limit line,
      m.control = .failed (.stackOverflow limit line) → limit = d) ?_
      (fun _ _ hf => absurd hf (hstart _)) times
    intro now m ih limit line hf
    by_cases hfailed : ∃ f, m.control = .failed f
    · obtain ⟨f, hcontrol⟩ := hfailed
      have hsame := (step_failed (setting now) hcontrol).1
      rw [hf] at hsame
      exact ih limit line (hcontrol.trans hsame.symm)
    · obtain ⟨-, -, -, -, heq, -⟩ :=
        (Machine.overflow_iff fun f hf => hfailed ⟨f, hf⟩).1 hf
      exact heq.trans (hlimit now)
  exact hrun limit line h

theorem outcome?_of_finished {m : Machine} (h : resultOf m ≠ .unfinished) :
    m.outcome? ≠ none := by
  intro hnone
  exact h (by rw [resultOf, hnone])

/-- A stack overflow as a result is one as an outcome: flushing the sink is
no call. -/
theorem resultOf_overflow_iff {m : Machine} (h : m.outcome? ≠ none)
    {limit line : Nat} :
    resultOf m = .failed (.stackOverflow limit line) ↔
      m.control = .failed (.stackOverflow limit line) := by
  obtain ⟨control, stack, st⟩ := m
  obtain ⟨rfl, ⟨v, rfl⟩ | ⟨c, rfl⟩ | ⟨f, rfl⟩⟩ :=
    Machine.eq_nil_of_outcome?_ne h
  · exact ⟨nofun, nofun⟩
  · refine ⟨fun hresult => ?_, nofun⟩
    simp only [resultOf, Machine.outcome?] at hresult
    split at hresult <;> cases hresult
  · exact ⟨fun hresult => congrArg _ (Result.failed.inj hresult),
      fun hcontrol => congrArg _ (Machine.Control.failed.inj hcontrol)⟩

/-- Of two runs under different limits that have come to outcomes, the one
under the higher limit has printed what the other one has, and it is the same
unless that one ended in a stack overflow. -/
theorem outcomes_under_limits {setting : Float → Setting} {lower higher : Nat}
    (hle : lower ≤ higher) (hlower : ∀ now, (setting now).maxDepth = lower)
    {clock : Nat → Float} {n n' : Nat} {start m m' : Machine}
    (hm : runAlong setting (ticks clock n) start = m)
    (hm' : runAlong (fun now => (setting now).withLimit higher)
      (ticks clock n') start = m')
    (houtcome : m.outcome? ≠ none) (houtcome' : m'.outcome? ≠ none) :
    m.state.sink.Precedes m'.state.sink ∧
      ((∀ line, m.control ≠ .failed (.stackOverflow lower line)) → m' = m) := by
  subst hm hm'
  rw [← Machine.runAlong_ticks_of_le (Nat.le_max_left n n') houtcome,
    ← Machine.runAlong_ticks_of_le (Nat.le_max_right n n') houtcome']
  have hpace := apace_runAlong hle hlower (ticks clock (max n n')) (.same start)
  generalize runAlong setting _ start = m at hpace ⊢
  generalize runAlong _ _ start = m' at hpace ⊢
  cases hpace with
  | same => exact ⟨.refl _, fun _ => rfl⟩
  | stopped line control sink =>
    exact ⟨sink, fun hquiet => absurd control (hquiet line)⟩

/-- The session with another limit on the depth of calls. -/
def withLimit (s : Session) (limit : Nat) : Session :=
  { s with maxDepth := limit }

/-- Loading does not depend on the limit. -/
theorem load_withLimit (s : Session) (limit : Nat) (source : String) :
    (s.withLimit limit).load source =
      ((s.load source).1.withLimit limit, (s.load source).2) :=
  load_commutes (withLimit · limit) (fun _ => rfl) (fun _ _ => rfl)
    (fun _ => rfl) (fun _ _ => rfl) s source

/-- The call-depth limit only cuts runs short.  A source is run in one session
under two limits, with a clock that gives both runs the same times, and both
come to their ends.  If the run under the lower limit does not end in a stack
overflow, the run under the higher one has the same answer and leaves the same
session.  If it does, the overflow names the lower limit and is all that is
reported, and what was printed is a beginning of what is printed under the
higher limit: byte by byte, and as a text if the sink takes what it is offered
in full or not at all. -/
theorem runWith_limit (s : Session) {lower higher : Nat}
    (hle : lower ≤ higher) (clock : Nat → Float) (n n' : Nat)
    (source : String) :
    let one := (s.withLimit lower).runWith (driveAlong (ticks clock n)) source
    let two := (s.withLimit higher).runWith (driveAlong (ticks clock n')) source
    one.2.result ≠ .unfinished → two.2.result ≠ .unfinished →
    ((∀ limit line, one.2.result ≠ .failed (.stackOverflow limit line)) →
      two = (one.1.withLimit higher, one.2)) ∧
    (∀ limit line, one.2.result = .failed (.stackOverflow limit line) →
      limit = lower ∧
      (∃ more, two.1.sink.accepted = one.1.sink.accepted ++ more) ∧
      (s.sink.Whole → ∃ more, two.2.output = one.2.output ++ more)) := by
  intro one two hfinished hfinished'
  have hload := load_withLimit s lower source
  have hload' := load_withLimit s higher source
  obtain ⟨k, distances, hs, -, -⟩ := s.load_changes source
  have hsink : (s.load source).1.sink = s.sink := by rw [hs]
  generalize (s.load source).1 = t at hload hload' hsink
  cases hresult : (s.load source).2 with
  | error diagnostics =>
    rw [hresult] at hload hload'
    have hone : one = (t.withLimit lower, reject diagnostics) := by
      simp only [one, runWith, hload]
      rfl
    have htwo : two = (t.withLimit higher, reject diagnostics) := by
      simp only [two, runWith, hload']
      rfl
    rw [hone, htwo]
    exact ⟨fun _ => rfl, by rintro _ _ ⟨⟩⟩
  | ok program =>
    rw [hresult] at hload hload'
    have hone : one = _ := runWith_of_load hload (ticks clock n)
    have htwo : two = _ := runWith_of_load hload' (ticks clock n')
    generalize hm : runAlong (t.withLimit lower).setting (ticks clock n)
      (.ofProgram program (t.withLimit lower).start) = m at hone
    generalize hm' : runAlong (t.withLimit higher).setting (ticks clock n')
      (.ofProgram program (t.withLimit higher).start) = m' at htwo
    rw [hone] at hfinished ⊢
    rw [htwo] at hfinished' ⊢
    have houtcome := outcome?_of_finished hfinished
    have hlower (now : Float) :
        ((t.withLimit lower).setting now).maxDepth = lower := rfl
    obtain ⟨hprinted, hsame⟩ := outcomes_under_limits hle hlower hm hm'
      houtcome (outcome?_of_finished hfinished')
    constructor
    · intro hquiet
      have heq : m' = m := hsame fun line hline =>
        hquiet lower line ((resultOf_overflow_iff houtcome).2 hline)
      rw [heq]
      rfl
    · intro limit line hline
      have hcontrol := (resultOf_overflow_iff houtcome).1 hline
      rw [← hm] at hcontrol
      have hstarted : t.sink.Precedes m.state.sink := by
        rw [← hm]
        exact Machine.precedes_runAlong _ _ (ticks clock n)
      have hfresh : ∀ f, (Machine.ofProgram program
          (t.withLimit lower).start).control ≠ .failed f := by
        intro f hf
        cases hf
      refine ⟨limit_of_overflow hlower _ hfresh hcontrol, ?_, ?_⟩
      · obtain ⟨more, hmore, -⟩ := hprinted
        exact ⟨more, congrArg Sink.accepted hmore⟩
      · intro hwhole
        rw [← hsink] at hwhole
        obtain ⟨more, hmore⟩ := hstarted.textFrom hprinted hwhole
        exact ⟨more, by simpa only [finish, withLimit] using hmore⟩

/-- The statements of `print "a"; clock();`. -/
def samplePrints : List Stmt :=
  [.print (.literal (.string "a")), .expression sampleCall]

theorem load_samplePrints {s : Session} (hn : s.nextId = 0) :
    s.load "print \"a\"; clock();" =
      ({ s with
          nextId := 1
          distances := (Scope.resolve samplePrints s.distances).distances },
        .ok samplePrints) := by
  refine load_eq_ok.2 ⟨by decide +kernel, ?_, ?_, rfl⟩
  · have htokens : (Token.scan "print \"a\"; clock();").tokens =
        ([] ++ [⟨.keyword .kwPrint, 1⟩, ⟨.string "a", 1⟩,
          ⟨.symbol .semicolon, 1⟩]) ++ [⟨.identifier "clock", 1⟩,
            ⟨.symbol .leftParen, 1⟩, ⟨.symbol .rightParen, 1⟩,
            ⟨.symbol .semicolon, 1⟩] := by with_unfolding_all rfl
    rw [htokens, hn]
    exact .snoc (.snoc .nil (.statement (.print (.intro (.of_call
        (.literal rfl))))))
      (.statement (.expression (.intro (.of_call (.callEmpty .name)))))
  · rw [Scope.resolve_eq]
    rfl

/-- With no call allowed the source prints one line and overflows; with one
call allowed it runs to its end. -/
theorem runWith_limit_sample :
    let s := Session.new 0 .unlimited
    let one := (s.withLimit 0).runWith (driveAlong (ticks (fun _ => 0) 11))
      "print \"a\"; clock();"
    let two := (s.withLimit 1).runWith (driveAlong (ticks (fun _ => 0) 12))
      "print \"a\"; clock();"
    0 ≤ 1 ∧ one.2.result = .failed (.stackOverflow 0 1) ∧
      two.2.result = .completed ∧
      ∃ more, two.2.output = one.2.output ++ more := by
  intro s one two
  have hone : one = _ := runWith_of_load
    (load_samplePrints (s := s.withLimit 0) rfl) (ticks (fun _ => 0) 11)
  have htwo : two = _ := runWith_of_load
    (load_samplePrints (s := s.withLimit 1) rfl) (ticks (fun _ => 0) 12)
  have hresult : one.2.result = .failed (.stackOverflow 0 1) := by
    rw [hone]
    with_unfolding_all rfl
  have hresult' : two.2.result = .completed := by
    rw [htwo]
    with_unfolding_all rfl
  have hwhole : s.sink.Whole := fun _ _ => .inl (Nat.le_refl _)
  have hlimit := runWith_limit s (Nat.zero_le 1) (fun _ => 0) 11 12
    "print \"a\"; clock();" (by rw [hresult]; rintro ⟨⟩)
    (by rw [hresult']; rintro ⟨⟩)
  exact ⟨Nat.zero_le 1, hresult, hresult',
    (hlimit.2 0 1 hresult).2.2 hwhole⟩

end Lox.Session
