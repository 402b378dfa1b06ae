import Lox.Proofs.Machine.Sequence
import Lox.Proofs.Session.Fields

/-!
# Accepted programs run in order

A `return` is for functions only, and the scope rules see to it.  So no
statement of an accepted program ends by a `return`, whatever the state is in
which it is executed; and a program has run to its end only if each of its
statements has been executed, one after the other (`accepted_runs_in_order`).
-/

namespace Lox.Session

open Machine (Aborts Furnished InOrder Setting State runAlong)

theorem returnFree_of_mem {program : List Stmt}
    (h : Stmt.AllReturnFree program) {s : Stmt} (hs : s ∈ program) :
    s.ReturnFree := by
  induction program with
  | nil => cases hs
  | cons first rest ih =>
    obtain ⟨hfirst, hrest⟩ := h
    rcases List.mem_cons.1 hs with rfl | hs
    · exact hfirst
    · exact ih hrest hs

/-- Take a program that the scope rules accept, any setting at each time, with
any distances, limit and native functions, and any state.

Executed on its own, from whatever state, no statement of the program ends by a
`return`.

And what the result of a run of the program says of its statements holds.  If it
is that the program has run to its end, all of them have been executed, in order
and with nothing left out.  If it is a failure, those before some statement have
been executed in order and this one has failed, or all have been executed and
the sink refused what was still to be written.  There is no other result: if the
host provides all native functions that the state knows, a run without a result
goes on. -/
theorem accepted_runs_in_order {program : List Stmt} {distances : Distances}
    (h : (Scope.resolve program distances).diagnostics = [])
    (setting : Float → Setting) (st : State) :
    (∀ s ∈ program, ∀ before times v after,
      runAlong setting times ⟨.exec s, [], before⟩ ≠
        ⟨.completed (.returned v), [], after⟩) ∧
    ∀ times,
      let last := runAlong setting times (.ofProgram program st)
      match resultOf last with
      | .completed => ∃ used now spare, times = used ++ now :: spare ∧
          InOrder setting program st used last.state
      | .failed f =>
        (∃ before s rest used now part spare reached,
          program = before ++ s :: rest ∧
          times = used ++ now :: (part ++ spare) ∧
          InOrder setting before st used reached ∧
          Aborts setting s reached part f last.state) ∨
        ∃ reason used now spare, f = .output reason ∧
          last.state.sink.flushFault = some reason ∧
          times = used ++ now :: spare ∧
          InOrder setting program st used last.state
      | .unfinished => Furnished setting st → last.halted = false
      | .value _ | .rejected _ => False := by
  have hfree := Scope.returnFree_of_accepted h
  constructor
  · intro s hs before times v after
    exact Machine.ne_returned setting (returnFree_of_mem hfree hs) before times v
      after
  · intro times last
    have hprogress := Machine.progress_ofProgram setting hfree st times
    have hstuck (hst : Furnished setting st) : last.control.isStuck = false :=
      Machine.isStuck_runAlong hst program times
    change Machine.Progress setting program st times last at hprogress
    generalize last = m at hprogress hstuck
    cases hprogress with
    | @done used spare now st' steps order =>
      cases hflush : st'.sink.flushFault with
      | none =>
        have hresult : resultOf ⟨.completed .normal, [], st'⟩ = .completed := by
          simp only [resultOf, Machine.outcome?, hflush]
        rw [hresult]
        exact ⟨used, now, spare, steps, order⟩
      | some reason =>
        have hresult : resultOf ⟨.completed .normal, [], st'⟩ =
            .failed (.output reason) := by
          simp only [resultOf, Machine.outcome?, hflush]
        rw [hresult]
        exact .inr ⟨reason, used, now, spare, rfl, rfl, steps, order⟩
    | failed statements steps order fails =>
      exact .inl ⟨_, _, _, _, _, _, _, _, statements, steps, order, fails⟩
    | goesOn hrunning =>
      have hresult : resultOf m = .unfinished := by
        rw [resultOf, hrunning]
      rw [hresult]
      intro hst
      cases hhalted : m.halted with
      | false => rfl
      | true =>
        have hfalse := hstuck hst
        rw [Machine.isStuck_of_halted hhalted hrunning] at hfalse
        exact hfalse

/-- A new session knows only the clock, and has it. -/
theorem furnished_new (maxDepth : Nat) (sink : Sink) :
    Furnished (Session.new maxDepth sink).setting
      (Session.new maxDepth sink).start where
  same := fun _ => ⟨rfl, rfl⟩
  keeps := by
    intro i behaviour hi
    have hmem : behaviour ∈ #[clock] := Array.mem_of_getElem? hi
    rw [Array.mem_singleton.1 hmem]
    intro now arguments v _ hv
    cases hv
    trivial
  store := Store.All.start.define _ _ Nat.zero_lt_one
  depth := Nat.zero_le _

/-- A function that returns, and a call of it. -/
def sampleReturn : List Stmt :=
  [.function ⟨⟨"f", 1⟩, [], [.return 1 none], .function⟩,
    .expression (.call (.variable ⟨0, "f", 1⟩) 1 [])]

/-- The machine that has run it so far. -/
def sampleReturnAfter (times : List Float) : Machine :=
  runAlong sampleSetting times
    (.ofProgram sampleReturn (Session.new 8 .unlimited).start)

/-- The function returns, and the program still runs to its end.  Before that it
goes on. -/
theorem accepted_runs_in_order_sample :
    (Scope.resolve sampleReturn .empty).diagnostics = [] ∧
    resultOf (sampleReturnAfter (List.replicate 14 0)) = .completed ∧
    (∃ used now spare, List.replicate 14 0 = used ++ now :: spare ∧
      InOrder sampleSetting sampleReturn (Session.new 8 .unlimited).start used
        (sampleReturnAfter (List.replicate 14 0)).state) ∧
    ∀ times, resultOf (sampleReturnAfter times) = .unfinished →
      (sampleReturnAfter times).halted = false := by
  have haccepted : (Scope.resolve sampleReturn .empty).diagnostics = [] := by
    rw [Scope.resolve_eq]
    rfl
  have hresult : resultOf (sampleReturnAfter (List.replicate 14 0)) =
      .completed := by with_unfolding_all rfl
  have hruns := (accepted_runs_in_order haccepted sampleSetting
    (Session.new 8 .unlimited).start).2
  refine ⟨haccepted, hresult, ?_, fun times hunfinished => ?_⟩
  · have hlast := hruns (List.replicate 14 0)
    rw [sampleReturnAfter] at hresult
    dsimp only at hlast
    rw [hresult] at hlast
    exact hlast
  · have hgoes := hruns times
    rw [sampleReturnAfter] at hunfinished
    dsimp only at hgoes
    rw [hunfinished] at hgoes
    exact hgoes (furnished_new 8 .unlimited)

end Lox.Session
