import Lox.Proofs.Machine.Ending
import Lox.Proofs.Session.Reached

/-!
# Programs without loops

A program that holds no `while` comes to its end in every session in which
nothing was run before, however its functions call each other: it runs to its
end or it fails, and if nothing else stops it the limit on the depth of calls
does (`ends_without_loops`).
-/

namespace Lox.Session

open Machine (Balanced Ends runAlong ticks)

/-- A session in which nothing was run: it has native functions only. -/
inductive Pristine : Session → Prop where
  | new (maxDepth : Nat) (sink : Sink) : Pristine (Session.new maxDepth sink)
  | native {s : Session} (h : Pristine s) (name : String) (arity : Nat)
      (behaviour : Machine.Behaviour) :
      Pristine (s.defineNative name arity behaviour)

/-- A native function that is defined holds no loops. -/
theorem tame_defineNative {s : Session}
    (h : s.store.All (Value.Tame s.natives.size)) (name : String) (arity : Nat)
    (behaviour : Machine.Behaviour) :
    let s' := s.defineNative name arity behaviour
    s'.store.All (Value.Tame s'.natives.size) := by
  intro s'
  have hsize : s'.natives.size = s.natives.size + 1 := Array.size_push _
  have hnative : (Value.native ⟨s.natives.size, name, arity⟩).Tame
      s'.natives.size := by
    show s.natives.size < s'.natives.size
    omega
  have hold : s.store.All (Value.Tame s'.natives.size) :=
    h.mono fun v hv => hv.mono (by omega)
  exact hold.define globals name hnative

theorem Pristine.tame {s : Session} (h : Pristine s) :
    s.store.All (Value.Tame s.natives.size) := by
  induction h with
  | new maxDepth sink =>
    exact tame_defineNative (s := ⟨_, sink, .empty, #[], 0, maxDepth⟩) .start
      "clock" 0 clock
  | native h name arity behaviour ih => exact tame_defineNative ih name arity _

/-- The clock, the native function of a new session, brings no loops in. -/
theorem tame_clock (natives : Nat) : Machine.Behaviour.Tame natives clock := by
  intro now arguments v _ hv
  cases hv
  trivial

/-- A program comes to no value: it runs to its end or it fails. -/
theorem resultOf_program {limit : Nat} {setting : Float → Machine.Setting}
    (hlimit : ∀ now, (setting now).maxDepth = limit) {program : List Stmt}
    {st : Machine.State} (hdepth : st.depth ≤ limit) {clock : Nat → Float}
    (h : Ends setting clock (.ofProgram program st)) :
    ∃ n, ∀ n', n ≤ n' →
      let m := runAlong setting (ticks clock n') (.ofProgram program st)
      resultOf m = .completed ∨ ∃ f, resultOf m = .failed f := by
  -- Below a program there may be something that waits for a completion.
  have hbalanced : Balanced limit st.frame st.depth
      ((Machine.ofProgram program st).onTop [.program []]) :=
    ⟨⟨rfl, rfl, hdepth⟩, rfl, rfl, trivial⟩
  obtain ⟨n, houtcome, hrun⟩ := h.onTop [.program []]
  have hlast := Machine.balanced_runAlong hbalanced hlimit (ticks clock n)
  rw [hrun] at hlast
  refine ⟨n, fun n' hle => ?_⟩
  rw [Machine.runAlong_ticks_of_le hle houtcome]
  generalize runAlong setting (ticks clock n) (.ofProgram program st) = m at *
  obtain ⟨control, stack, st'⟩ := m
  obtain ⟨rfl, ⟨v, rfl⟩ | ⟨c, rfl⟩ | ⟨f, rfl⟩⟩ :=
    Machine.eq_nil_of_outcome?_ne houtcome
  · cases hlast.suits.1
  · simp only [resultOf, Machine.outcome?]
    split
    · exact .inr ⟨_, rfl⟩
    · exact .inl rfl
  · exact .inr ⟨f, rfl⟩

/-- Without loops every program ends.  Take a session in which nothing was
run, with any limit on the depth of calls, any distances and any clock, and a
program that holds no `while`, also not in its functions.  After some number
of steps, and after every larger number, it has run to its end or failed.
The native functions always answer; all that is asked of them is that they
bring no loops in, as the clock does not: from values without loops they make
values without loops, and the native functions they hand out are those of the
session. -/
theorem ends_without_loops {s : Session} (hs : Pristine s)
    (hnatives : ∀ (i : Nat) (behaviour : Machine.Behaviour),
      s.natives[i]? = some behaviour → behaviour.Tame s.natives.size)
    (distances : Distances) {program : List Stmt}
    (hprogram : Stmt.AllLoopFree program) (clock : Nat → Float) :
    let s' := { s with distances := distances }
    ∃ n, ∀ n', n ≤ n' →
      let m := runAlong s'.setting (ticks clock n')
        (.ofProgram program s'.start)
      resultOf m = .completed ∨ ∃ f, resultOf m = .failed f := by
  intro s'
  have hset : Machine.Steady s'.setting s.maxDepth s.natives.size :=
    ⟨fun _ => rfl, fun _ => rfl, fun _ => hnatives⟩
  have htame : (Machine.ofProgram program s'.start).Tame s.natives.size := by
    refine ⟨hs.tame, ?_, trivial⟩
    intro pending hpending
    obtain rfl := List.mem_singleton.1 hpending
    exact hprogram
  have hbalanced : Balanced s.maxDepth globals 0
      (.ofProgram program s'.start) :=
    ⟨⟨rfl, rfl, Nat.zero_le _⟩, rfl, trivial⟩
  exact resultOf_program hset.limit (Nat.zero_le _)
    (Machine.ends_of_tame hset htame hbalanced rfl clock)

/-- The statements of `fun f() { f(); } f();`. -/
def sampleEndless : List Stmt :=
  let again : Stmt := .expression (.call (.variable ⟨0, "f", 1⟩) 1 [])
  [.function ⟨⟨"f", 1⟩, [], [again], .function⟩, again]

/-- A function that does nothing but call itself is stopped by the limit. -/
theorem ends_without_loops_sample :
    let s := Session.new 2 .unlimited
    let last (n : Nat) := runAlong s.setting (ticks (fun _ => 0) n)
      (.ofProgram sampleEndless s.start)
    Stmt.AllLoopFree sampleEndless ∧
      resultOf (last 30) = .failed (.stackOverflow 2 1) ∧
      ∃ n, ∀ n', n ≤ n' → resultOf (last n') = .completed ∨
        ∃ f, resultOf (last n') = .failed f := by
  have hlast : resultOf (runAlong (Session.new 2 .unlimited).setting
      (ticks (fun _ => 0) 30) (.ofProgram sampleEndless
        (Session.new 2 .unlimited).start)) = .failed (.stackOverflow 2 1) := by
    with_unfolding_all rfl
  intro s last
  have hprogram : Stmt.AllLoopFree sampleEndless := by
    simp only [sampleEndless, Stmt.AllLoopFree, Stmt.LoopFree,
      FunctionDecl.LoopFree, and_true]
  have hnatives : ∀ (i : Nat) (behaviour : Machine.Behaviour),
      s.natives[i]? = some behaviour → behaviour.Tame s.natives.size := by
    intro i behaviour hi
    have hmem : behaviour ∈ #[clock] := Array.mem_of_getElem? hi
    rw [Array.mem_singleton.1 hmem]
    exact tame_clock _
  exact ⟨hprogram, hlast, ends_without_loops (.new 2 .unlimited) hnatives
    .empty hprogram fun _ => 0⟩

end Lox.Session
