import Lox.Proofs.Machine.Trail
import Lox.Proofs.Session.Reached

/-!
# The course of an interpreter

What an interpreter does can be followed step by step.  `Course` says that a
machine is on the course of an interpreter that runs whatever the parser gives:
programs and expressions from sources with or without faults, one after the
other, not checked by the scope rules.  The settings may be others at each
step, so the distances can be those of the scope rules, or none, or wrong ones.
The log holds the steps done so far, each machine with the setting it took the
step in.

Every run of a reachable session is on such a course (`Reached.course`).
-/

namespace Lox

namespace Machine

/-- The machine that has nothing to do. -/
def idle (st : State) : Machine :=
  ⟨.completed .normal, [], st⟩

end Machine

open Machine (Behaviour Log Setting State idle runAlong step trail)

/-- The machine is on the course of an interpreter whose native functions are
all allowed.  `given` are the names that the host has given to native
functions, and the log holds the steps done so far. -/
inductive Course (Allowed : Behaviour → Prop) :
    (given : List String) → Log → Machine → Prop where
  | new (maxDepth : Nat) (sink : Sink) :
      Course Allowed ["clock"] [] (idle (Session.new maxDepth sink).start)
  /-- The host defines a native function. -/
  | native {given log m} (h : Course Allowed given log m) (n : Native) :
      Course Allowed (n.name :: given) log
        (idle { m.state with
          store := m.state.store.define Session.globals n.name (.native n)
          frame := Session.globals })
  /-- What the parser gives for a source is run from the top. -/
  | program {given log m} (h : Course Allowed given log m) (source : String)
      (firstId : Nat) {st : State} (store : st.store = m.state.store)
      (frame : st.frame = Session.globals) :
      Course Allowed given log
        (.ofProgram (Stmt.parse (Token.scan source) firstId).statements st)
  /-- An expression is evaluated. -/
  | expr {given log m} (h : Course Allowed given log m) (source : String)
      (firstId : Nat) {e : Expr}
      (parsed : (Expr.parse (Token.scan source) firstId).result = .ok e)
      {st : State} (store : st.store = m.state.store)
      (frame : st.frame = Session.globals) :
      Course Allowed given log (.ofExpr e st)
  | step {given log m} (h : Course Allowed given log m) {set : Setting}
      (allowed : set.All Allowed) :
      Course Allowed given (log ++ [(set, m)]) (step set m)

namespace Course

variable {Allowed : Behaviour → Prop} {given : List String} {log : Log}
  {m : Machine}

theorem mono {Allowed' : Behaviour → Prop} (h : Course Allowed given log m)
    (himp : ∀ behaviour, Allowed behaviour → Allowed' behaviour) :
    Course Allowed' given log m := by
  induction h with
  | new maxDepth sink => exact .new maxDepth sink
  | native _ n ih => exact ih.native n
  | program _ source firstId store frame ih =>
    exact ih.program source firstId store frame
  | expr _ source firstId parsed store frame ih =>
    exact ih.expr source firstId parsed store frame
  | step _ allowed ih => exact ih.step (allowed.mono himp)

/-- A run stays on the course. -/
theorem run (h : Course Allowed given log m) {setting : Float → Setting}
    (allowed : ∀ now, (setting now).All Allowed) (times : List Float) :
    Course Allowed given (log ++ trail setting times m)
      (runAlong setting times m) := by
  induction times generalizing log m with
  | nil =>
    rw [trail, List.append_nil]
    exact h
  | cons now times ih =>
    have hrest := ih (h.step (allowed now))
    rw [List.append_assoc] at hrest
    exact hrest

end Course

namespace Session

theorem Settled.all_faithful {s : Session} (h : s.Settled) (now : Float) :
    (s.setting now).All Behaviour.Faithful :=
  h.faithful

/-- The store of a reachable session is on a course. -/
theorem Reached.course {program : List Stmt} {s : Session}
    (h : Reached program s) :
    ∃ given log m, Course Behaviour.Faithful given log m ∧
      m.state.store = s.store := by
  induction h with
  | new maxDepth sink => exact ⟨_, _, _, .new maxDepth sink, rfl⟩
  | @native program s h name arity behaviour faithful ih =>
    obtain ⟨given, log, m, hcourse, hstore⟩ := ih
    refine ⟨_, _, _, hcourse.native ⟨s.natives.size, name, arity⟩, ?_⟩
    simp only [Machine.idle, hstore, defineNative]
  | sink h sink ih => exact ih
  | @run program s h times source ih =>
    obtain ⟨given, log, m, hcourse, hstore⟩ := ih
    have hsettled := h.settled.load source
    obtain ⟨n, distances, hs', -⟩ := s.load_changes source
    cases hload : s.load source with
    | mk s' result =>
      rw [hload] at hsettled hs'
      simp only [runWith, hload]
      cases result with
      | error diagnostics =>
        refine ⟨given, log, m, hcourse, ?_⟩
        rw [hstore]
        exact (congrArg Session.store hs').symm
      | ok list =>
        obtain ⟨-, hreads, -⟩ := load_eq_ok.1 hload
        have hparse := congrArg Stmt.Parsed.statements (Stmt.parse_of_reads hreads)
        have hsame : s'.start.store = m.state.store :=
          (congrArg Session.store hs').trans hstore.symm
        have hprogram := hcourse.program source s.nextId hsame rfl
        rw [hparse] at hprogram
        exact ⟨_, _, _, hprogram.run hsettled.all_faithful times, rfl⟩
  | @eval program s h times source ih =>
    obtain ⟨given, log, m, hcourse, hstore⟩ := ih
    have hsettled := h.settled.loadExpr source
    obtain ⟨n, hs', -⟩ := s.loadExpr_changes source
    cases hload : s.loadExpr source with
    | mk s' result =>
      rw [hload] at hsettled hs'
      simp only [evalWith, hload]
      cases result with
      | error diagnostics =>
        refine ⟨given, log, m, hcourse, ?_⟩
        rw [hstore]
        exact (congrArg Session.store hs').symm
      | ok e =>
        obtain ⟨-, hreads, -⟩ := loadExpr_eq_ok.1 hload
        have hparse := congrArg Expr.Parsed.result (Expr.parse_eq_iff.2 hreads)
        have hsame : s'.start.store = m.state.store :=
          (congrArg Session.store hs').trans hstore.symm
        exact ⟨_, _, _, (hcourse.expr source s.nextId hparse hsame rfl).run
          hsettled.all_faithful times, rfl⟩

end Session

end Lox
