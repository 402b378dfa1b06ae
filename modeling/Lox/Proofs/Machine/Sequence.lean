import Lox.Proofs.Machine.Entering

/-!
# Statements in order

A program runs its statements one after the other.  What that means is said with
runs of single statements: one that is done at certain times and not before
(`Completes`), and a list of them with one step between two, in which the next
statement is taken up (`InOrder`).

A statement without `return` outside of functions never ends by a `return`
(`ne_returned`).  So at any time the run of a program of such statements has
executed all of them in order, or one of them has failed, or the run goes on
(`progress_ofProgram`); and as long as it knows its native functions, it does not
get stuck on the way (`isStuck_runAlong`).
-/

namespace Lox.Machine

variable {setting : Float → Setting} {program : List Stmt} {st st' : State}
  {times : List Float}

/-! ## Single statements -/

/-- On its own the statement is executed in these steps: it leads from one state
to the other, and it is not done before. -/
structure Completes (setting : Float → Setting) (s : Stmt) (st : State)
    (times : List Float) (st' : State) : Prop where
  done : runAlong setting times ⟨.exec s, [], st⟩ = ⟨.completed .normal, [], st'⟩
  first : ∀ k < times.length,
    (runAlong setting (times.take k) ⟨.exec s, [], st⟩).outcome? = none

/-- On its own the statement fails in these steps. -/
structure Aborts (setting : Float → Setting) (s : Stmt) (st : State)
    (times : List Float) (f : Failure) (st' : State) : Prop where
  failed : runAlong setting times ⟨.exec s, [], st⟩ = ⟨.failed f, [], st'⟩
  first : ∀ k < times.length,
    (runAlong setting (times.take k) ⟨.exec s, [], st⟩).outcome? = none

theorem orderly_exec {s : Stmt} (hs : s.ReturnFree) (st : State) :
    Orderly st.frame st.depth ⟨.exec s, [], st⟩ :=
  ⟨⟨rfl, rfl, trivial⟩, .inr hs⟩

/-- A run keeps the order, unless the machine gets stuck. -/
theorem orderly_runAlong (setting : Float → Setting) {frame : FrameId}
    {depth : Nat} {m : Machine} (h : Orderly frame depth m) (times : List Float) :
    (runAlong setting times m).control = .stuck ∨
      Orderly frame depth (runAlong setting times m) := by
  refine runAlong_induction (motive := fun m =>
    m.control = .stuck ∨ Orderly frame depth m) ?_ (.inr h) times
  rintro now m (hstuck | horderly)
  · obtain ⟨control, stack, st⟩ := m
    cases hstuck
    exact .inl rfl
  · exact orderly_step horderly (setting now)

/-- A `return` does not get out of a statement that has none outside of
functions. -/
theorem ne_returned (setting : Float → Setting) {s : Stmt}
    (hs : s.ReturnFree) (st : State) (times : List Float) (v : Value) (st' : State) :
    runAlong setting times ⟨.exec s, [], st⟩ ≠ ⟨.completed (.returned v), [], st'⟩ := by
  intro hreturned
  rcases orderly_runAlong setting (orderly_exec hs st) times with
    hstuck | horderly
  · rw [hreturned] at hstuck
    cases hstuck
  · rw [hreturned] at horderly
    rcases horderly.control with hbody | hfree
    · exact hbody
    · exact hfree

/-! ## Lists of statements -/

/-- The statements are executed in order in these steps.  The step before each
statement takes it up. -/
inductive InOrder (setting : Float → Setting) :
    List Stmt → State → List Float → State → Prop where
  | nil {st : State} : InOrder setting [] st [] st
  | cons {s : Stmt} {rest : List Stmt} {st st₁ st' : State} {now : Float}
      {first later : List Float} (head : Completes setting s st first st₁)
      (tail : InOrder setting rest st₁ later st') :
      InOrder setting (s :: rest) st (now :: (first ++ later)) st'

/-- What the run of a program has come to after some steps: all statements have
been executed in order; or those before one that failed; or the run goes on. -/
inductive Progress (setting : Float → Setting) (program : List Stmt)
    (st : State) (times : List Float) : Machine → Prop where
  | done {used spare : List Float} {now : Float} {st' : State}
      (steps : times = used ++ now :: spare)
      (order : InOrder setting program st used st') :
      Progress setting program st times ⟨.completed .normal, [], st'⟩
  | failed {before after : List Stmt} {s : Stmt} {used part spare : List Float}
      {now : Float} {st₁ st' : State} {f : Failure}
      (statements : program = before ++ s :: after)
      (steps : times = used ++ now :: (part ++ spare))
      (order : InOrder setting before st used st₁)
      (fails : Aborts setting s st₁ part f st') :
      Progress setting program st times ⟨.failed f, [], st'⟩
  | goesOn {m : Machine} (h : m.outcome? = none) :
      Progress setting program st times m

/-- A run can be cut where it first comes to an outcome. -/
theorem exists_first_outcome (setting : Float → Setting) (times : List Float)
    (m : Machine) :
    ∃ first rest, times = first ++ rest ∧
      (∀ k < first.length, (runAlong setting (first.take k) m).outcome? = none) ∧
      (rest = [] ∨ (runAlong setting first m).outcome? ≠ none) := by
  induction times generalizing m with
  | nil => exact ⟨[], [], rfl, by rintro k ⟨⟩, .inl rfl⟩
  | cons now times ih =>
    by_cases hrunning : m.outcome? = none
    · obtain ⟨first, rest, rfl, hbefore, hcut⟩ := ih (step (setting now) m)
      refine ⟨now :: first, rest, rfl, fun k hk => ?_, hcut⟩
      cases k with
      | zero => exact hrunning
      | succ k => exact hbefore k (Nat.lt_of_succ_lt_succ hk)
    · exact ⟨[], now :: times, rfl, by rintro k ⟨⟩, .inr hrunning⟩

/-- The progress of a program whose first statement has been executed. -/
theorem Progress.cons {s : Stmt} {rest : List Stmt} {st₁ : State} {now : Float}
    {first later : List Float} {m : Machine}
    (head : Completes setting s st first st₁)
    (h : Progress setting rest st₁ later m) :
    Progress setting (s :: rest) st (now :: (first ++ later)) m := by
  cases h with
  | @done used spare now' st' steps order =>
    have hsteps : now :: (first ++ later) =
        (now :: (first ++ used)) ++ now' :: spare := by
      rw [steps, List.cons_append, List.append_assoc]
    exact .done hsteps (.cons head order)
  | @failed before after s' used part spare now' st₂ st' f statements steps
      order fails =>
    have hstatements : s :: rest = (s :: before) ++ s' :: after := by
      rw [statements, List.cons_append]
    have hsteps : now :: (first ++ later) =
        (now :: (first ++ used)) ++ now' :: (part ++ spare) := by
      rw [steps, List.cons_append, List.append_assoc]
    exact .failed hstatements hsteps (.cons head order) fails
  | goesOn hrunning => exact .goesOn hrunning

/-- The run of a program makes progress. -/
theorem progress_ofProgram (setting : Float → Setting)
    (hprogram : Stmt.AllReturnFree program) (st : State) (times : List Float) :
    Progress setting program st times
      (runAlong setting times (.ofProgram program st)) := by
  induction program generalizing st times with
  | nil =>
    cases times with
    | nil => exact .goesOn rfl
    | cons now spare =>
      show Progress setting [] st _
        (runAlong setting spare ⟨.completed .normal, [], st⟩)
      rw [runAlong_of_halted rfl]
      exact .done (List.nil_append _).symm .nil
  | cons s rest ih =>
    obtain ⟨hs, hrest⟩ := hprogram
    cases times with
    | nil => exact .goesOn rfl
    | cons now times =>
      obtain ⟨first, later, rfl, hbefore, hcut⟩ :=
        exists_first_outcome setting times ⟨.exec s, [], st⟩
      have htop : runAlong setting first ⟨.exec s, [.program rest], st⟩ =
          (runAlong setting first ⟨.exec s, [], st⟩).onTop [.program rest] :=
        runAlong_onTop (m := ⟨.exec s, [], st⟩) hbefore [.program rest]
      show Progress setting (s :: rest) st _ (runAlong setting (first ++ later)
        ⟨.exec s, [.program rest], st⟩)
      rw [runAlong_append, htop]
      have hreturned := ne_returned setting hs st first
      generalize hm : runAlong setting first ⟨.exec s, [], st⟩ = m at hcut hreturned
      obtain ⟨control, stack, st₁⟩ := m
      -- As long as there are steps left, the statement has come to an outcome.
      rcases hcut with rfl | houtcome
      · refine .goesOn ?_
        rw [runAlong]
        exact outcome?_append_singleton control stack _ st₁
      · obtain ⟨rfl, ⟨v, rfl⟩ | ⟨c, rfl⟩ | ⟨f, rfl⟩⟩ :=
          eq_nil_of_outcome?_ne houtcome
        · refine .goesOn ?_
          cases later with
          | nil => rfl
          | cons now' later =>
            show (runAlong setting later ⟨.stuck, [], st₁⟩).outcome? = none
            rw [runAlong_of_halted rfl]
            rfl
        · cases c with
          | returned v => exact absurd rfl (hreturned v st₁)
          | normal => exact .cons ⟨hm, hbefore⟩ (ih hrest st₁ later)
        · cases later with
          | nil => exact .goesOn rfl
          | cons now' later =>
            show Progress setting (s :: rest) st _
              (runAlong setting later ⟨.failed f, [], st₁⟩)
            rw [runAlong_of_halted rfl]
            exact .failed (List.nil_append _).symm (List.nil_append _).symm .nil
              ⟨hm, hbefore⟩

/-! ## Nothing gets stuck -/

/-- A machine that has halted without an outcome is stuck. -/
theorem isStuck_of_halted {m : Machine} (h : m.halted = true)
    (hm : m.outcome? = none) : m.control.isStuck = true := by
  obtain ⟨control, stack, st⟩ := m
  cases control with
  | stuck => rfl
  | eval | exec => cases h
  | value | completed | failed =>
    cases stack with
    | nil => cases hm
    | cons => cases h

/-- What the host provides is complete: the setting is the same at all times but
for the clock and the distances, its native functions hand out only native
functions that it has, and so do the variables and fields of the state. -/
structure Furnished (setting : Float → Setting) (st : State) : Prop where
  same : ∀ now, (setting now).maxDepth = (setting 0).maxDepth ∧
    (setting now).natives = (setting 0).natives
  keeps : (setting 0).All
    (Behaviour.Keeps (.known (setting 0).natives.size))
  store : st.store.All (Value.From (.known (setting 0).natives.size))
  depth : st.depth ≤ (setting 0).maxDepth

/-- A program does not get stuck. -/
theorem isStuck_runAlong (h : Furnished setting st) (program : List Stmt)
    (times : List Float) :
    (runAlong setting times (.ofProgram program st)).control.isStuck = false := by
  have hsize (now : Float) :
      (setting now).natives.size = (setting 0).natives.size := by
    rw [(h.same now).2]
  have hkeeps (now : Float) : (setting now).All
      (Behaviour.Keeps (.known (setting 0).natives.size)) := by
    unfold Setting.All
    rw [(h.same now).2]
    exact h.keeps
  have hfrom : (Machine.ofProgram program st).From
      (.known (setting 0).natives.size) :=
    from_ofProgram (fun _ _ => trivial) h.store
  have hbalanced : Balanced (setting 0).maxDepth st.frame st.depth
      (.ofProgram program st) :=
    ⟨⟨rfl, rfl, h.depth⟩, rfl, trivial⟩
  let Moves (m : Machine) : Prop :=
    m.From (.known (setting 0).natives.size) ∧
      Balanced (setting 0).maxDepth st.frame st.depth m ∧
      m.control.isStuck = false
  have hstep (now : Float) (m : Machine) (hm : Moves m) :
      Moves (step (setting now) m) := by
    obtain ⟨hm, hlevel, hcontrol⟩ := hm
    refine ⟨from_step hm (hkeeps now), balanced_step hlevel (h.same now).1, ?_⟩
    rw [← hsize now] at hm
    exact isStuck_step hm hlevel.suits hcontrol
  exact (runAlong_induction (motive := Moves) hstep ⟨hfrom, hbalanced, rfl⟩
    times).2.2

end Lox.Machine
