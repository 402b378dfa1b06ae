import Lox.Proofs.Machine.Labels

/-!
# Runs

A run is looked at along a list of times, one step for each, so that the
clock may go on while a program runs; `run` is the run along the same time
again and again (`run_eq_runAlong`).

Two facts hold of every run.  It does not see labels (`runAlong_relabel`).
And what lies at the bottom of the stack has no part in it until it is
reached (`runAlong_onTop`).

A run with a clock looks at it before every step.  Once it has come to an
outcome it stays as it is (`runAlong_ticks_of_le`).
-/

namespace Lox.Machine

variable {setting : Float → Setting}

/-- Does one step at each of the times. -/
def runAlong (setting : Float → Setting) : List Float → Machine → Machine
  | [], m => m
  | now :: times, m => runAlong setting times (step (setting now) m)

theorem runAlong_append (times times' : List Float) (m : Machine) :
    runAlong setting (times ++ times') m =
      runAlong setting times' (runAlong setting times m) := by
  induction times generalizing m with
  | nil => rfl
  | cons now times ih => exact ih _

theorem step_of_halted {set : Setting} {m : Machine} (h : m.halted = true) :
    step set m = m := by
  obtain ⟨control, stack, st⟩ := m
  cases control with
  | eval | exec => cases h
  | value | completed | failed =>
    cases stack with
    | nil => rfl
    | cons => cases h
  | stuck => rfl

/-- A machine that has halted stays as it is. -/
theorem runAlong_of_halted {m : Machine} (h : m.halted = true)
    (times : List Float) : runAlong setting times m = m := by
  induction times with
  | nil => rfl
  | cons now times ih => rw [runAlong, step_of_halted h, ih]

theorem run_eq_runAlong (now : Float) (steps : Nat) (m : Machine) :
    run (setting now) steps m =
      runAlong setting (List.replicate steps now) m := by
  induction steps generalizing m with
  | zero => rfl
  | succ steps ih =>
    rw [run]
    split
    · next h => rw [runAlong_of_halted h]
    · exact ih _

/-- What one step keeps a run keeps. -/
theorem runAlong_induction {motive : Machine → Prop}
    (h : ∀ now m, motive m → motive (step (setting now) m)) {m : Machine}
    (hm : motive m) (times : List Float) : motive (runAlong setting times m) := by
  induction times generalizing m with
  | nil => exact hm
  | cons now times ih => exact ih (h now m hm)

/-- A run commutes with every change of labels under which the distances
agree. -/
theorem runAlong_relabel {ρ : Labeling} {setting' : Float → Setting}
    (h : ∀ now, (setting now).Agrees ρ (setting' now)) (times : List Float)
    (m : Machine) :
    runAlong setting' times (m.relabel ρ) =
      (runAlong setting times m).relabel ρ := by
  induction times generalizing m with
  | nil => rfl
  | cons now times ih => rw [runAlong, step_relabel (h now), ih, runAlong]

/-! ## The bottom of the stack -/

/-- A machine that has an outcome has nothing pending. -/
theorem eq_nil_of_outcome?_ne {control : Control} {stack : List Pending}
    {st : State} (h : (⟨control, stack, st⟩ : Machine).outcome? ≠ none) :
    stack = [] ∧ ((∃ v, control = .value v) ∨ (∃ c, control = .completed c) ∨
      ∃ f, control = .failed f) := by
  cases stack with
  | cons pending stack => cases control <;> exact absurd rfl h
  | nil =>
    cases control with
    | value v => exact ⟨rfl, .inl ⟨v, rfl⟩⟩
    | completed c => exact ⟨rfl, .inr (.inl ⟨c, rfl⟩)⟩
    | failed f => exact ⟨rfl, .inr (.inr ⟨f, rfl⟩)⟩
    | _ => exact absurd rfl h

/-- The machine with more to do behind what it has to do. -/
def onTop (base : List Pending) (m : Machine) : Machine :=
  ⟨m.control, m.stack ++ base, m.state⟩

section

variable (set : Setting) (base stack : List Pending) (st : State)

theorem deliver_onTop (result : Except Failure Value) :
    deliver result (stack ++ base) st = (deliver result stack st).onTop base := by
  cases result <;> rfl

theorem construct_onTop (c : Class) (arguments : List Value) (line : Nat) :
    construct c arguments line (stack ++ base) st =
      (construct c arguments line stack st).onTop base := by
  simp only [construct]
  cases c.findMethod? initializerName <;> rfl

theorem enter_onTop (callee : Callable) (arguments : List Value) (line : Nat) :
    enter set callee arguments line (stack ++ base) st =
      (enter set callee arguments line stack st).onTop base := by
  cases callee with
  | closure f => rfl
  | cls c => exact construct_onTop base stack st c arguments line
  | native function =>
    simp only [enter]
    cases set.natives[function.id]? with
    | none => rfl
    | some behaviour =>
      simp only
      cases behaviour set.now arguments <;> rfl

theorem invoke_onTop (callee : Callable) (arguments : List Value) (line : Nat) :
    invoke set callee arguments line (stack ++ base) st =
      (invoke set callee arguments line stack st).onTop base := by
  simp only [invoke]
  split
  · rfl
  · split
    · rfl
    · exact enter_onTop set base (.invocation :: stack) _ callee arguments line

theorem settle_onTop (v : Value) (line : Nat) :
    settle set v line (stack ++ base) st =
      (settle set v line stack st).onTop base := by
  cases v with
  | function f =>
    simp only [settle]
    split
    · exact invoke_onTop set base stack st _ _ _
    · rfl
  | _ => rfl

theorem passArguments_onTop (callee : Callable) (line : Nat)
    (earlier : List Value) (later : List Expr) :
    passArguments set callee line earlier later (stack ++ base) st =
      (passArguments set callee line earlier later stack st).onTop base := by
  cases later with
  | nil => exact invoke_onTop set base stack st _ _ _
  | cons e later => rfl

theorem readProperty_onTop (object : Value) (id : ObjectId)
    (method? : String → Option Closure) (owner : String) (name : Ident) :
    readProperty set object id method? owner name (stack ++ base) st =
      (readProperty set object id method? owner name stack st).onTop base := by
  simp only [readProperty]
  cases st.store.field? id name.name with
  | some v => exact settle_onTop set base stack st v name.line
  | none =>
    cases method? name.name with
    | none => rfl
    | some method => exact settle_onTop set base stack _ _ name.line

theorem getProperty_onTop (object : Value) (name : Ident) :
    getProperty set object name (stack ++ base) st =
      (getProperty set object name stack st).onTop base := by
  cases object with
  | inst | cls =>
    simp only [getProperty]
    exact readProperty_onTop set base stack st _ _ _ _ name
  | _ => rfl

theorem bindSuper_onTop (superclass : Class) (distance line : Nat)
    (method : Ident) :
    bindSuper set superclass distance line method (stack ++ base) st =
      (bindSuper set superclass distance line method stack st).onTop base := by
  cases distance with
  | zero => rfl
  | succ inner =>
    simp only [bindSuper]
    cases st.store.readAt st.frame inner Keyword.kwThis.lexeme line with
    | error f => rfl
    | ok object =>
      simp only
      cases superclass.findMethod? method.name with
      | none => rfl
      | some f => exact settle_onTop set base stack _ _ method.line

theorem getSuper_onTop (id line : Nat) (method : Ident) :
    getSuper set id line method (stack ++ base) st =
      (getSuper set id line method stack st).onTop base := by
  simp only [getSuper]
  cases set.distances.find? id with
  | none => rfl
  | some distance =>
    simp only
    cases st.store.readAt st.frame distance Keyword.kwSuper.lexeme line with
    | error f => rfl
    | ok v =>
      cases v with
      | cls c => exact bindSuper_onTop set base stack st c distance line method
      | _ => rfl

theorem nameClass_onTop (name : Ident) (c : Class) (store : Store) :
    nameClass name c store (stack ++ base) st =
      (nameClass name c store stack st).onTop base := by
  simp only [nameClass]
  cases store.owner? st.frame name.name <;> rfl

theorem makeClass_onTop (declaration : ClassDecl) (superclass : Option Class) :
    makeClass declaration superclass (stack ++ base) st =
      (makeClass declaration superclass stack st).onTop base := by
  cases superclass with
  | none => exact nameClass_onTop base stack st _ _ _
  | some parent => exact nameClass_onTop base stack st _ _ _

theorem evaluate_onTop (e : Expr) :
    evaluate set e (stack ++ base) st =
      (evaluate set e stack st).onTop base := by
  cases e with
  | «variable» | this => exact deliver_onTop base stack st _
  | super id line method => exact getSuper_onTop set base stack st id line method
  | _ => rfl

theorem execute_onTop (s : Stmt) :
    execute s (stack ++ base) st = (execute s stack st).onTop base := by
  cases s with
  | var name initializer => cases initializer <;> rfl
  | «return» line value => cases value <;> rfl
  | «class» declaration =>
    simp only [execute]
    cases declaration.superclass with
    | none => exact makeClass_onTop base stack _ declaration none
    | some parent => rfl
  | _ => rfl

theorem resume_onTop (v : Value) (pending : Pending) :
    resume set v pending (stack ++ base) st =
      (resume set v pending stack st).onTop base := by
  cases pending with
  | unary | binaryRight => exact deliver_onTop base stack st _
  | logical op right =>
    simp only [resume]
    split <;> rfl
  | assign target =>
    simp only [resume, assign]
    cases owner? set st target <;> rfl
  | callee line arguments =>
    simp only [resume]
    cases v.callable? with
    | none => rfl
    | some c => exact passArguments_onTop set base stack st c line [] arguments
  | argument c line earlier later =>
    exact passArguments_onTop set base stack st c line (v :: earlier) later
  | get name => exact getProperty_onTop set base stack st v name
  | setObject name value =>
    simp only [resume]
    cases objectId? v <;> rfl
  | print =>
    simp only [resume, printValue]
    cases (st.sink.writeLine v.display).2 <;> rfl
  | branch thenBranch elseBranch =>
    simp only [resume]
    split
    · rfl
    · cases elseBranch <;> rfl
  | loopTest condition body =>
    simp only [resume]
    split <;> rfl
  | superclass declaration line =>
    cases v with
    | cls parent =>
      exact makeClass_onTop base stack st declaration (some parent)
    | _ => rfl
  | _ => rfl

theorem complete_onTop (c : Completion) (pending : Pending) :
    complete c pending (stack ++ base) st =
      (complete c pending stack st).onTop base := by
  cases pending with
  | loopBody condition body => cases c <;> rfl
  | block later saved => cases c <;> cases later <;> rfl
  | body f line => exact deliver_onTop base stack st _
  | program later => cases c <;> cases later <;> rfl
  | _ => rfl

end

/-- As long as a machine has something to do, what lies below its stack does
not matter. -/
theorem step_onTop (set : Setting) (base : List Pending) {m : Machine}
    (h : m.outcome? = none) :
    step set (m.onTop base) = (step set m).onTop base := by
  obtain ⟨control, stack, st⟩ := m
  cases control with
  | eval e => exact evaluate_onTop set base stack st e
  | exec s => exact execute_onTop base stack st s
  | value v =>
    cases stack with
    | nil => cases h
    | cons pending stack => exact resume_onTop set base stack st v pending
  | completed c =>
    cases stack with
    | nil => cases h
    | cons pending stack => exact complete_onTop base stack st c pending
  | failed f =>
    cases stack with
    | nil => cases h
    | cons pending stack => rfl
  | stuck => rfl

/-- Until it has an outcome, a machine runs on top of any stack as it does on
its own. -/
theorem runAlong_onTop {times : List Float} {m : Machine}
    (h : ∀ k < times.length, (runAlong setting (times.take k) m).outcome? = none)
    (base : List Pending) :
    runAlong setting times (m.onTop base) =
      (runAlong setting times m).onTop base := by
  induction times generalizing m with
  | nil => rfl
  | cons now times ih =>
    have hfirst : m.outcome? = none := h 0 (Nat.zero_lt_succ _)
    rw [runAlong, step_onTop _ base hfirst]
    exact ih fun k hk => h (k + 1) (Nat.succ_lt_succ hk)

/-- A run can be cut where it first comes to an outcome, or else at its end.
Up to there it goes in the same way on top of any stack. -/
theorem runAlong_cut (setting : Float → Setting) (times : List Float)
    (m : Machine) :
    ∃ first rest, times = first ++ rest ∧
      (rest = [] ∨ (runAlong setting first m).outcome? ≠ none) ∧
      ∀ base, runAlong setting first (m.onTop base) =
        (runAlong setting first m).onTop base := by
  induction times generalizing m with
  | nil => exact ⟨[], [], rfl, .inl rfl, fun _ => rfl⟩
  | cons now times ih =>
    by_cases hrunning : m.outcome? = none
    · obtain ⟨first, rest, rfl, hcut, hrun⟩ := ih (step (setting now) m)
      refine ⟨now :: first, rest, rfl, hcut, fun base => ?_⟩
      rw [runAlong, step_onTop _ base hrunning]
      exact hrun base
    · exact ⟨[], now :: times, rfl, .inr hrunning, fun _ => rfl⟩

/-! ## Runs that end -/

theorem halted_of_outcome? {m : Machine} (h : m.outcome? ≠ none) :
    m.halted = true := by
  obtain ⟨control, stack, st⟩ := m
  obtain ⟨rfl, ⟨v, rfl⟩ | ⟨c, rfl⟩ | ⟨f, rfl⟩⟩ := eq_nil_of_outcome?_ne h <;> rfl

/-- The times at which a clock is looked at in the first `n` steps. -/
def ticks (clock : Nat → Float) (n : Nat) : List Float :=
  (List.range n).map clock

theorem ticks_add (clock : Nat → Float) (n k : Nat) :
    ticks clock (n + k) = ticks clock n ++ ticks (fun i => clock (n + i)) k := by
  simp only [ticks, List.range_add, List.map_append, List.map_map]
  rfl

theorem runAlong_ticks_succ (clock : Nat → Float) (n : Nat) (m : Machine) :
    runAlong setting (ticks clock (n + 1)) m =
      runAlong setting (ticks (fun i => clock (1 + i)) n)
        (step (setting (clock 0)) m) := by
  rw [Nat.add_comm, ticks_add, runAlong_append]
  rfl

/-- A run that has come to an outcome is the same for more ticks. -/
theorem runAlong_ticks_of_le {clock : Nat → Float} {m : Machine} {n n' : Nat}
    (hle : n ≤ n')
    (h : (runAlong setting (ticks clock n) m).outcome? ≠ none) :
    runAlong setting (ticks clock n') m = runAlong setting (ticks clock n) m := by
  obtain ⟨k, rfl⟩ := Nat.exists_eq_add_of_le hle
  rw [ticks_add, runAlong_append, runAlong_of_halted (halted_of_outcome? h)]

/-- With this clock the run comes to an outcome. -/
def Ends (setting : Float → Setting) (clock : Nat → Float) (m : Machine) :
    Prop :=
  ∃ n, (runAlong setting (ticks clock n) m).outcome? ≠ none

/-- A run ends if it does so from some machine on its way. -/
theorem Ends.of_run {clock : Nat → Float} {m : Machine} (n : Nat)
    (h : Ends setting (fun i => clock (n + i))
      (runAlong setting (ticks clock n) m)) : Ends setting clock m := by
  obtain ⟨k, hk⟩ := h
  refine ⟨n + k, ?_⟩
  rw [ticks_add, runAlong_append]
  exact hk

/-- A machine that ends on its own does so on top of any stack. -/
theorem Ends.onTop {clock : Nat → Float} {m : Machine}
    (h : Ends setting clock m) (base : List Pending) :
    ∃ n, (runAlong setting (ticks clock n) m).outcome? ≠ none ∧
      runAlong setting (ticks clock n) (m.onTop base) =
        (runAlong setting (ticks clock n) m).onTop base := by
  obtain ⟨n, hn⟩ := h
  induction n generalizing clock m with
  | zero => exact ⟨0, hn, rfl⟩
  | succ n ih =>
    by_cases hrunning : m.outcome? = none
    · rw [runAlong_ticks_succ] at hn
      obtain ⟨k, houtcome, hrun⟩ := ih hn
      refine ⟨k + 1, ?_⟩
      rw [runAlong_ticks_succ, runAlong_ticks_succ, step_onTop _ base hrunning]
      exact ⟨houtcome, hrun⟩
    · exact ⟨0, hrunning, rfl⟩

end Lox.Machine
