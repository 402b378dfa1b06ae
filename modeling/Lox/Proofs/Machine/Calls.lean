import Lox.Proofs.Machine.Run

/-!
# The calls of a run

A step makes at most one call: when the last argument of a call has its
value, or when a getter is read from an object or through `super`.
`nextCall?` says which call that is.  All that a step does with the limit on
the depth of calls, it does in making that call (`makes_step`): a step
without a call is the same under every limit, and it never reports a stack
overflow.

So a stack overflow is reported exactly where a call with the right number of
arguments is made at the limit (`overflow_iff`).
-/

namespace Lox.Machine

/-- A call that is made, with the stack and the state it is made in. -/
structure Call where
  callee : Callable
  arguments : List Value
  line : Nat
  stack : List Pending
  state : State

/-- The machine after the call was made. -/
def Call.make (set : Setting) (c : Call) : Machine :=
  invoke set c.callee c.arguments c.line c.stack c.state

/-- The callee takes as many arguments as it is given. -/
def Call.Matches (c : Call) : Prop :=
  c.arguments.length = c.callee.arity

/-- The setting with another limit on the depth of calls. -/
def Setting.withLimit (set : Setting) (limit : Nat) : Setting :=
  { set with maxDepth := limit }

/-! ## Which call a step makes -/

/-- The call of a value read from an object, if it is a getter. -/
def getterCall? (v : Value) (line : Nat) (stack : List Pending) (st : State) :
    Option Call :=
  match v with
  | .function f =>
    if f.isGetter then some ⟨.closure f, [], line, stack, st⟩ else none
  | _ => none

/-- The call made when the arguments are complete. -/
def argumentsCall? (callee : Callable) (line : Nat) (earlier : List Value)
    (later : List Expr) (stack : List Pending) (st : State) : Option Call :=
  match later with
  | [] => some ⟨callee, earlier.reverse, line, stack, st⟩
  | _ :: _ => none

/-- The call made by reading a property of an object with this number. -/
def propertyCall? (object : Value) (id : ObjectId)
    (method? : String → Option Closure) (name : Ident) (stack : List Pending)
    (st : State) : Option Call :=
  match st.store.field? id name.name with
  | some v => getterCall? v name.line stack st
  | none =>
    match method? name.name with
    | some method =>
      let (store, bound) := st.store.bindMethod method object
      getterCall? (.function bound) name.line stack { st with store := store }
    | none => none

/-- The call made by reading a property of a value. -/
def getCall? (object : Value) (name : Ident) (stack : List Pending)
    (st : State) : Option Call :=
  match object with
  | .inst o =>
    propertyCall? object o.id (fun name => o.cls.findMethod? name) name stack st
  | .cls c =>
    propertyCall? object c.id (fun name => c.findStatic? name) name stack st
  | _ => none

/-- The call made by binding a method of the superclass. -/
def bindSuperCall? (superclass : Class) (distance line : Nat) (method : Ident)
    (stack : List Pending) (st : State) : Option Call :=
  match distance with
  | 0 => none
  | inner + 1 =>
    match st.store.readAt st.frame inner Keyword.kwThis.lexeme line with
    | .error _ => none
    | .ok object =>
      match superclass.findMethod? method.name with
      | none => none
      | some f =>
        let (store, bound) := st.store.bindMethod f object
        getterCall? (.function bound) method.line stack
          { st with store := store }

/-- The call made by reading a method through `super`. -/
def superCall? (set : Setting) (id line : Nat) (method : Ident)
    (stack : List Pending) (st : State) : Option Call :=
  match set.distances.find? id with
  | none => none
  | some distance =>
    match st.store.readAt st.frame distance Keyword.kwSuper.lexeme line with
    | .ok (.cls superclass) =>
      bindSuperCall? superclass distance line method stack st
    | _ => none

/-- The call made by handing a value to a construct. -/
def resumeCall? (v : Value) (pending : Pending) (stack : List Pending)
    (st : State) : Option Call :=
  match pending with
  | .callee line arguments =>
    match v.callable? with
    | some callee => argumentsCall? callee line [] arguments stack st
    | none => none
  | .argument callee line earlier later =>
    argumentsCall? callee line (v :: earlier) later stack st
  | .get name => getCall? v name stack st
  | _ => none

/-- The call that the next step makes. -/
def nextCall? (set : Setting) (m : Machine) : Option Call :=
  match m with
  | ⟨.eval (.super id line method), stack, st⟩ =>
    superCall? set id line method stack st
  | ⟨.value v, pending :: stack, st⟩ => resumeCall? v pending stack st
  | _ => none

/-! ## What a step does apart from its call -/

/-- Whether a stack overflow is reported. -/
def Control.isOverflow : Control → Bool
  | failed (.stackOverflow _ _) => true
  | _ => false

theorem Control.ne_of_isOverflow {control : Control}
    (h : control.isOverflow = false) (limit line : Nat) :
    control ≠ .failed (.stackOverflow limit line) := by
  rintro rfl
  cases h

/-- Under each limit the operation makes the call, at this depth and with
this sink; or, without a call, it is the same under every limit and reports
no stack overflow. -/
inductive Makes (set : Setting) (depth : Nat) (sink : Sink)
    (operation : Nat → Machine) : Option Call → Prop where
  | call {c : Call} (level : c.state.depth = depth)
      (printed : c.state.sink = sink)
      (made : ∀ limit, operation limit = c.make (set.withLimit limit)) :
      Makes set depth sink operation (some c)
  | none (same : ∀ limit limit', operation limit = operation limit')
      (quiet : ∀ limit, (operation limit).control.isOverflow = false) :
      Makes set depth sink operation none

@[simp] theorem distances_withLimit (set : Setting) (limit : Nat) :
    (set.withLimit limit).distances = set.distances := rfl

section

variable (set : Setting) (stack : List Pending) (st : State)

/-- An operation that does not look at the limit and does not report a stack
overflow makes no call. -/
theorem makes_constant {depth : Nat} {sink : Sink} {m : Machine}
    (h : m.control.isOverflow = false) :
    Makes set depth sink (fun _ => m) none :=
  .none (fun _ _ => rfl) fun _ => h

theorem isOverflow_deliver {result : Except Failure Value}
    (h : ∀ f, result = .error f → (Control.failed f).isOverflow = false) :
    (deliver result stack st).control.isOverflow = false := by
  cases result with
  | ok v => rfl
  | error f => exact h f rfl

theorem makes_settle (v : Value) (line : Nat) :
    Makes set st.depth st.sink
      (fun limit => settle (set.withLimit limit) v line stack st)
      (getterCall? v line stack st) := by
  cases v with
  | function f =>
    by_cases hgetter : f.isGetter = true
    · simp only [settle, getterCall?, hgetter, if_true]
      exact .call rfl rfl fun _ => rfl
    · simp only [settle, getterCall?, if_neg hgetter]
      exact makes_constant set rfl
  | _ => exact makes_constant set rfl

theorem makes_passArguments (callee : Callable) (line : Nat)
    (earlier : List Value) (later : List Expr) :
    Makes set st.depth st.sink
      (fun limit =>
        passArguments (set.withLimit limit) callee line earlier later stack st)
      (argumentsCall? callee line earlier later stack st) := by
  cases later with
  | nil => exact .call rfl rfl fun _ => rfl
  | cons e later => exact makes_constant set rfl

theorem makes_readProperty (object : Value) (id : ObjectId)
    (method? : String → Option Closure) (owner : String) (name : Ident) :
    Makes set st.depth st.sink
      (fun limit =>
        readProperty (set.withLimit limit) object id method? owner name stack st)
      (propertyCall? object id method? name stack st) := by
  simp only [readProperty, propertyCall?]
  cases st.store.field? id name.name with
  | some v => exact makes_settle set stack st v name.line
  | none =>
    cases method? name.name with
    | some method =>
      exact makes_settle set stack
        { st with store := (st.store.bindMethod method object).1 } _ name.line
    | none => exact makes_constant set rfl

theorem makes_getProperty (object : Value) (name : Ident) :
    Makes set st.depth st.sink
      (fun limit => getProperty (set.withLimit limit) object name stack st)
      (getCall? object name stack st) := by
  cases object with
  | inst | cls =>
    simp only [getProperty, getCall?]
    exact makes_readProperty set stack st _ _ _ _ name
  | _ => exact makes_constant set rfl

theorem makes_bindSuper (superclass : Class) (distance line : Nat)
    (method : Ident) :
    Makes set st.depth st.sink
      (fun limit => bindSuper (set.withLimit limit) superclass distance line
        method stack st)
      (bindSuperCall? superclass distance line method stack st) := by
  cases distance with
  | zero => exact makes_constant set rfl
  | succ inner =>
    simp only [bindSuper, bindSuperCall?, Store.readAt]
    cases st.store.getAt? st.frame inner Keyword.kwThis.lexeme with
    | none => exact makes_constant set rfl
    | some object =>
      simp only [Store.orUndefined]
      cases superclass.findMethod? method.name with
      | none => exact makes_constant set rfl
      | some f =>
        exact makes_settle set stack
          { st with store := (st.store.bindMethod f object).1 } _ method.line

theorem makes_getSuper (id line : Nat) (method : Ident) :
    Makes set st.depth st.sink
      (fun limit => getSuper (set.withLimit limit) id line method stack st)
      (superCall? set id line method stack st) := by
  simp only [getSuper, superCall?, distances_withLimit, Store.readAt]
  cases set.distances.find? id with
  | none => exact makes_constant set rfl
  | some distance =>
    simp only
    cases st.store.getAt? st.frame distance Keyword.kwSuper.lexeme with
    | none => exact makes_constant set rfl
    | some v =>
      cases v with
      | cls superclass =>
        exact makes_bindSuper set stack st superclass distance line method
      | _ => exact makes_constant set rfl

/-! ## Steps -/

section

variable {f : Failure}

theorem isOverflow_lookUp {id line : Nat} {name : String}
    (h : lookUp set st id name line = .error f) :
    (Control.failed f).isOverflow = false := by
  have hread {value? : Option Value}
      (h : Store.orUndefined name line value? = .error f) :
      (Control.failed f).isOverflow = false := by
    cases value? <;> cases h
    rfl
  unfold lookUp at h
  split at h <;> exact hread h

theorem isOverflow_unary {op : UnaryOp} {line : Nat} {v : Value}
    (h : op.apply line v = .error f) :
    (Control.failed f).isOverflow = false := by
  unfold UnaryOp.apply at h
  split at h <;> cases h
  rfl

theorem isOverflow_binary {op : BinaryOp} {line : Nat} {left right : Value}
    (h : op.apply line left right = .error f) :
    (Control.failed f).isOverflow = false := by
  cases op with
  | equal | notEqual => cases h
  | add =>
    simp only [BinaryOp.apply, BinaryOp.sum] at h
    split at h <;> cases h
    rfl
  | _ =>
    simp only [BinaryOp.apply, BinaryOp.onNumbers] at h
    split at h <;> cases h
    rfl

theorem isOverflow_resultOf {g : Closure} {line : Nat} {c : Completion}
    {store : Store} (h : resultOf g line c store = .error f) :
    (Control.failed f).isOverflow = false := by
  unfold resultOf Store.readAt at h
  split at h
  · cases hthis : store.getAt? g.frame 0 Keyword.kwThis.lexeme with
    | none =>
      rw [hthis] at h
      cases h
      rfl
    | some v =>
      rw [hthis] at h
      cases h
  · cases c <;> cases h

end

theorem isOverflow_makeClass (declaration : ClassDecl)
    (superclass : Option Class) :
    (makeClass declaration superclass stack st).control.isOverflow = false := by
  have hname (c : Class) (store : Store) :
      (nameClass declaration.name c store stack st).control.isOverflow =
        false := by
    simp only [nameClass]
    split <;> rfl
  cases superclass with
  | none => exact hname _ _
  | some parent => exact hname _ _

theorem makes_evaluate (e : Expr) :
    Makes set st.depth st.sink
      (fun limit => evaluate (set.withLimit limit) e stack st)
      (nextCall? set ⟨.eval e, stack, st⟩) := by
  cases e with
  | «variable» | this =>
    exact makes_constant set (isOverflow_deliver stack st fun _ hf =>
      isOverflow_lookUp set st hf)
  | super id line method => exact makes_getSuper set stack st id line method
  | _ => exact makes_constant set rfl

theorem isOverflow_execute (s : Stmt) :
    (execute s stack st).control.isOverflow = false := by
  cases s with
  | var name initializer => cases initializer <;> rfl
  | «return» line value => cases value <;> rfl
  | «class» declaration =>
    simp only [execute]
    split
    · exact isOverflow_makeClass stack _ declaration none
    · rfl
  | _ => rfl

theorem makes_resume (v : Value) (pending : Pending) :
    Makes set st.depth st.sink
      (fun limit => resume (set.withLimit limit) v pending stack st)
      (resumeCall? v pending stack st) := by
  cases pending with
  | unary op line =>
    exact makes_constant set
      (isOverflow_deliver stack st fun _ hf => isOverflow_unary hf)
  | binaryRight left op line =>
    exact makes_constant set
      (isOverflow_deliver stack st fun _ hf => isOverflow_binary hf)
  | logical op right =>
    simp only [resume, resumeCall?]
    refine makes_constant set ?_
    split <;> rfl
  | assign target =>
    have howner (limit : Nat) :
        owner? (set.withLimit limit) st target = owner? set st target := rfl
    simp only [resume, resumeCall?, assign, howner]
    refine makes_constant set ?_
    split <;> rfl
  | callee line arguments =>
    simp only [resume, resumeCall?]
    cases v.callable? with
    | none => exact makes_constant set rfl
    | some callee => exact makes_passArguments set stack st callee line _ _
  | argument callee line earlier later =>
    exact makes_passArguments set stack st callee line _ later
  | get name => exact makes_getProperty set stack st v name
  | setObject name value =>
    simp only [resume, resumeCall?]
    refine makes_constant set ?_
    split <;> rfl
  | print =>
    simp only [resume, resumeCall?, printValue]
    refine makes_constant set ?_
    split <;> rfl
  | branch thenBranch elseBranch =>
    simp only [resume, resumeCall?]
    refine makes_constant set ?_
    split
    · rfl
    · split <;> rfl
  | loopTest condition body =>
    simp only [resume, resumeCall?]
    refine makes_constant set ?_
    split <;> rfl
  | superclass declaration line =>
    cases v with
    | cls parent =>
      exact makes_constant set
        (isOverflow_makeClass stack st declaration (some parent))
    | _ => exact makes_constant set rfl
  | _ => exact makes_constant set rfl

theorem isOverflow_complete (c : Completion) (pending : Pending) :
    (complete c pending stack st).control.isOverflow = false := by
  cases pending with
  | loopBody condition body => cases c <;> rfl
  | block later saved => cases c <;> cases later <;> rfl
  | body f line =>
    exact isOverflow_deliver stack st fun _ hf => isOverflow_resultOf hf
  | program later => cases c <;> cases later <;> rfl
  | _ => rfl

end

/-- All that a step does with the limit, it does in making its call. -/
theorem makes_step (set : Setting) {m : Machine}
    (h : ∀ f, m.control ≠ .failed f) :
    Makes set m.state.depth m.state.sink
      (fun limit => step (set.withLimit limit) m) (nextCall? set m) := by
  obtain ⟨control, stack, st⟩ := m
  cases control with
  | eval e => exact makes_evaluate set stack st e
  | exec s => exact makes_constant set (isOverflow_execute stack st s)
  | value v =>
    cases stack with
    | nil => exact makes_constant set rfl
    | cons pending stack => exact makes_resume set stack st v pending
  | completed c =>
    cases stack with
    | nil => exact makes_constant set rfl
    | cons pending stack =>
      exact makes_constant set (isOverflow_complete stack st c pending)
  | failed f => exact absurd rfl (h f)
  | stuck => exact makes_constant set rfl

/-! ## Stack overflows -/

section

variable {set : Setting}

theorem enter_withLimit (limit : Nat) (callee : Callable)
    (arguments : List Value) (line : Nat) (stack : List Pending) (st : State) :
    enter (set.withLimit limit) callee arguments line stack st =
      enter set callee arguments line stack st := by
  cases callee <;> rfl

theorem isOverflow_enter (set : Setting) (callee : Callable)
    (arguments : List Value) (line : Nat) (stack : List Pending) (st : State) :
    (enter set callee arguments line stack st).control.isOverflow = false := by
  cases callee with
  | closure f => rfl
  | cls c =>
    simp only [enter, construct]
    split <;> rfl
  | native function =>
    simp only [enter]
    split
    · rfl
    · split <;> rfl

/-- A call reports a stack overflow exactly if it has the right number of
arguments and is made at the limit. -/
theorem invoke_overflow_iff {callee : Callable} {arguments : List Value}
    {line : Nat} {stack : List Pending} {st : State} {limit line' : Nat} :
    (invoke set callee arguments line stack st).control =
        .failed (.stackOverflow limit line') ↔
      arguments.length = callee.arity ∧ set.maxDepth ≤ st.depth ∧
        limit = set.maxDepth ∧ line' = line := by
  unfold invoke
  split
  · next harity => simp [harity]
  · next harity =>
    have harity : arguments.length = callee.arity := Decidable.not_not.1 harity
    split
    · next hdepth => simp [harity, hdepth, eq_comm]
    · next hdepth =>
      have hquiet := Control.ne_of_isOverflow (isOverflow_enter set callee
        arguments line (.invocation :: stack)
        { st with depth := st.depth + 1 }) limit line'
      simp [hquiet, hdepth]

/-- A step reports a stack overflow exactly if it makes a call with the right
number of arguments at the limit. -/
theorem overflow_iff {m : Machine} (h : ∀ f, m.control ≠ .failed f)
    {limit line : Nat} :
    (step set m).control = .failed (.stackOverflow limit line) ↔
      ∃ c, nextCall? set m = some c ∧ c.Matches ∧
        set.maxDepth ≤ m.state.depth ∧ limit = set.maxDepth ∧
        line = c.line := by
  have hmakes := makes_step set h
  generalize nextCall? set m = call? at hmakes ⊢
  cases hmakes with
  | @call c level printed made =>
    have hstep : step set m = c.make set := made set.maxDepth
    rw [hstep, Call.make, invoke_overflow_iff, level]
    exact ⟨fun hc => ⟨c, rfl, hc⟩, fun ⟨_, hc, hrest⟩ => by cases hc; exact hrest⟩
  | none same quiet =>
    have hquiet := Control.ne_of_isOverflow (quiet set.maxDepth) limit line
    refine ⟨fun heq => absurd heq hquiet, ?_⟩
    rintro ⟨c, hc, -⟩
    cases hc

/-- Under a higher limit a step is the same, unless it reports a stack
overflow, and then it prints nothing. -/
theorem step_withLimit {limit : Nat} (hle : set.maxDepth ≤ limit) (m : Machine) :
    step (set.withLimit limit) m = step set m ∨
      (∃ line, (step set m).control =
        .failed (.stackOverflow set.maxDepth line)) ∧
        (step set m).state.sink = m.state.sink := by
  by_cases hfailed : ∃ f, m.control = .failed f
  · -- A failure only unwinds the stack.
    obtain ⟨control, stack, st⟩ := m
    obtain ⟨f, rfl⟩ := hfailed
    cases stack <;> exact .inl rfl
  · have hmakes := makes_step set fun f hf => hfailed ⟨f, hf⟩
    generalize nextCall? set m = call? at hmakes
    cases hmakes with
    | none same quiet => exact .inl (same limit set.maxDepth)
    | @call c level printed made =>
      have hstep : step set m = c.make set := made set.maxDepth
      rw [made limit, hstep]
      by_cases harity : c.arguments.length = c.callee.arity
      · by_cases hdepth : set.maxDepth ≤ c.state.depth
        · refine .inr ⟨⟨c.line, invoke_overflow_iff.2
            ⟨harity, hdepth, rfl, rfl⟩⟩, ?_⟩
          simp only [Call.make, invoke, harity, ne_eq, not_true_eq_false,
            if_false, if_pos hdepth]
          exact printed
        · have hbelow : ¬ limit ≤ c.state.depth := by omega
          left
          simp only [Call.make, invoke, harity, ne_eq, not_true_eq_false,
            if_false, hdepth, enter_withLimit]
          exact if_neg hbelow
      · left
        simp only [Call.make, invoke, if_pos harity]

end

end Lox.Machine
