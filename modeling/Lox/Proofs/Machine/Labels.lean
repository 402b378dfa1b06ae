import Lox.Machine.Step
import Lox.Proofs.Store.Labels

/-!
# The machine does not see labels

A change of labels goes through a whole machine: its control, its stack and
its store.  The one use that the machine makes of an id is to look up its
distance, and lines are only copied into failures.  So a step commutes with
every change of labels under which the distances agree (`step_relabel`).

Native functions are code of the host.  `Behaviour.Blind` says of one that it
does not see labels either.
-/

namespace Lox

/-- The completion with other labels. -/
def Completion.relabel (ρ : Labeling) : Completion → Completion
  | normal => normal
  | returned v => returned (v.relabel ρ)

/-- What is called, with other labels. -/
def Callable.relabel (ρ : Labeling) : Callable → Callable
  | native function => native function
  | closure f => closure (f.relabel ρ)
  | cls c => cls (c.relabel ρ)

/-- Values that can neither be called nor have properties. -/
def Value.IsData : Value → Prop
  | nil | bool _ | number _ | string _ => True
  | _ => False

/-- Values that hold no code of a program. -/
def Value.IsPlain : Value → Prop
  | function _ | cls _ | inst _ => False
  | _ => True

theorem Value.IsData.isPlain {v : Value} (h : v.IsData) : v.IsPlain := by
  cases v <;> trivial

theorem Value.isData_ofLiteral (value : Literal) : (ofLiteral value).IsData := by
  cases value <;> trivial

/-- Operators give data. -/
theorem UnaryOp.isData_apply {op : UnaryOp} {line : Nat} {v w : Value}
    (h : op.apply line v = .ok w) : w.IsData := by
  unfold UnaryOp.apply at h
  split at h <;> cases h <;> trivial

theorem BinaryOp.isData_apply {op : BinaryOp} {line : Nat}
    {left right v : Value} (h : op.apply line left right = .ok v) :
    v.IsData := by
  cases op with
  | equal | notEqual =>
    cases h
    trivial
  | add =>
    simp only [BinaryOp.apply, BinaryOp.sum] at h
    split at h <;> cases h <;> trivial
  | _ =>
    simp only [BinaryOp.apply, BinaryOp.onNumbers] at h
    split at h
    · cases h
      trivial
    · cases h

namespace Machine

/-- What the machine does next, with other labels. -/
def Control.relabel (ρ : Labeling) : Control → Control
  | eval e => eval (e.relabel ρ)
  | exec s => exec (s.relabel ρ)
  | value v => value (v.relabel ρ)
  | completed c => completed (c.relabel ρ)
  | failed f => failed (f.relabel ρ)
  | stuck => stuck

/-- The construct that waits, with other labels. -/
def Pending.relabel (ρ : Labeling) : Pending → Pending
  | unary op line => unary op (ρ.line line)
  | binaryLeft op line right => binaryLeft op (ρ.line line) (right.relabel ρ)
  | binaryRight left op line => binaryRight (left.relabel ρ) op (ρ.line line)
  | logical op right => logical op (right.relabel ρ)
  | assign target => assign (target.relabel ρ)
  | callee line arguments =>
    callee (ρ.line line) (arguments.map (Expr.relabel ρ))
  | argument called line earlier later =>
    argument (called.relabel ρ) (ρ.line line)
      (earlier.map (Value.relabel ρ)) (later.map (Expr.relabel ρ))
  | get name => get (name.relabel ρ)
  | setObject name value => setObject (name.relabel ρ) (value.relabel ρ)
  | setValue object name => setValue object name
  | construct object => construct (object.relabel ρ)
  | invocation => invocation
  | discard => discard
  | print => print
  | define name => define name
  | branch thenBranch elseBranch =>
    branch (thenBranch.relabel ρ) (elseBranch.map (Stmt.relabel ρ))
  | loopTest condition inner => loopTest (condition.relabel ρ) (inner.relabel ρ)
  | giveBack => giveBack
  | superclass declaration line =>
    superclass (declaration.relabel ρ) (ρ.line line)
  | loopBody condition inner => loopBody (condition.relabel ρ) (inner.relabel ρ)
  | block later saved => block (later.map (Stmt.relabel ρ)) saved
  | body f line => body (f.relabel ρ) (ρ.line line)
  | program later => program (later.map (Stmt.relabel ρ))

/-- The state with other labels. -/
def State.relabel (ρ : Labeling) (st : State) : State :=
  { st with store := st.store.relabel ρ }

/-- A native function that does not see labels: to arguments with other
labels it gives the same result with other labels. -/
def Behaviour.Blind (behaviour : Behaviour) : Prop :=
  ∀ (ρ : Labeling) (now : Float) (arguments : List Value),
    behaviour now (arguments.map (Value.relabel ρ)) =
      (behaviour now arguments).map (Value.relabel ρ)

/-- What is asked of the native functions of the host.  They do not see
labels, and they make no functions, classes and instances of their own. -/
structure Behaviour.Faithful (behaviour : Behaviour) : Prop where
  blind : behaviour.Blind
  closed : ∀ (now : Float) (arguments : List Value) (v : Value),
    behaviour now arguments = .ok v → v.IsPlain ∨ v ∈ arguments

/-- The settings differ in their distances only, and those agree up to the
change of ids. -/
structure Setting.Agrees (ρ : Labeling) (set set' : Setting) : Prop where
  maxDepth : set'.maxDepth = set.maxDepth
  natives : set'.natives = set.natives
  now : set'.now = set.now
  globals : set'.globals = set.globals
  distances : ∀ id, set'.distances.find? (ρ.id id) = set.distances.find? id
  blind : ∀ (i : Nat) (behaviour : Behaviour),
    set.natives[i]? = some behaviour → behaviour.Blind

end Machine

/-- The machine with other labels. -/
def Machine.relabel (ρ : Labeling) (m : Machine) : Machine :=
  ⟨m.control.relabel ρ, m.stack.map (Machine.Pending.relabel ρ),
    m.state.relabel ρ⟩

/-! ## Operators and calls -/

section

variable (ρ : Labeling)

theorem UnaryOp.apply_relabel (op : UnaryOp) (line : Nat) (v : Value) :
    op.apply (ρ.line line) (v.relabel ρ) =
      relabelResult ρ (op.apply line v) := by
  cases op <;> cases v <;> rfl

theorem BinaryOp.onNumbers_relabel (operation : Float → Float → Value)
    (h : ∀ a b, (operation a b).relabel ρ = operation a b) (op : BinaryOp)
    (line : Nat) (left right : Value) :
    onNumbers operation op (ρ.line line) (left.relabel ρ) (right.relabel ρ) =
      relabelResult ρ (onNumbers operation op line left right) := by
  cases left with
  | number a =>
    cases right with
    | number b => exact congrArg Except.ok (h a b).symm
    | _ => rfl
  | _ => rfl

theorem BinaryOp.sum_relabel (line : Nat) (left right : Value) :
    sum (ρ.line line) (left.relabel ρ) (right.relabel ρ) =
      relabelResult ρ (sum line left right) := by
  cases left <;> cases right <;> rfl

theorem BinaryOp.apply_relabel (op : BinaryOp) (line : Nat)
    (left right : Value) :
    op.apply (ρ.line line) (left.relabel ρ) (right.relabel ρ) =
      relabelResult ρ (op.apply line left right) := by
  cases op with
  | equal | notEqual =>
    simp only [apply, Value.equal_relabel]
    rfl
  | add => exact sum_relabel ρ line left right
  | _ => exact onNumbers_relabel ρ _ (fun _ _ => rfl) _ line left right

theorem Value.callable?_relabel (v : Value) :
    (v.relabel ρ).callable? = v.callable?.map (Callable.relabel ρ) := by
  cases v <;> rfl

@[simp] theorem Callable.arity_relabel (callee : Callable) :
    (callee.relabel ρ).arity = callee.arity := by
  cases callee with
  | native function => rfl
  | closure f => exact f.arity_relabel ρ
  | cls c => exact c.arity_relabel ρ

end

namespace Machine

variable {ρ : Labeling} {set set' : Setting}

section

variable (ρ) (stack : List Pending) (st : State)

@[simp] theorem deliver_relabel (result : Except Failure Value) :
    deliver (relabelResult ρ result) (stack.map (Pending.relabel ρ))
        (st.relabel ρ) =
      (deliver result stack st).relabel ρ := by
  cases result <;> rfl

theorem enterBody_relabel (f : Closure) (arguments : List Value)
    (line : Nat) :
    enterBody (f.relabel ρ) (arguments.map (Value.relabel ρ)) (ρ.line line)
        (stack.map (Pending.relabel ρ)) (st.relabel ρ) =
      (enterBody f arguments line stack st).relabel ρ := by
  have hnames : (f.relabel ρ).declaration.params.map Ident.name =
      f.declaration.params.map Ident.name := by
    rw [Closure.relabel, FunctionDecl.params_relabel, List.map_map]
    rfl
  have hbody : (f.relabel ρ).declaration.body =
      f.declaration.body.map (Stmt.relabel ρ) :=
    FunctionDecl.body_relabel ρ _
  have hbindings := Table.insertAll_map (Value.relabel ρ)
    (f.declaration.params.map Ident.name) arguments .empty
  rw [Table.map_empty] at hbindings
  simp only [enterBody, hnames, hbody, hbindings, State.relabel,
    Store.nextFrame_relabel, Store.addFrame_relabel, Machine.relabel]
  rfl

theorem construct_relabel (c : Class) (arguments : List Value) (line : Nat) :
    construct (c.relabel ρ) (arguments.map (Value.relabel ρ)) (ρ.line line)
        (stack.map (Pending.relabel ρ)) (st.relabel ρ) =
      (construct c arguments line stack st).relabel ρ := by
  simp only [construct, Class.findMethod?_relabel]
  cases c.findMethod? initializerName with
  | none =>
    simp only [Option.map_none, State.relabel, Store.nextObject_relabel,
      Store.addObject_relabel]
    rfl
  | some method =>
    simp only [Option.map_some, State.relabel, Store.nextObject_relabel,
      Store.addObject_relabel]
    have hbound := Store.bindMethod_relabel ρ st.store.addObject method
      (.inst ⟨st.store.nextObject, c⟩)
    simp only [Value.relabel, Instance.relabel] at hbound
    rw [hbound]
    exact enterBody_relabel ρ (.construct ⟨st.store.nextObject, c⟩ :: stack)
      { st with store := _ } _ arguments line

end

theorem enter_relabel (h : set.Agrees ρ set') (callee : Callable)
    (arguments : List Value) (line : Nat) (stack : List Pending) (st : State) :
    enter set' (callee.relabel ρ) (arguments.map (Value.relabel ρ))
        (ρ.line line) (stack.map (Pending.relabel ρ)) (st.relabel ρ) =
      (enter set callee arguments line stack st).relabel ρ := by
  cases callee with
  | closure f => exact enterBody_relabel ρ stack st f arguments line
  | cls c => exact construct_relabel ρ stack st c arguments line
  | native function =>
    simp only [Callable.relabel, enter, h.natives, h.now]
    cases hnative : set.natives[function.id]? with
    | none => rfl
    | some behaviour =>
      simp only [h.blind _ _ hnative ρ set.now arguments]
      cases behaviour set.now arguments <;> rfl

theorem invoke_relabel (h : set.Agrees ρ set') (callee : Callable)
    (arguments : List Value) (line : Nat) (stack : List Pending) (st : State) :
    invoke set' (callee.relabel ρ) (arguments.map (Value.relabel ρ))
        (ρ.line line) (stack.map (Pending.relabel ρ)) (st.relabel ρ) =
      (invoke set callee arguments line stack st).relabel ρ := by
  simp only [invoke, List.length_map, Callable.arity_relabel, h.maxDepth]
  split
  · rfl
  · have hdepth : (st.relabel ρ).depth = st.depth := rfl
    simp only [hdepth]
    split
    · rfl
    · exact enter_relabel h callee arguments line (.invocation :: stack)
        { st with depth := st.depth + 1 }

theorem settle_relabel (h : set.Agrees ρ set') (v : Value) (line : Nat)
    (stack : List Pending) (st : State) :
    settle set' (v.relabel ρ) (ρ.line line) (stack.map (Pending.relabel ρ))
        (st.relabel ρ) =
      (settle set v line stack st).relabel ρ := by
  cases v with
  | function f =>
    simp only [Value.relabel, settle, Closure.isGetter_relabel]
    split
    · exact invoke_relabel h (.closure f) [] line stack st
    · rfl
  | _ => rfl

theorem passArguments_relabel (h : set.Agrees ρ set') (callee : Callable)
    (line : Nat) (earlier : List Value) (later : List Expr)
    (stack : List Pending) (st : State) :
    passArguments set' (callee.relabel ρ) (ρ.line line)
        (earlier.map (Value.relabel ρ)) (later.map (Expr.relabel ρ))
        (stack.map (Pending.relabel ρ)) (st.relabel ρ) =
      (passArguments set callee line earlier later stack st).relabel ρ := by
  cases later with
  | nil =>
    simp only [passArguments, List.map_nil, ← List.map_reverse]
    exact invoke_relabel h callee earlier.reverse line stack st
  | cons e later => rfl

theorem resultOf_relabel (ρ : Labeling) (f : Closure) (line : Nat)
    (c : Completion) (store : Store) :
    resultOf (f.relabel ρ) (ρ.line line) (c.relabel ρ) (store.relabel ρ) =
      relabelResult ρ (resultOf f line c store) := by
  simp only [resultOf, Closure.relabel, FunctionDecl.isInitializer_relabel]
  split
  · exact Store.readAt_relabel ρ store f.frame 0 _ line
  · cases c <;> rfl

/-! ## Properties and classes -/

theorem readProperty_relabel (h : set.Agrees ρ set') (object : Value)
    (id : ObjectId) {method? method?' : String → Option Closure}
    (hmethod : ∀ name, method?' name = (method? name).map (Closure.relabel ρ))
    (owner : String) (name : Ident) (stack : List Pending) (st : State) :
    readProperty set' (object.relabel ρ) id method?' owner (name.relabel ρ)
        (stack.map (Pending.relabel ρ)) (st.relabel ρ) =
      (readProperty set object id method? owner name stack st).relabel ρ := by
  simp only [readProperty, State.relabel, Store.field?_relabel, hmethod,
    Ident.name_relabel, Ident.line_relabel]
  cases st.store.field? id name.name with
  | some v => exact settle_relabel h v name.line stack st
  | none =>
    simp only [Option.map_none]
    cases method? name.name with
    | none => rfl
    | some method =>
      simp only [Option.map_some, Store.bindMethod_relabel]
      exact settle_relabel h (.function (st.store.bindMethod method object).2)
        name.line stack
        { st with store := (st.store.bindMethod method object).1 }

theorem getProperty_relabel (h : set.Agrees ρ set') (object : Value)
    (name : Ident) (stack : List Pending) (st : State) :
    getProperty set' (object.relabel ρ) (name.relabel ρ)
        (stack.map (Pending.relabel ρ)) (st.relabel ρ) =
      (getProperty set object name stack st).relabel ρ := by
  cases object with
  | inst o =>
    have hdisplay := Value.display_relabel ρ (.inst o)
    simp only [Value.relabel] at hdisplay
    simp only [Value.relabel, getProperty, hdisplay]
    exact readProperty_relabel h (.inst o) o.id
      (fun name => o.cls.findMethod?_relabel ρ name) _ name stack st
  | cls c =>
    have hdisplay := Value.display_relabel ρ (.cls c)
    simp only [Value.relabel] at hdisplay
    simp only [Value.relabel, getProperty, hdisplay, Class.id_relabel]
    exact readProperty_relabel h (.cls c) c.id
      (fun name => c.findStatic?_relabel ρ name) _ name stack st
  | _ => rfl

theorem objectId?_relabel (ρ : Labeling) (v : Value) :
    objectId? (v.relabel ρ) = objectId? v := by
  cases v with
  | cls c => simp only [Value.relabel, objectId?, Class.id_relabel]
  | _ => rfl

theorem bindSuper_relabel (h : set.Agrees ρ set') (superclass : Class)
    (distance line : Nat) (method : Ident) (stack : List Pending) (st : State) :
    bindSuper set' (superclass.relabel ρ) distance (ρ.line line)
        (method.relabel ρ) (stack.map (Pending.relabel ρ)) (st.relabel ρ) =
      (bindSuper set superclass distance line method stack st).relabel ρ := by
  cases distance with
  | zero => rfl
  | succ inner =>
    simp only [bindSuper, State.relabel, Store.readAt_relabel,
      Class.findMethod?_relabel, Class.name_relabel, Ident.name_relabel,
      Ident.line_relabel]
    cases st.store.readAt st.frame inner Keyword.kwThis.lexeme line with
    | error f => rfl
    | ok object =>
      simp only [relabelResult]
      cases superclass.findMethod? method.name with
      | none => rfl
      | some f =>
        simp only [Option.map_some, Store.bindMethod_relabel]
        exact settle_relabel h (.function (st.store.bindMethod f object).2)
          method.line stack
          { st with store := (st.store.bindMethod f object).1 }

theorem getSuper_relabel (h : set.Agrees ρ set') (id line : Nat)
    (method : Ident) (stack : List Pending) (st : State) :
    getSuper set' (ρ.id id) (ρ.line line) (method.relabel ρ)
        (stack.map (Pending.relabel ρ)) (st.relabel ρ) =
      (getSuper set id line method stack st).relabel ρ := by
  simp only [getSuper, h.distances, State.relabel, Store.readAt_relabel]
  cases set.distances.find? id with
  | none => rfl
  | some distance =>
    simp only
    cases st.store.readAt st.frame distance Keyword.kwSuper.lexeme line with
    | error f => rfl
    | ok v =>
      cases v with
      | cls c => exact bindSuper_relabel h c distance line method stack st
      | _ => rfl

/-- The members with other labels. -/
def Members.relabel (ρ : Labeling) (members : Members) : Members :=
  ⟨members.methods.map (Closure.relabel ρ),
    members.statics.map (Closure.relabel ρ)⟩

theorem makeMembers_relabel (ρ : Labeling) (frame : FrameId)
    (list : List FunctionDecl) (members : Members) (store : Store) :
    makeMembers frame (list.map (FunctionDecl.relabel ρ)) (members.relabel ρ)
        (store.relabel ρ) =
      ((makeMembers frame list members store).1.relabel ρ,
        (makeMembers frame list members store).2.relabel ρ) := by
  induction list generalizing members store with
  | nil => rfl
  | cons f rest ih =>
    simp only [List.map_cons, makeMembers, Store.makeClosure_relabel,
      Store.relabelMade, FunctionDecl.kind_relabel, FunctionDecl.name_relabel,
      Ident.name_relabel]
    rw [← ih]
    split <;> simp only [Members.relabel, Table.insert_map]

/-- What a class has of its own, once its members are made. -/
def infoOf (declaration : ClassDecl) (made : Members × Store) : ClassInfo :=
  ⟨made.2.nextObject, declaration.name.name, made.1.methods, made.1.statics⟩

/-- Gives a class to the nearest variable of its name. -/
def nameClass (name : Ident) (c : Class) (store : Store) (stack : List Pending)
    (st : State) : Machine :=
  match store.owner? st.frame name.name with
  | some owner =>
    ⟨.completed .normal, stack,
      { st with store := store.addObject.define owner name.name (.cls c) }⟩
  | none =>
    ⟨.failed (.undefinedVariable name.name name.line), stack,
      { st with store := store }⟩

/-- The store in which the members of a derived class are made. -/
def superStore (parent : Class) (st : State) : Store :=
  st.store.addFrame (some st.frame)
    (Table.empty.insert Keyword.kwSuper.lexeme (.cls parent))

theorem makeClass_base (declaration : ClassDecl) (stack : List Pending)
    (st : State) :
    makeClass declaration none stack st =
      let made := makeMembers st.frame declaration.methods ⟨.empty, .empty⟩
        st.store
      nameClass declaration.name (.base (infoOf declaration made)) made.2 stack
        st := rfl

theorem makeClass_derived (declaration : ClassDecl) (parent : Class)
    (stack : List Pending) (st : State) :
    makeClass declaration (some parent) stack st =
      let made := makeMembers st.store.nextFrame declaration.methods
        ⟨.empty, .empty⟩ (superStore parent st)
      nameClass declaration.name (.derived (infoOf declaration made) parent)
        made.2 stack st := rfl

theorem nameClass_relabel (ρ : Labeling) (name : Ident) (c : Class)
    (store : Store) (stack : List Pending) (st : State) :
    nameClass (name.relabel ρ) (c.relabel ρ) (store.relabel ρ)
        (stack.map (Pending.relabel ρ)) (st.relabel ρ) =
      (nameClass name c store stack st).relabel ρ := by
  have hframe : (st.relabel ρ).frame = st.frame := rfl
  simp only [nameClass, hframe, Ident.name_relabel, Store.owner?_relabel,
    Store.addObject_relabel]
  cases store.owner? st.frame name.name with
  | none => rfl
  | some owner =>
    have hdefine := Store.define_relabel ρ store.addObject owner name.name
      (.cls c)
    rw [Value.relabel] at hdefine
    simp only [hdefine]
    rfl

theorem infoOf_relabel (ρ : Labeling) (declaration : ClassDecl)
    (made : Members × Store) :
    infoOf (declaration.relabel ρ) (made.1.relabel ρ, made.2.relabel ρ) =
      (infoOf declaration made).relabel ρ := by
  simp only [infoOf, Store.nextObject_relabel, ClassDecl.relabel_eq,
    Ident.name_relabel]
  rfl

theorem superStore_relabel (ρ : Labeling) (parent : Class) (st : State) :
    superStore (parent.relabel ρ) (st.relabel ρ) =
      (superStore parent st).relabel ρ := by
  have hbindings := Table.insert_map (Value.relabel ρ) .empty
    Keyword.kwSuper.lexeme (.cls parent)
  rw [Table.map_empty, Value.relabel] at hbindings
  simp only [superStore, State.relabel, hbindings, Store.addFrame_relabel]

theorem makeClass_relabel (ρ : Labeling) (declaration : ClassDecl)
    (superclass : Option Class) (stack : List Pending) (st : State) :
    makeClass (declaration.relabel ρ) (superclass.map (Class.relabel ρ))
        (stack.map (Pending.relabel ρ)) (st.relabel ρ) =
      (makeClass declaration superclass stack st).relabel ρ := by
  have hname : (declaration.relabel ρ).name = declaration.name.relabel ρ := by
    rw [ClassDecl.relabel_eq]
  have hmethods : (declaration.relabel ρ).methods =
      declaration.methods.map (FunctionDecl.relabel ρ) := by
    rw [ClassDecl.relabel_eq]
  have hmembers (frame : FrameId) (store : Store) :=
    makeMembers_relabel ρ frame declaration.methods ⟨.empty, .empty⟩ store
  have hempty : (⟨.empty, .empty⟩ : Members).relabel ρ = ⟨.empty, .empty⟩ := rfl
  simp only [hempty] at hmembers
  cases superclass with
  | none =>
    have hstore : (st.relabel ρ).store = st.store.relabel ρ := rfl
    have hframe : (st.relabel ρ).frame = st.frame := rfl
    simp only [Option.map_none, makeClass_base, hname, hmethods, hstore, hframe,
      hmembers, infoOf_relabel]
    exact nameClass_relabel ρ declaration.name (.base _) _ stack st
  | some parent =>
    have hnext : (st.relabel ρ).store.nextFrame = st.store.nextFrame :=
      Store.nextFrame_relabel ρ st.store
    simp only [Option.map_some, makeClass_derived, hname, hmethods, hnext,
      superStore_relabel, hmembers, infoOf_relabel]
    exact nameClass_relabel ρ declaration.name (.derived _ parent) _ stack st

/-! ## Steps -/

theorem lookUp_relabel (h : set.Agrees ρ set') (st : State) (id : Nat)
    (name : String) (line : Nat) :
    lookUp set' (st.relabel ρ) (ρ.id id) name (ρ.line line) =
      relabelResult ρ (lookUp set st id name line) := by
  simp only [lookUp, h.distances, h.globals, State.relabel]
  cases set.distances.find? id with
  | none => exact Store.read_relabel ρ st.store _ name line
  | some distance => exact Store.readAt_relabel ρ st.store _ distance name line

theorem evaluate_relabel (h : set.Agrees ρ set') (e : Expr)
    (stack : List Pending) (st : State) :
    evaluate set' (e.relabel ρ) (stack.map (Pending.relabel ρ))
        (st.relabel ρ) =
      (evaluate set e stack st).relabel ρ := by
  cases e with
  | literal value =>
    simp only [Expr.relabel, evaluate, Machine.relabel, Control.relabel,
      Value.relabel_ofLiteral]
  | «variable» ref =>
    simp only [Expr.relabel, evaluate, Ref.id_relabel, Ref.name_relabel,
      Ref.line_relabel, lookUp_relabel h, deliver_relabel]
  | this id line =>
    simp only [Expr.relabel, evaluate, lookUp_relabel h, deliver_relabel]
  | super id line method =>
    simp only [Expr.relabel, evaluate, getSuper_relabel h]
  | call callee line arguments =>
    simp only [Expr.relabel, evaluate, Expr.relabelAll_eq_map]
    rfl
  | _ =>
    simp only [Expr.relabel, evaluate]
    rfl

theorem defineHere_relabel (ρ : Labeling) (st : State) (name : String)
    (v : Value) :
    defineHere (st.relabel ρ) name (v.relabel ρ) =
      (defineHere st name v).relabel ρ := by
  simp only [defineHere, State.relabel, Store.define_relabel]

theorem execute_relabel (ρ : Labeling) (s : Stmt) (stack : List Pending)
    (st : State) :
    execute (s.relabel ρ) (stack.map (Pending.relabel ρ)) (st.relabel ρ) =
      (execute s stack st).relabel ρ := by
  cases s with
  | var name initializer =>
    cases initializer with
    | none =>
      simp only [Stmt.relabel, Option.map_none, execute, Ident.name_relabel]
      exact congrArg (Machine.mk (.completed .normal) _)
        (defineHere_relabel ρ st name.name .nil)
    | some e =>
      simp only [Stmt.relabel, Option.map_some, execute]
      rfl
  | block body =>
    simp only [Stmt.relabel, Stmt.relabelAll_eq_map, execute, State.relabel,
      Store.nextFrame_relabel]
    rw [← Table.map_empty (Value.relabel ρ), Store.addFrame_relabel]
    rfl
  | ifElse condition thenBranch elseBranch =>
    simp only [Stmt.relabel_ifElse, execute]
    rfl
  | function f =>
    simp only [Stmt.relabel, execute, State.relabel, Store.makeClosure_relabel,
      Store.relabelMade, FunctionDecl.name_relabel, Ident.name_relabel]
    have hdefine := Store.define_relabel ρ (st.store.makeClosure f st.frame).1
      st.frame f.name.name (.function (st.store.makeClosure f st.frame).2)
    rw [Value.relabel] at hdefine
    rw [hdefine]
    rfl
  | «return» line value =>
    cases value <;> simp only [Stmt.relabel, Option.map, execute] <;> rfl
  | «class» declaration =>
    have hhere : defineHere (st.relabel ρ) declaration.name.name .nil =
        (defineHere st declaration.name.name .nil).relabel ρ :=
      defineHere_relabel ρ st declaration.name.name .nil
    have hname : (declaration.relabel ρ).name.name = declaration.name.name := by
      rw [ClassDecl.relabel_eq]
      rfl
    have hsuper : (declaration.relabel ρ).superclass =
        declaration.superclass.map (Ref.relabel ρ) := by
      rw [ClassDecl.relabel_eq]
    simp only [Stmt.relabel, execute, hname, hsuper, hhere]
    cases declaration.superclass with
    | none => exact makeClass_relabel ρ declaration none stack _
    | some parent =>
      simp only [Option.map_some, Machine.relabel, Control.relabel,
        Expr.relabel]
      rfl
  | _ =>
    simp only [Stmt.relabel, execute]
    rfl

theorem owner?_relabel (h : set.Agrees ρ set') (st : State) (target : Ref) :
    owner? set' (st.relabel ρ) (target.relabel ρ) = owner? set st target := by
  simp only [owner?, Ref.id_relabel, Ref.name_relabel, h.distances, h.globals,
    State.relabel, Store.ownerAt?_relabel, Store.owner?_relabel]

theorem assign_relabel (h : set.Agrees ρ set') (target : Ref) (v : Value)
    (stack : List Pending) (st : State) :
    assign set' (target.relabel ρ) (v.relabel ρ)
        (stack.map (Pending.relabel ρ)) (st.relabel ρ) =
      (assign set target v stack st).relabel ρ := by
  simp only [assign, owner?_relabel h]
  cases owner? set st target with
  | none => rfl
  | some owner =>
    simp only [State.relabel, Ref.name_relabel, Store.define_relabel]
    rfl

theorem printValue_relabel (ρ : Labeling) (v : Value) (stack : List Pending)
    (st : State) :
    printValue (v.relabel ρ) (stack.map (Pending.relabel ρ)) (st.relabel ρ) =
      (printValue v stack st).relabel ρ := by
  simp only [printValue, Value.display_relabel, State.relabel]
  cases (st.sink.writeLine v.display).2 <;> rfl

theorem resume_relabel (h : set.Agrees ρ set') (v : Value) (pending : Pending)
    (stack : List Pending) (st : State) :
    resume set' (v.relabel ρ) (pending.relabel ρ)
        (stack.map (Pending.relabel ρ)) (st.relabel ρ) =
      (resume set v pending stack st).relabel ρ := by
  cases pending with
  | unary op line =>
    simp only [Pending.relabel, resume, UnaryOp.apply_relabel, deliver_relabel]
  | binaryRight left op line =>
    simp only [Pending.relabel, resume, BinaryOp.apply_relabel, deliver_relabel]
  | logical op right =>
    have hdecides : decides op (v.relabel ρ) = decides op v := by
      cases op <;> simp only [decides, Value.truthy_relabel]
    simp only [Pending.relabel, resume, hdecides]
    split <;> rfl
  | assign target => exact assign_relabel h target v stack st
  | callee line arguments =>
    simp only [Pending.relabel, resume, Value.callable?_relabel]
    cases v.callable? with
    | none => rfl
    | some c => exact passArguments_relabel h c line [] arguments stack st
  | argument c line earlier later =>
    exact passArguments_relabel h c line (v :: earlier) later stack st
  | get name => exact getProperty_relabel h v name stack st
  | setObject name value =>
    simp only [Pending.relabel, resume, objectId?_relabel]
    cases objectId? v <;> rfl
  | setValue object name =>
    simp only [Pending.relabel, resume, State.relabel, Store.setField_relabel]
    rfl
  | print => exact printValue_relabel ρ v stack st
  | define name =>
    simp only [Pending.relabel, resume, defineHere_relabel]
    rfl
  | branch thenBranch elseBranch =>
    simp only [Pending.relabel, resume, Value.truthy_relabel]
    split
    · rfl
    · cases elseBranch <;> rfl
  | loopTest condition body =>
    simp only [Pending.relabel, resume, Value.truthy_relabel]
    split <;> rfl
  | superclass declaration line =>
    cases v with
    | cls parent => exact makeClass_relabel ρ declaration (some parent) stack st
    | _ => rfl
  | _ => rfl

theorem complete_relabel (ρ : Labeling) (c : Completion) (pending : Pending)
    (stack : List Pending) (st : State) :
    complete (c.relabel ρ) (pending.relabel ρ) (stack.map (Pending.relabel ρ))
        (st.relabel ρ) =
      (complete c pending stack st).relabel ρ := by
  cases pending with
  | loopBody condition body => cases c <;> rfl
  | block later saved => cases c <;> cases later <;> rfl
  | body f line =>
    simp only [Pending.relabel, complete, State.relabel, resultOf_relabel]
    exact deliver_relabel ρ stack st _
  | program later => cases c <;> cases later <;> rfl
  | _ => rfl

theorem unwind_relabel (ρ : Labeling) (pending : Pending) (st : State) :
    unwind (pending.relabel ρ) (st.relabel ρ) = (unwind pending st).relabel ρ := by
  cases pending <;> rfl

/-- A step commutes with every change of labels under which the distances
agree. -/
theorem step_relabel (h : set.Agrees ρ set') (m : Machine) :
    step set' (m.relabel ρ) = (step set m).relabel ρ := by
  obtain ⟨control, stack, st⟩ := m
  cases control with
  | eval e => exact evaluate_relabel h e stack st
  | exec s => exact execute_relabel ρ s stack st
  | value v =>
    cases stack with
    | nil => rfl
    | cons pending stack => exact resume_relabel h v pending stack st
  | completed c =>
    cases stack with
    | nil => rfl
    | cons pending stack => exact complete_relabel ρ c pending stack st
  | failed f =>
    cases stack with
    | nil => rfl
    | cons pending stack =>
      exact congrArg (Machine.mk (.failed (f.relabel ρ)) _)
        (unwind_relabel ρ pending st)
  | stuck => rfl

end Machine

end Lox
