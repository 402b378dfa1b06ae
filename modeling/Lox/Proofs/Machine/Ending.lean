import Lox.Proofs.Machine.Balance
import Lox.Proofs.Store.Loops

/-!
# Runs that end

Without loops every run ends, because there are two things it cannot go on
with.  At one depth of calls each step leaves less to do than there was: what
a machine has to do has a weight, and the weight falls.  And a call, which
brings in the weight of a body from anywhere in the store, can only be made so
many levels deep.

`Descends` says what a step does to the weight of a tame machine, one in which
no code holds a loop: the weight falls, or a call is entered whose outcome is
handed to something lighter (`descends_step`).  From this a run ends by
induction on the levels that are left, and at one level on the weight
(`ends_of_tame`).
-/

namespace Lox

/-! ## Weights -/

mutual

/-- How many steps an expression takes, those of its calls apart. -/
def Expr.weight : Expr → Nat
  | .literal _ | .variable _ | .this _ _ | .super _ _ _ => 1
  | .group inner => inner.weight + 1
  | .unary _ _ right => right.weight + 2
  | .binary left _ _ right => left.weight + right.weight + 3
  | .logical left _ _ right => left.weight + right.weight + 2
  | .assign _ value => value.weight + 2
  | .call callee _ arguments => callee.weight + Expr.weightAll arguments + 2
  | .get object _ => object.weight + 2
  | .set object _ value => object.weight + value.weight + 3

/-- The same for arguments, with a step for each. -/
def Expr.weightAll : List Expr → Nat
  | [] => 0
  | e :: rest => e.weight + Expr.weightAll rest + 1

end

mutual

/-- How many steps a statement takes, those of its calls apart.  Loops are
not counted. -/
def Stmt.weight : Stmt → Nat
  | .expression e | .print e | .var _ (some e) | .return _ (some e) =>
    e.weight + 2
  | .block body => Stmt.weightAll body + 2
  | .ifElse condition thenBranch none =>
    condition.weight + thenBranch.weight + 2
  | .ifElse condition thenBranch (some elseBranch) =>
    condition.weight + thenBranch.weight + elseBranch.weight + 2
  | .class _ => 3
  | _ => 1

/-- The same for statements, with a step for each. -/
def Stmt.weightAll : List Stmt → Nat
  | [] => 0
  | s :: rest => s.weight + Stmt.weightAll rest + 1

end

theorem Expr.weight_pos (e : Expr) : 0 < e.weight := by
  cases e <;> simp only [Expr.weight] <;> omega

theorem Stmt.weight_pos (s : Stmt) : 0 < s.weight := by
  cases s with
  | var name initializer =>
    cases initializer <;> simp only [Stmt.weight] <;> omega
  | ifElse condition thenBranch elseBranch =>
    cases elseBranch <;> simp only [Stmt.weight] <;> omega
  | «return» line value => cases value <;> simp only [Stmt.weight] <;> omega
  | _ =>
    simp only [Stmt.weight]
    omega

/-- The callee holds no loops. -/
def Callable.Tame (natives : Nat) : Callable → Prop
  | native n => n.id < natives
  | closure f => f.declaration.LoopFree
  | cls c => c.Tame

/-- The returned value holds no loops, if there is one. -/
def Completion.Tame (natives : Nat) : Completion → Prop
  | normal => True
  | returned v => v.Tame natives

theorem Value.IsData.tame {natives : Nat} {v : Value} (h : v.IsData) :
    v.Tame natives := by
  cases v <;> trivial

theorem Value.Tame.callable? {natives : Nat} {v : Value} {callee : Callable}
    (h : v.Tame natives) (hv : v.callable? = some callee) :
    callee.Tame natives := by
  cases v <;> cases hv <;> exact h

namespace Machine

/-- How many steps a construct takes, those of its calls apart. -/
def Pending.weight : Pending → Nat
  | binaryLeft _ _ right => right.weight + 2
  | logical _ right => right.weight + 1
  | callee _ arguments => Expr.weightAll arguments + 1
  | argument _ _ _ later => Expr.weightAll later + 1
  | setObject _ value => value.weight + 2
  | branch thenBranch none => thenBranch.weight + 1
  | branch thenBranch (some elseBranch) =>
    thenBranch.weight + elseBranch.weight + 1
  | block later _ | program later => Stmt.weightAll later + 1
  | _ => 1

/-- What the next step starts. -/
def Control.weight : Control → Nat
  | eval e => e.weight
  | exec s => s.weight
  | _ => 0

/-- What waits. -/
def load : List Pending → Nat
  | [] => 0
  | pending :: rest => pending.weight + load rest

/-! ## Tame machines -/

/-- The construct holds no loops. -/
def Pending.Tame (natives : Nat) : Pending → Prop
  | argument called _ earlier _ =>
    called.Tame natives ∧ ∀ v ∈ earlier, v.Tame natives
  | construct object => object.cls.Tame
  | branch thenBranch elseBranch =>
    thenBranch.LoopFree ∧ ∀ s ∈ elseBranch, s.LoopFree
  | superclass declaration _ => declaration.LoopFree
  | block later _ | program later => Stmt.AllLoopFree later
  | loopTest _ _ | loopBody _ _ => False
  | _ => True

/-- What is done next holds no loops. -/
def Control.Tame (natives : Nat) : Control → Prop
  | exec s => s.LoopFree
  | value v => v.Tame natives
  | completed c => c.Tame natives
  | stuck => False
  | _ => True

/-- The native function brings no loops in. -/
def Behaviour.Tame (natives : Nat) (behaviour : Behaviour) : Prop :=
  ∀ (now : Float) (arguments : List Value) (v : Value),
    (∀ a ∈ arguments, a.Tame natives) → behaviour now arguments = .ok v →
      v.Tame natives

/-- The native functions bring no loops in. -/
def Setting.Tame (set : Setting) : Prop :=
  ∀ (i : Nat) (behaviour : Behaviour), set.natives[i]? = some behaviour →
    behaviour.Tame set.natives.size

end Machine

/-- Nothing that the machine can still run holds a loop. -/
structure Machine.Tame (natives : Nat) (m : Machine) : Prop where
  store : m.state.store.All (Value.Tame natives)
  stack : ∀ pending ∈ m.stack, pending.Tame natives
  control : m.control.Tame natives

namespace Machine

/-- All that the machine has to do at its level. -/
def weight (m : Machine) : Nat :=
  m.control.weight + load m.stack

/-! ## What a step leads to -/

/-- What waits below a construct that is taken up: it holds no loops and is
lighter than the machine was. -/
structure Left (natives weight depth : Nat) (stack : List Pending)
    (st : State) : Prop where
  store : st.store.All (Value.Tame natives)
  waiting : ∀ pending ∈ stack, pending.Tame natives
  lighter : load stack < weight
  level : st.depth ≤ depth

/-- What a step of a machine of some weight and depth leads to: a lighter
machine, or a call with something lighter below. -/
inductive Descends (set : Setting) (weight depth : Nat) : Machine → Prop where
  | lower {m : Machine} (tame : m.Tame set.natives.size)
      (lighter : m.weight < weight) (level : m.state.depth ≤ depth) :
      Descends set weight depth m
  | call {callee : Callable} {arguments : List Value} {line : Nat}
      {stack : List Pending} {st : State}
      (left : Left set.natives.size weight depth stack st)
      (tame : callee.Tame set.natives.size)
      (given : ∀ v ∈ arguments, v.Tame set.natives.size)
      (room : st.depth < set.maxDepth) :
      Descends set weight depth
        (enter set callee arguments line (.invocation :: stack)
          { st with depth := st.depth + 1 })

section

variable {set : Setting} {weight depth : Nat} {stack : List Pending}
  {st : State}

namespace Left

/-- The same in another state that holds no loops and is no deeper. -/
theorem move {natives : Nat} (h : Left natives weight depth stack st)
    (st' : State) (hstore : st'.store.All (Value.Tame natives))
    (hdepth : st'.depth ≤ st.depth) : Left natives weight depth stack st' :=
  ⟨hstore, h.waiting, h.lighter, Nat.le_trans hdepth h.level⟩

theorem withStore {natives : Nat} (h : Left natives weight depth stack st)
    {store : Store} (hstore : store.All (Value.Tame natives)) :
    Left natives weight depth stack { st with store := store } :=
  h.move _ hstore (Nat.le_refl _)

variable (h : Left set.natives.size weight depth stack st)

include h

/-- The machine goes on with something on top of what is left. -/
theorem push {control : Control} (hcontrol : control.Tame set.natives.size)
    {pending : Pending} (hpending : pending.Tame set.natives.size)
    (hlt : control.weight + pending.weight + load stack < weight) :
    Descends set weight depth ⟨control, pending :: stack, st⟩ := by
  refine .lower ⟨h.store, ?_, hcontrol⟩ ?_ h.level
  · intro other hother
    rcases List.mem_cons.1 hother with rfl | hother
    · exact hpending
    · exact h.waiting other hother
  · show control.weight + (pending.weight + load stack) < weight
    omega

/-- The machine goes on with something in place of what it took up. -/
theorem go {control : Control} (hcontrol : control.Tame set.natives.size)
    (hlt : control.weight + load stack < weight) :
    Descends set weight depth ⟨control, stack, st⟩ :=
  .lower ⟨h.store, h.waiting, hcontrol⟩ hlt h.level

/-- A result is handed on to what is left. -/
theorem handOn {control : Control} (hcontrol : control.Tame set.natives.size)
    (hweight : control.weight = 0) :
    Descends set weight depth ⟨control, stack, st⟩ := by
  have hlighter := h.lighter
  exact h.go hcontrol (by omega)

theorem value {v : Value} (hv : v.Tame set.natives.size) :
    Descends set weight depth ⟨.value v, stack, st⟩ :=
  h.handOn (by exact hv) rfl

theorem completed {c : Completion} (hc : c.Tame set.natives.size) :
    Descends set weight depth ⟨.completed c, stack, st⟩ :=
  h.handOn (by exact hc) rfl

theorem failed (f : Failure) :
    Descends set weight depth ⟨.failed f, stack, st⟩ :=
  h.handOn (by trivial) rfl

omit h in
/-- A list of statements is taken up, and the rest of it waits. -/
theorem startNext {s : Stmt} {later : List Stmt}
    (h : Left set.natives.size (Stmt.weightAll (s :: later) + 1 + load stack)
      depth stack st) (hlist : Stmt.AllLoopFree (s :: later))
    {pending : Pending}
    (hpending : Stmt.AllLoopFree later → pending.Tame set.natives.size)
    (hweight : pending.weight = Stmt.weightAll later + 1) :
    Descends set (Stmt.weightAll (s :: later) + 1 + load stack) depth
      ⟨.exec s, pending :: stack, st⟩ := by
  rw [Stmt.AllLoopFree] at hlist
  refine h.push (by exact hlist.1) (hpending hlist.2) ?_
  simp only [Control.weight, hweight, Stmt.weightAll]
  omega

/-! ## Calls and properties -/

theorem deliver {result : Except Failure Value}
    (hresult : ∀ v, result = .ok v → v.Tame set.natives.size) :
    Descends set weight depth (deliver result stack st) := by
  cases result with
  | ok v => exact h.value (hresult v rfl)
  | error f => exact h.failed f

theorem invoke {callee : Callable} (hcallee : callee.Tame set.natives.size)
    {arguments : List Value}
    (harguments : ∀ v ∈ arguments, v.Tame set.natives.size) (line : Nat) :
    Descends set weight depth (invoke set callee arguments line stack st) := by
  simp only [Machine.invoke]
  split
  · exact h.failed _
  · split
    · exact h.failed _
    · next hroom => exact .call h hcallee harguments (Nat.lt_of_not_le hroom)

theorem settle {v : Value} (hv : v.Tame set.natives.size) (line : Nat) :
    Descends set weight depth (settle set v line stack st) := by
  cases v with
  | function f =>
    simp only [Machine.settle]
    split
    · have hcallee : (Callable.closure f).Tame set.natives.size := hv
      exact h.invoke hcallee (fun _ hmem => absurd hmem List.not_mem_nil) line
    · exact h.value hv
  | _ => exact h.value hv

/-- A member that holds no loop is bound and handed on or called. -/
theorem settleBound {f : Closure} (hf : f.declaration.LoopFree)
    {object : Value} (hobject : object.Tame set.natives.size) (line : Nat) :
    let bound := st.store.bindMethod f object
    Descends set weight depth (Machine.settle set (.function bound.2) line stack
      { st with store := bound.1 }) := by
  intro bound
  have hbound : (Value.function bound.2).Tame set.natives.size := hf
  exact (h.withStore (h.store.bindMethod f hobject)).settle hbound line

theorem readProperty {object : Value}
    (hobject : object.Tame set.natives.size) (id : ObjectId)
    {method? : String → Option Closure}
    (hmethod : ∀ name f, method? name = some f → f.declaration.LoopFree)
    (owner : String) (name : Ident) :
    Descends set weight depth
      (readProperty set object id method? owner name stack st) := by
  simp only [Machine.readProperty]
  split
  · next v hv => exact h.settle (h.store.fields _ _ v hv) name.line
  · split
    · next f hf => exact h.settleBound (hmethod _ f hf) hobject name.line
    · exact h.failed _

theorem getProperty {object : Value}
    (hobject : object.Tame set.natives.size) (name : Ident) :
    Descends set weight depth (getProperty set object name stack st) := by
  cases object with
  | inst o =>
    exact h.readProperty hobject o.id
      (fun _ _ hf => Class.Tame.findMethod? hobject hf) _ name
  | cls c =>
    exact h.readProperty hobject c.id
      (fun _ _ hf => Class.Tame.findStatic? hobject hf) _ name
  | _ => exact h.failed _

theorem getSuper (id line : Nat) (method : Ident) :
    Descends set weight depth (getSuper set id line method stack st) := by
  simp only [Machine.getSuper]
  split
  · exact h.failed _
  · split
    · exact h.failed _
    · next distance _ _ superclass hsuper =>
      have hclass : superclass.Tame := h.store.readAt hsuper
      cases distance with
      | zero => exact h.failed _
      | succ inner =>
        simp only [bindSuper]
        split
        · exact h.failed _
        · next object hobject =>
          split
          · exact h.failed _
          · next f hf =>
            exact h.settleBound (hclass.findMethod? hf)
              (h.store.readAt hobject) method.line
    · exact h.failed _

theorem passArguments {callee : Callable}
    (hcallee : callee.Tame set.natives.size) (line : Nat)
    {earlier : List Value}
    (hearlier : ∀ v ∈ earlier, v.Tame set.natives.size) {later : List Expr}
    (hlt : Expr.weightAll later + load stack < weight) :
    Descends set weight depth
      (passArguments set callee line earlier later stack st) := by
  cases later with
  | nil =>
    refine h.invoke hcallee (fun v hv => ?_) line
    exact hearlier v (List.mem_reverse.1 hv)
  | cons e later =>
    refine h.push (by trivial) (by exact ⟨hcallee, hearlier⟩) ?_
    simp only [Control.weight, Pending.weight]
    rw [Expr.weightAll] at hlt
    omega

end Left

/-! ## Classes -/

/-- The members of a class, made one after the other, hold no loops. -/
theorem tame_makeMembers {natives : Nat} (frame : FrameId) {store : Store}
    (hstore : store.All (Value.Tame natives)) {list : List FunctionDecl}
    (hlist : FunctionDecl.AllLoopFree list) {declaration : ClassDecl}
    {members : Members} (hmembers : (infoOf declaration (members, store)).Tame) :
    let made := makeMembers frame list members store
    made.2.All (Value.Tame natives) ∧ (infoOf declaration made).Tame := by
  induction list generalizing members store with
  | nil => exact ⟨hstore, hmembers⟩
  | cons f rest ih =>
    rw [FunctionDecl.AllLoopFree] at hlist
    let closure := (store.makeClosure f frame).2
    have hclosure : closure.declaration.LoopFree := hlist.1
    simp only [makeMembers]
    refine ih (hstore.makeClosure f frame) hlist.2 ?_
    split
    · exact ⟨hmembers.methods, Table.forall_insert hmembers.statics _ hclosure⟩
    · exact ⟨Table.forall_insert hmembers.methods _ hclosure, hmembers.statics⟩

theorem Left.makeClass (h : Left set.natives.size weight depth stack st)
    {declaration : ClassDecl} (hdeclaration : declaration.LoopFree)
    {superclass : Option Class} (hsuperclass : ∀ c ∈ superclass, c.Tame) :
    Descends set weight depth (makeClass declaration superclass stack st) := by
  obtain ⟨name, parent, methods⟩ := declaration
  rw [ClassDecl.LoopFree] at hdeclaration
  have hname {c : Class} (hc : c.Tame) {store : Store}
      (hstore : store.All (Value.Tame set.natives.size)) :
      Descends set weight depth (nameClass name c store stack st) := by
    simp only [nameClass]
    split
    · have hvalue : (Value.cls c).Tame set.natives.size := hc
      exact (h.withStore (hstore.addObject.define _ _ hvalue)).completed trivial
    · exact (h.withStore hstore).failed _
  have hnone {store : Store} : (infoOf ⟨name, parent, methods⟩
      (⟨.empty, .empty⟩, store)).Tame := ⟨by rintro _ _ ⟨⟩, by rintro _ _ ⟨⟩⟩
  cases superclass with
  | none =>
    obtain ⟨hstore, hinfo⟩ :=
      tame_makeMembers st.frame h.store hdeclaration hnone
    have hclass : (Class.base _).Tame := hinfo
    exact hname hclass hstore
  | some c =>
    have hsuper : (superStore c st).All (Value.Tame set.natives.size) := by
      refine h.store.addFrame _ fun other v hv => ?_
      rw [Table.find?_insert] at hv
      split at hv
      · cases hv
        exact hsuperclass c rfl
      · cases hv
    obtain ⟨hstore, hinfo⟩ :=
      tame_makeMembers st.store.nextFrame hsuper hdeclaration hnone
    have hclass : (Class.derived _ c).Tame := ⟨hinfo, hsuperclass c rfl⟩
    exact hname hclass hstore

/-! ## Steps -/

theorem tame_lookUp {natives : Nat} (h : st.store.All (Value.Tame natives))
    {id line : Nat} {name : String} {v : Value}
    (hv : lookUp set st id name line = .ok v) : v.Tame natives := by
  unfold lookUp at hv
  split at hv
  · exact h.readAt hv
  · exact h.read hv

theorem descends_evaluate {e : Expr}
    (h : Left set.natives.size (e.weight + load stack) depth stack st) :
    Descends set (e.weight + load stack) depth (evaluate set e stack st) := by
  cases e with
  | literal value => exact h.value (Value.isData_ofLiteral value).tame
  | «variable» | this => exact h.deliver fun v hv => tame_lookUp h.store hv
  | super id line method => exact h.getSuper id line method
  | group inner =>
    refine h.go trivial ?_
    simp only [Control.weight, Expr.weight]
    omega
  | _ =>
    refine h.push (by trivial) (by trivial) ?_
    simp only [Control.weight, Pending.weight, Expr.weight]
    omega

theorem descends_execute {s : Stmt} (hs : s.LoopFree)
    (h : Left set.natives.size (s.weight + load stack) depth stack st) :
    Descends set (s.weight + load stack) depth (execute s stack st) := by
  have hhere (name : String) {v : Value} (hv : v.Tame set.natives.size) :
      Left set.natives.size (s.weight + load stack) depth stack
        (defineHere st name v) :=
    h.withStore (h.store.define st.frame name hv)
  cases s with
  | expression | print =>
    refine h.push (by trivial) (by trivial) ?_
    simp only [Control.weight, Pending.weight, Stmt.weight]
    omega
  | var name initializer =>
    cases initializer with
    | none => exact (hhere name.name (v := .nil) trivial).completed trivial
    | some e =>
      refine h.push (by trivial) (by trivial) ?_
      simp only [Control.weight, Pending.weight, Stmt.weight]
      omega
  | block body =>
    rw [Stmt.LoopFree] at hs
    have hnone : ∀ name v, (Table.empty : Table Value).find? name = some v →
        v.Tame set.natives.size := by
      rintro _ _ ⟨⟩
    have hstore := h.store.addFrame (some st.frame) hnone
    have hinside := h.move ⟨_, st.sink, st.store.nextFrame, st.depth⟩ hstore
      (Nat.le_refl _)
    refine hinside.push (by trivial) (by exact hs) ?_
    simp only [Control.weight, Pending.weight, Stmt.weight]
    omega
  | ifElse condition thenBranch elseBranch =>
    cases elseBranch with
    | none =>
      rw [Stmt.LoopFree] at hs
      refine h.push (by trivial) (by exact ⟨hs, by rintro _ ⟨⟩⟩) ?_
      simp only [Control.weight, Pending.weight, Stmt.weight]
      omega
    | some elseBranch =>
      rw [Stmt.LoopFree] at hs
      refine h.push (by trivial) (by exact ⟨hs.1, fun s hmem => by
        cases hmem
        exact hs.2⟩) ?_
      simp only [Control.weight, Pending.weight, Stmt.weight]
      omega
  | «while» condition body =>
    rw [Stmt.LoopFree] at hs
    exact hs.elim
  | function f =>
    rw [Stmt.LoopFree] at hs
    have hvalue : (Value.function
        (st.store.makeClosure f st.frame).2).Tame set.natives.size := hs
    exact (h.withStore ((h.store.makeClosure f st.frame).define _ _
      hvalue)).completed trivial
  | «return» line value =>
    cases value with
    | none => exact h.completed (c := .returned .nil) trivial
    | some e =>
      refine h.push (by trivial) (by trivial) ?_
      simp only [Control.weight, Pending.weight, Stmt.weight]
      omega
  | «class» declaration =>
    rw [Stmt.LoopFree] at hs
    have hnamed := hhere declaration.name.name (v := .nil) trivial
    simp only [execute]
    split
    · exact hnamed.makeClass hs (by rintro _ ⟨⟩)
    · refine hnamed.push (by trivial) (by exact hs) ?_
      simp only [Control.weight, Pending.weight, Stmt.weight, Expr.weight]
      omega

theorem descends_resume {pending : Pending}
    (hpending : pending.Tame set.natives.size) (htakes : pending.takes = .value)
    {v : Value} (hv : v.Tame set.natives.size)
    (h : Left set.natives.size (pending.weight + load stack) depth stack st) :
    Descends set (pending.weight + load stack) depth
      (resume set v pending stack st) := by
  cases pending with
  | loopBody | block | body | program => cases htakes
  | loopTest => exact hpending.elim
  | unary => exact h.deliver fun w hw => (UnaryOp.isData_apply hw).tame
  | binaryRight => exact h.deliver fun w hw => (BinaryOp.isData_apply hw).tame
  | binaryLeft op line right =>
    refine h.push (by trivial) (by trivial) ?_
    simp only [Control.weight, Pending.weight]
    omega
  | logical op right =>
    simp only [resume]
    split
    · exact h.value hv
    · refine h.go (by trivial) ?_
      simp only [Control.weight, Pending.weight]
      omega
  | assign target =>
    simp only [resume, assign]
    split
    · exact (h.withStore (h.store.define _ _ hv)).value hv
    · exact h.failed _
  | callee line arguments =>
    simp only [resume]
    split
    · next hcallee =>
      refine h.passArguments (hv.callable? hcallee) line
        (fun _ hmem => absurd hmem List.not_mem_nil) ?_
      simp only [Pending.weight]
      omega
    · exact h.failed _
  | argument c line earlier later =>
    refine h.passArguments hpending.1 line ?_ ?_
    · intro w hw
      rcases List.mem_cons.1 hw with rfl | hw
      · exact hv
      · exact hpending.2 w hw
    · simp only [Pending.weight]
      omega
  | get name => exact h.getProperty hv name
  | setObject name value =>
    simp only [resume]
    split
    · refine h.push (by trivial) (by trivial) ?_
      simp only [Control.weight, Pending.weight]
      omega
    · exact h.failed _
  | setValue object name =>
    exact (h.withStore (h.store.setField object name hv)).value hv
  | construct object => exact h.value (v := .inst object) hpending
  | invocation =>
    exact (h.move { st with depth := st.depth - 1 } h.store
      (Nat.sub_le _ 1)).value hv
  | discard => exact h.completed trivial
  | print =>
    have hprinted := h.move
      { st with sink := (st.sink.writeLine v.display).1 } h.store (Nat.le_refl _)
    simp only [resume, printValue]
    split
    · exact hprinted.completed trivial
    · exact hprinted.failed _
  | define name =>
    exact (h.withStore (h.store.define st.frame name hv)).completed trivial
  | branch thenBranch elseBranch =>
    simp only [resume]
    split
    · refine h.go (by exact hpending.1) ?_
      cases elseBranch <;> simp only [Control.weight, Pending.weight] <;> omega
    · cases elseBranch with
      | none => exact h.completed trivial
      | some s =>
        refine h.go (by exact hpending.2 s rfl) ?_
        simp only [Control.weight, Pending.weight]
        omega
  | giveBack => exact h.completed (c := .returned v) hv
  | superclass declaration line =>
    cases v with
    | cls parent =>
      have hparent : ∀ c ∈ some parent, c.Tame := by
        rintro c ⟨⟩
        exact hv
      exact h.makeClass hpending hparent
    | _ => exact h.failed _

theorem tame_resultOf {natives : Nat} {store : Store}
    (h : store.All (Value.Tame natives)) {f : Closure} {line : Nat}
    {c : Completion} (hc : c.Tame natives) {v : Value}
    (hv : resultOf f line c store = .ok v) : v.Tame natives := by
  unfold resultOf at hv
  split at hv
  · exact h.readAt hv
  · cases c with
    | normal =>
      cases hv
      trivial
    | returned w =>
      cases hv
      exact hc

theorem descends_complete {pending : Pending}
    (hpending : pending.Tame set.natives.size)
    (htakes : pending.takes = .completion) {c : Completion}
    (hc : c.Tame set.natives.size)
    (h : Left set.natives.size (pending.weight + load stack) depth stack st) :
    Descends set (pending.weight + load stack) depth
      (complete c pending stack st) := by
  cases pending with
  | loopBody => exact hpending.elim
  | block later saved =>
    have hback := h.move { st with frame := saved } h.store (Nat.le_refl _)
    cases c with
    | returned v => exact hback.completed hc
    | normal =>
      cases later with
      | nil => exact hback.completed hc
      | cons s later => exact h.startNext hpending id rfl
  | body f line => exact h.deliver fun v hv => tame_resultOf h.store hc hv
  | program later =>
    cases c with
    | returned v => exact h.completed hc
    | normal =>
      cases later with
      | nil => exact h.completed hc
      | cons s later => exact h.startNext hpending id rfl
  | _ => cases htakes

end

theorem load_lt_cons (pending : Pending) (rest : List Pending) :
    load rest < load (pending :: rest) := by
  have hpos : 0 < pending.weight := by
    cases pending with
    | branch thenBranch elseBranch =>
      cases elseBranch <;> simp only [Pending.weight] <;> omega
    | _ =>
      simp only [Pending.weight]
      omega
  rw [load]
  omega

/-- What waits below the construct on top. -/
theorem Tame.tail {natives : Nat} {control : Control} {pending : Pending}
    {stack : List Pending} {st : State}
    (h : (⟨control, pending :: stack, st⟩ : Machine).Tame natives) :
    Left natives (pending.weight + load stack) st.depth stack st :=
  ⟨h.store, fun p hp => h.stack p (List.mem_cons_of_mem _ hp),
    load_lt_cons pending stack, Nat.le_refl _⟩

/-- Each step of a tame machine that runs makes it lighter, or enters a
call with something lighter below. -/
theorem descends_step {set : Setting} {m : Machine}
    (h : m.Tame set.natives.size) (hsuits : m.control.Suits m.stack)
    (hrunning : m.outcome? = none) :
    Descends set m.weight m.state.depth (step set m) := by
  obtain ⟨control, stack, st⟩ := m
  -- A result has no weight of its own.
  have hresult (control : Control) (hweight : control.weight = 0) :
      (⟨control, stack, st⟩ : Machine).weight = load stack := by
    rw [weight, hweight, Nat.zero_add]
  cases control with
  | eval e =>
    have hlt : load stack < e.weight + load stack :=
      Nat.lt_add_of_pos_left (Expr.weight_pos e)
    exact descends_evaluate ⟨h.store, h.stack, hlt, Nat.le_refl _⟩
  | exec s =>
    have hlt : load stack < s.weight + load stack :=
      Nat.lt_add_of_pos_left (Stmt.weight_pos s)
    exact descends_execute h.control ⟨h.store, h.stack, hlt, Nat.le_refl _⟩
  | value v =>
    rw [hresult (.value v) rfl]
    cases stack with
    | nil => cases hrunning
    | cons pending stack =>
      exact descends_resume (h.stack pending List.mem_cons_self) hsuits.1
        h.control h.tail
  | completed c =>
    rw [hresult (.completed c) rfl]
    cases stack with
    | nil => cases hrunning
    | cons pending stack =>
      exact descends_complete (h.stack pending List.mem_cons_self) hsuits.1
        h.control h.tail
  | failed f =>
    rw [hresult (.failed f) rfl]
    cases stack with
    | nil => cases hrunning
    | cons pending stack =>
      have hstore : (unwind pending st).store = st.store := by
        cases pending <;> rfl
      have hdepth : (unwind pending st).depth ≤ st.depth := by
        cases pending with
        | invocation => exact Nat.sub_le _ 1
        | _ => exact Nat.le_refl _
      exact (h.tail.move (unwind pending st) (hstore ▸ h.store) hdepth).failed f
  | stuck => exact h.control.elim

/-! ## Calls that are entered -/

section

variable {set : Setting} {stack : List Pending} {st : State}

theorem depth_enter (callee : Callable) (arguments : List Value) (line : Nat) :
    (enter set callee arguments line stack st).state.depth = st.depth := by
  cases callee with
  | closure f => rfl
  | cls c =>
    simp only [enter, construct]
    split <;> rfl
  | native function =>
    simp only [enter]
    split
    · rfl
    · split <;> rfl

theorem tame_enterBody {natives : Nat}
    (hstore : st.store.All (Value.Tame natives))
    (hstack : ∀ pending ∈ stack, pending.Tame natives) {f : Closure}
    (hf : f.declaration.LoopFree) {arguments : List Value}
    (harguments : ∀ v ∈ arguments, v.Tame natives) (line : Nat) :
    (enterBody f arguments line stack st).Tame natives := by
  refine ⟨hstore.addFrame (some f.frame) ?_, ?_, trivial⟩
  · intro name v hv
    rcases Table.mem_of_find?_insertAll hv with hmem | hnone
    · obtain ⟨⟨name, w⟩, hpair, rfl⟩ := List.mem_map.1 hmem
      exact harguments w (List.of_mem_zip hpair).2
    · cases hnone
  · intro pending hpending
    rcases List.mem_cons.1 hpending with rfl | hpending
    · obtain ⟨identity, ⟨name, params, body, kind⟩, frame⟩ := f
      rw [FunctionDecl.LoopFree] at hf
      exact hf
    · rcases List.mem_cons.1 hpending with rfl | hpending
      · trivial
      · exact hstack pending hpending

theorem tame_enter (hset : set.Tame)
    (hstore : st.store.All (Value.Tame set.natives.size))
    (hstack : ∀ pending ∈ stack, pending.Tame set.natives.size)
    {callee : Callable} (hcallee : callee.Tame set.natives.size)
    {arguments : List Value}
    (harguments : ∀ v ∈ arguments, v.Tame set.natives.size) (line : Nat) :
    (enter set callee arguments line stack st).Tame set.natives.size := by
  cases callee with
  | closure f => exact tame_enterBody hstore hstack hcallee harguments line
  | cls c =>
    have hobject : (Value.inst ⟨st.store.nextObject, c⟩).Tame
        set.natives.size := hcallee
    simp only [enter, construct]
    split
    · exact ⟨hstore.addObject, hstack, hobject⟩
    · next method hmethod =>
      let bound := st.store.addObject.bindMethod method
        (.inst ⟨st.store.nextObject, c⟩)
      have hbound : ({ st with store := bound.1 } : State).store.All
          (Value.Tame set.natives.size) :=
        hstore.addObject.bindMethod method hobject
      have hmethod' : method.declaration.LoopFree :=
        Class.Tame.findMethod? hcallee hmethod
      have hbody : bound.2.declaration.LoopFree := hmethod'
      refine tame_enterBody hbound ?_ hbody harguments line
      intro pending hpending
      rcases List.mem_cons.1 hpending with rfl | hpending
      · exact hcallee
      · exact hstack pending hpending
  | native function =>
    have hknown : function.id < set.natives.size := hcallee
    simp only [enter]
    split
    · next hnone =>
      exact absurd hknown (Nat.not_lt.2 (Array.getElem?_eq_none_iff.1 hnone))
    · next behaviour hbehaviour =>
      split
      · next v hv =>
        exact ⟨hstore, hstack, hset _ behaviour hbehaviour _ arguments v
          harguments hv⟩
      · exact ⟨hstore, hstack, trivial⟩

theorem Descends.tame {weight depth : Nat} {m : Machine}
    (h : Descends set weight depth m) (hset : set.Tame) :
    m.Tame set.natives.size := by
  cases h with
  | lower tame => exact tame
  | @call _ _ _ _ st left tame given room =>
    have hstore : ({ st with depth := st.depth + 1 } : State).store.All
        (Value.Tame set.natives.size) := left.store
    refine tame_enter hset hstore ?_ tame given _
    intro pending hpending
    rcases List.mem_cons.1 hpending with rfl | hpending
    · trivial
    · exact left.waiting pending hpending

end

/-! ## Runs -/

/-- At all times the limit and the number of native functions are the same,
and the native functions bring no loops in. -/
structure Steady (setting : Float → Setting) (limit natives : Nat) : Prop where
  limit : ∀ now, (setting now).maxDepth = limit
  known : ∀ now, (setting now).natives.size = natives
  tame : ∀ now, (setting now).Tame

section

variable {setting : Float → Setting} {limit natives depth : Nat}
  {frame : FrameId} {m : Machine}

theorem tame_step (hset : Steady setting limit natives) (h : m.Tame natives)
    (hbalanced : Balanced limit frame depth m) (now : Float) :
    (step (setting now) m).Tame natives := by
  by_cases hrunning : m.outcome? = none
  · rw [← hset.known now] at h ⊢
    exact (descends_step h hbalanced.suits hrunning).tame (hset.tame now)
  · rw [step_of_halted (halted_of_outcome? hrunning)]
    exact h

theorem tame_runAlong (hset : Steady setting limit natives)
    (h : m.Tame natives) (hbalanced : Balanced limit frame depth m)
    (times : List Float) : (runAlong setting times m).Tame natives := by
  have hboth : (runAlong setting times m).Tame natives ∧
      Balanced limit frame depth (runAlong setting times m) := by
    refine runAlong_induction (motive := fun m => m.Tame natives ∧
      Balanced limit frame depth m) ?_ ⟨h, hbalanced⟩ times
    intro now m hm
    exact ⟨tame_step hset hm.1 hm.2 now, balanced_step hm.2 (hset.limit now)⟩
  exact hboth.1

theorem callsIn_append (stack base : List Pending) :
    callsIn (stack ++ base) = callsIn stack + callsIn base := by
  induction stack with
  | nil => simp [callsIn]
  | cons pending stack ih =>
    cases pending with
    | invocation =>
      simp only [List.cons_append, callsIn, ih]
      omega
    | _ => simp only [List.cons_append, callsIn, ih]

/-- A call that has come to an outcome hands it to what is left. -/
theorem step_invocation (set : Setting) {control : Control}
    {stack : List Pending} (st : State)
    (hsuits : control.Suits (.invocation :: stack))
    (hresult : (∃ v, control = .value v) ∨ (∃ c, control = .completed c) ∨
      ∃ f, control = .failed f) :
    (step set ⟨control, .invocation :: stack, st⟩).stack = stack ∧
      (step set ⟨control, .invocation :: stack, st⟩).weight = load stack := by
  rcases hresult with ⟨v, rfl⟩ | ⟨c, rfl⟩ | ⟨f, rfl⟩
  · exact ⟨rfl, Nat.zero_add _⟩
  · cases hsuits.1
  · exact ⟨rfl, Nat.zero_add _⟩

/-- If a call ends on its own, and so does what is left below it, then the
call ends on top of it. -/
theorem Ends.call (hset : Steady setting limit natives) {stack : List Pending}
    {clock : Nat → Float} (hcall : Ends setting clock m)
    (htame : (m.onTop (.invocation :: stack)).Tame natives)
    (hbalanced : Balanced limit frame depth (m.onTop (.invocation :: stack)))
    (hleft : ∀ clock m, m.Tame natives → Balanced limit frame depth m →
      m.stack = stack → m.weight = load stack → Ends setting clock m) :
    Ends setting clock (m.onTop (.invocation :: stack)) := by
  obtain ⟨n, houtcome, hrun⟩ := hcall.onTop (.invocation :: stack)
  have htame' := tame_runAlong hset htame hbalanced (ticks clock n)
  have hbalanced' := balanced_runAlong hbalanced hset.limit (ticks clock n)
  refine Ends.of_run n ?_
  rw [hrun] at htame' hbalanced' ⊢
  generalize runAlong setting (ticks clock n) m = last at *
  obtain ⟨control, below, st⟩ := last
  obtain ⟨rfl, hresult⟩ := eq_nil_of_outcome?_ne houtcome
  refine Ends.of_run 1 ?_
  obtain ⟨hstack, hweight⟩ := step_invocation (setting (clock (n + 0))) st
    hbalanced'.suits hresult
  exact hleft _ _ (tame_step hset htame' hbalanced' _)
    (balanced_step hbalanced' (hset.limit _)) hstack hweight

/-- Without loops every run ends.  The induction is on the levels of calls
that are left, and at one level on the weight of the machine: a step makes it
lighter, or it enters a call, which ends because it has a level less, and what
it hands its result to is lighter. -/
theorem ends_of_tame (hset : Steady setting limit natives)
    (h : m.Tame natives) (hbalanced : Balanced limit frame depth m)
    (hdepth : m.state.depth = depth) (clock : Nat → Float) :
    Ends setting clock m := by
  induction hlevels : limit - depth using Nat.strongRecOn
    generalizing depth frame m clock with
  | _ levels ihlevels =>
  induction hweight : m.weight using Nat.strongRecOn
    generalizing m clock with
  | _ weight ihweight =>
  by_cases hrunning : m.outcome? = none
  case neg => exact ⟨0, hrunning⟩
  have hstep : Descends (setting (clock 0)) m.weight m.state.depth
      (step (setting (clock 0)) m) := by
    rw [← hset.known (clock 0)] at h
    exact descends_step h hbalanced.suits hrunning
  have hbalanced' := balanced_step hbalanced (hset.limit (clock 0))
  have htame' := tame_step hset h hbalanced (clock 0)
  refine Ends.of_run 1 ?_
  show Ends setting _ (step (setting (clock 0)) m)
  generalize step (setting (clock 0)) m = m' at hstep hbalanced' htame' ⊢
  cases hstep with
  | lower tame lighter level =>
    have hlevel := hbalanced'.depth
    exact ihweight m'.weight (by omega) htame' hbalanced' (by omega) _ rfl
  | @call callee arguments line stack st left tame given room =>
    -- The call on its own, one level further in.
    let st' : State := { st with depth := st.depth + 1 }
    let inner := enter (setting (clock 0)) callee arguments line [] st'
    have hinner : enter (setting (clock 0)) callee arguments line
        (.invocation :: stack) st' = inner.onTop (.invocation :: stack) :=
      enter_onTop _ (.invocation :: stack) [] st' callee arguments line
    have hentered : inner.state.depth = st.depth + 1 :=
      depth_enter callee arguments line
    have hroom := hset.limit (clock 0) ▸ room
    rw [hinner] at hbalanced' htame' ⊢
    -- Apart from the call itself nothing on the stack counts for the depth.
    obtain ⟨hlevel, hcalls⟩ : st.depth = depth ∧ callsIn stack = 0 := by
      have hcount : inner.state.depth =
          depth + callsIn (inner.stack ++ .invocation :: stack) :=
        hbalanced'.depth
      rw [callsIn_append, callsIn] at hcount
      have := left.level
      omega
    have hcall : Ends setting (fun i => clock (1 + i)) inner := by
      have hlevel' : Level limit st'.frame st'.depth [] st' := ⟨rfl, rfl, hroom⟩
      have hbalancedInner : Balanced limit st'.frame st'.depth inner :=
        balanced_enter hlevel' trivial callee arguments line
      have htameInner : inner.Tame natives := by
        have hstore : st'.store.All _ := left.store
        rw [← hset.known (clock 0)]
        exact tame_enter (hset.tame _) hstore
          (fun _ hmem => absurd hmem List.not_mem_nil) tame given line
      exact ihlevels (limit - st'.depth) (by show limit - (st.depth + 1) < _; omega)
        htameInner hbalancedInner hentered _ rfl
    refine hcall.call hset htame' hbalanced' ?_
    intro clock' m'' htame'' hbalanced'' hstack hload
    have hlight := left.lighter
    have hback := hbalanced''.depth
    rw [hstack, hcalls] at hback
    exact ihweight m''.weight (by omega) htame'' hbalanced'' (by omega) _ rfl

end

end Machine

end Lox
