import Lox.Proofs.Machine.Members
import Lox.Proofs.Machine.Trail
import Lox.Proofs.Stmt.Functions

/-!
# Where functions come from

All functions of a running program were declared in code that was run, and its
native functions were given by the host.  A `Supply` is what is known of both.
A machine draws on a supply if it knows all the functions that the machine can
still run: those of its values, those of the code under way, and those that are
declared in them (`Machine.From`).  A step keeps that (`from_step`), provided
that the native functions hand out nothing else.

Everything else is a choice of the supply: functions whose getters have no
parameters, or native functions that the host has given.
-/

namespace Lox

/-- What is known of the functions that are declared, and of the native
functions. -/
structure Supply where
  Declared : FunctionDecl → Prop
  Given : Native → Prop

variable {K : Supply}

/-! ## Values -/

/-- The function and those declared in its body are from the supply. -/
def Closure.From (K : Supply) (f : Closure) : Prop :=
  ∀ g ∈ f.declaration.functions, K.Declared g

/-- The functions of the class and of its ancestors are from the supply. -/
def Class.From (K : Supply) (c : Class) : Prop :=
  c.All (Closure.From K)

/-- The functions that the value holds are from the supply. -/
def Value.From (K : Supply) : Value → Prop
  | native n => K.Given n
  | function f => f.From K
  | cls c => c.From K
  | inst object => object.cls.From K
  | _ => True

/-- The functions that the callee holds are from the supply. -/
def Callable.From (K : Supply) : Callable → Prop
  | native n => K.Given n
  | closure f => f.From K
  | cls c => c.From K

/-- The returned value is from the supply, if there is one. -/
def Completion.From (K : Supply) : Completion → Prop
  | normal => True
  | returned v => v.From K

theorem Closure.From.declared {f : Closure} (h : f.From K) :
    K.Declared f.declaration :=
  (FunctionDecl.forall_functions.1 h).1

theorem Value.IsData.from {v : Value} (h : v.IsData) : v.From K := by
  cases v <;> trivial

theorem Value.From.callable? {v : Value} {callee : Callable} (h : v.From K)
    (hv : v.callable? = some callee) : callee.From K := by
  cases v <;> cases hv <;> exact h

namespace Machine

/-! ## Machines -/

/-- The functions of the code and of the values that the construct keeps are
from the supply. -/
def Pending.From (K : Supply) : Pending → Prop
  | binaryRight left _ _ => left.From K
  | argument called _ earlier _ => called.From K ∧ ∀ v ∈ earlier, v.From K
  | construct object => object.cls.From K
  | branch thenBranch elseBranch =>
    (∀ f ∈ thenBranch.functions, K.Declared f) ∧
      ∀ s ∈ elseBranch, ∀ f ∈ s.functions, K.Declared f
  | loopTest _ inner | loopBody _ inner => ∀ f ∈ inner.functions, K.Declared f
  | superclass declaration _ => ∀ f ∈ declaration.functions, K.Declared f
  | block later _ | program later =>
    ∀ f ∈ Stmt.functionsAll later, K.Declared f
  | _ => True

/-- The functions of what is done next are from the supply. -/
def Control.From (K : Supply) : Control → Prop
  | exec s => ∀ f ∈ s.functions, K.Declared f
  | value v => v.From K
  | completed c => c.From K
  | _ => True

/-- Given values from the supply, the native function gives back such a
value. -/
def Behaviour.Keeps (K : Supply) (behaviour : Behaviour) : Prop :=
  ∀ (now : Float) (arguments : List Value) (v : Value),
    (∀ a ∈ arguments, a.From K) → behaviour now arguments = .ok v → v.From K

/-- The functions of what waits and of what is stored are from the supply. -/
structure Draws (K : Supply) (stack : List Pending) (st : State) : Prop where
  stack : ∀ pending ∈ stack, pending.From K
  store : st.store.All (Value.From K)

/-- All functions that the machine can still run are from the supply. -/
structure From (K : Supply) (m : Machine) : Prop
    extends Draws K m.stack m.state where
  control : m.control.From K

section

variable {set : Setting} {stack : List Pending} {st : State}

namespace Draws

/-- The same in another state. -/
theorem move (h : Draws K stack st) (st' : State)
    (hstore : st'.store.All (Value.From K)) : Draws K stack st' :=
  ⟨h.stack, hstore⟩

theorem push (h : Draws K stack st) (pending : Pending)
    (hpending : pending.From K) : Draws K (pending :: stack) st :=
  ⟨List.forall_mem_cons.2 ⟨hpending, h.stack⟩, h.store⟩

theorem pop {pending : Pending} (h : Draws K (pending :: stack) st) :
    Draws K stack st :=
  ⟨(List.forall_mem_cons.1 h.stack).2, h.store⟩

theorem eval (h : Draws K stack st) (e : Expr) :
    From K ⟨.eval e, stack, st⟩ :=
  ⟨h, trivial⟩

theorem exec (h : Draws K stack st) {s : Stmt}
    (hs : ∀ f ∈ s.functions, K.Declared f) : From K ⟨.exec s, stack, st⟩ :=
  ⟨h, hs⟩

theorem value (h : Draws K stack st) {v : Value} (hv : v.From K) :
    From K ⟨.value v, stack, st⟩ :=
  ⟨h, hv⟩

theorem completed (h : Draws K stack st) {c : Completion} (hc : c.From K) :
    From K ⟨.completed c, stack, st⟩ :=
  ⟨h, hc⟩

theorem failed (h : Draws K stack st) (f : Failure) :
    From K ⟨.failed f, stack, st⟩ :=
  ⟨h, trivial⟩

theorem stuck (h : Draws K stack st) : From K ⟨.stuck, stack, st⟩ :=
  ⟨h, trivial⟩

theorem deliver (h : Draws K stack st) {result : Except Failure Value}
    (hok : ∀ v, result = .ok v → v.From K) :
    From K (Machine.deliver result stack st) := by
  cases result with
  | ok v => exact h.value (hok v rfl)
  | error f => exact h.failed f

/-- A variable of the current frame gets a value. -/
theorem defineHere (h : Draws K stack st) (name : String) {v : Value}
    (hv : v.From K) : Draws K stack (Machine.defineHere st name v) :=
  h.move _ (h.store.define st.frame name hv)

end Draws

/-! ## Calls -/

theorem from_enterBody (h : Draws K stack st) {f : Closure} (hf : f.From K)
    {arguments : List Value} (harguments : ∀ v ∈ arguments, v.From K)
    (line : Nat) : From K (enterBody f arguments line stack st) := by
  have hframed := h.store.addFrame (some f.frame)
    (Table.forall_insertAll (f.declaration.params.map Ident.name) harguments)
  have hthere := h.move ⟨_, st.sink, st.store.nextFrame, st.depth⟩ hframed
  have hwaits := hthere.push (.body f line) trivial
  have hblock := hwaits.push (.block f.declaration.body st.frame)
    (FunctionDecl.forall_functions.1 hf).2
  exact hblock.completed trivial

theorem from_construct (h : Draws K stack st) {c : Class} (hc : c.From K)
    {arguments : List Value} (harguments : ∀ v ∈ arguments, v.From K)
    (line : Nat) : From K (construct c arguments line stack st) := by
  have hobject : (Value.inst ⟨st.store.nextObject, c⟩).From K := hc
  have hthere := h.move { st with store := st.store.addObject }
    h.store.addObject
  simp only [construct]
  cases hmethod : c.findMethod? initializerName with
  | none => exact hthere.value hobject
  | some method =>
    have hbind := hthere.move { st with store :=
      (st.store.addObject.bindMethod method (.inst ⟨st.store.nextObject, c⟩)).1 }
      (hthere.store.bindMethod method hobject)
    have hwaits := hbind.push (.construct ⟨st.store.nextObject, c⟩) hc
    have hmethod : method.From K := hc.findMethod? hmethod
    exact from_enterBody (f := (st.store.addObject.bindMethod method _).2) hwaits
      hmethod harguments line

theorem from_enter (h : Draws K stack st) (hset : set.All (Behaviour.Keeps K))
    {callee : Callable} (hcallee : callee.From K) {arguments : List Value}
    (harguments : ∀ v ∈ arguments, v.From K) (line : Nat) :
    From K (enter set callee arguments line stack st) := by
  cases callee with
  | closure f => exact from_enterBody h hcallee harguments line
  | cls c => exact from_construct h hcallee harguments line
  | native function =>
    simp only [enter]
    split
    · exact h.stuck
    · next behaviour hbehaviour =>
      split
      · next v hv =>
        exact h.value (hset _ _ hbehaviour set.now arguments v harguments hv)
      · exact h.failed _

theorem from_invoke (h : Draws K stack st) (hset : set.All (Behaviour.Keeps K))
    {callee : Callable} (hcallee : callee.From K) {arguments : List Value}
    (harguments : ∀ v ∈ arguments, v.From K) (line : Nat) :
    From K (invoke set callee arguments line stack st) := by
  simp only [invoke]
  split
  · exact h.failed _
  · split
    · exact h.failed _
    · have hdeeper := h.move { st with depth := st.depth + 1 } h.store
      have hwaits := hdeeper.push .invocation trivial
      exact from_enter hwaits hset hcallee harguments line

theorem from_settle (h : Draws K stack st) (hset : set.All (Behaviour.Keeps K))
    {v : Value} (hv : v.From K) (line : Nat) :
    From K (settle set v line stack st) := by
  cases v with
  | function f =>
    have hcallee : (Callable.closure f).From K := hv
    simp only [settle]
    split
    · exact from_invoke h hset hcallee (by simp) line
    · exact h.value hv
  | _ => exact h.value hv

theorem from_passArguments (h : Draws K stack st)
    (hset : set.All (Behaviour.Keeps K)) {callee : Callable}
    (hcallee : callee.From K) (line : Nat) {earlier : List Value}
    (hearlier : ∀ v ∈ earlier, v.From K) (later : List Expr) :
    From K (passArguments set callee line earlier later stack st) := by
  cases later with
  | nil =>
    refine from_invoke h hset hcallee ?_ line
    intro v hv
    exact hearlier v (List.mem_reverse.1 hv)
  | cons e later =>
    exact (h.push (.argument callee line earlier later)
      ⟨hcallee, hearlier⟩).eval e

/-! ## Properties and classes -/

/-- A member is bound and handed on. -/
theorem from_bound (h : Draws K stack st) (hset : set.All (Behaviour.Keeps K))
    {method : Closure} (hmethod : method.From K) {object : Value}
    (hobject : object.From K) (line : Nat) :
    From K (settle set (.function (st.store.bindMethod method object).2)
      line stack { st with store := (st.store.bindMethod method object).1 }) := by
  have hbind := h.move
    { st with store := (st.store.bindMethod method object).1 }
    (h.store.bindMethod method hobject)
  have hbound : (Value.function (st.store.bindMethod method object).2).From K :=
    hmethod
  exact from_settle hbind hset hbound line

theorem from_readProperty (h : Draws K stack st)
    (hset : set.All (Behaviour.Keeps K)) {object : Value}
    (hobject : object.From K) (id : ObjectId)
    {method? : String → Option Closure}
    (hmethod : ∀ name f, method? name = some f → f.From K)
    (owner : String) (name : Ident) :
    From K (readProperty set object id method? owner name stack st) := by
  simp only [readProperty]
  split
  · next v hfield =>
    exact from_settle h hset (h.store.fields _ _ v hfield) name.line
  · split
    · next method hfound =>
      exact from_bound h hset (hmethod _ method hfound) hobject name.line
    · exact h.failed _

theorem from_getProperty (h : Draws K stack st)
    (hset : set.All (Behaviour.Keeps K)) {object : Value}
    (hobject : object.From K) (name : Ident) :
    From K (getProperty set object name stack st) := by
  cases object with
  | inst o =>
    have hclass : o.cls.From K := hobject
    exact from_readProperty h hset hobject _
      (fun name f hf => hclass.findMethod? hf) _ name
  | cls c =>
    have hclass : c.From K := hobject
    exact from_readProperty h hset hobject _
      (fun name f hf => hclass.findStatic? hf) _ name
  | _ => exact h.failed _

theorem from_bindSuper (h : Draws K stack st)
    (hset : set.All (Behaviour.Keeps K)) {superclass : Class}
    (hsuperclass : superclass.From K) (distance line : Nat) (method : Ident) :
    From K (bindSuper set superclass distance line method stack st) := by
  cases distance with
  | zero => exact h.failed _
  | succ inner =>
    simp only [bindSuper]
    split
    · exact h.failed _
    · next object hobject =>
      split
      · exact h.failed _
      · next f hf =>
        exact from_bound h hset (hsuperclass.findMethod? hf)
          (h.store.readAt hobject) method.line

theorem from_getSuper (h : Draws K stack st)
    (hset : set.All (Behaviour.Keeps K)) (id line : Nat) (method : Ident) :
    From K (getSuper set id line method stack st) := by
  simp only [getSuper]
  split
  · exact h.failed _
  · split
    · exact h.failed _
    · next superclass hread =>
      have hclass : (Value.cls superclass).From K := h.store.readAt hread
      exact from_bindSuper h hset hclass _ line method
    · exact h.failed _

/-- A class is given to its name. -/
theorem from_nameClass {store : Store}
    (h : Draws K stack { st with store := store }) (name : Ident) {c : Class}
    (hc : c.From K) : From K (nameClass name c store stack st) := by
  have hclass : (Value.cls c).From K := hc
  unfold nameClass
  split
  · next owner howner =>
    exact (h.move { st with store := store.addObject.define owner name.name _ }
      (h.store.addObject.define owner name.name hclass)).completed trivial
  · exact h.failed _

theorem Draws.members {store : Store}
    (h : Draws K stack { st with store := store }) (frame : FrameId)
    (list : List FunctionDecl) (members : Members) :
    Draws K stack { st with store := (makeMembers frame list members store).2 } :=
  ⟨h.stack, h.store.makeMembers frame list members⟩

theorem from_makeClass (h : Draws K stack st) {declaration : ClassDecl}
    (hdeclaration : ∀ f ∈ declaration.functions, K.Declared f)
    {superclass : Option Class} (hsuperclass : ∀ c ∈ superclass, c.From K) :
    From K (makeClass declaration superclass stack st) := by
  rw [declaration.functions_eq, FunctionDecl.forall_functionsAll] at hdeclaration
  have hmember (frame : FrameId) : ∀ f ∈ declaration.methods,
      ∀ identity, (⟨identity, f, frame⟩ : Closure).From K :=
    fun f hf _ => hdeclaration f hf
  cases superclass with
  | none =>
    rw [makeClass_base]
    have hclass : (Class.base (infoOf declaration (makeMembers st.frame
        declaration.methods ⟨.empty, .empty⟩ st.store))).From K :=
      Class.all_base.2 (all_infoOf (hmember st.frame) st.store)
    exact from_nameClass (h.members _ _ _) declaration.name hclass
  | some c =>
    rw [makeClass_derived]
    have hc : (Value.cls c).From K := hsuperclass c rfl
    have hsuper : (superStore c st).All (Value.From K) :=
      h.store.addFrame _ (Table.forall_single _ hc)
    have hthere := h.move { st with store := superStore c st } hsuper
    have hclass : (Class.derived (infoOf declaration (makeMembers
        st.store.nextFrame declaration.methods ⟨.empty, .empty⟩
        (superStore c st))) c).From K :=
      Class.all_derived.2 ⟨all_infoOf (hmember _) _, hsuperclass c rfl⟩
    exact from_nameClass (hthere.members _ _ _) declaration.name hclass

/-! ## Steps -/

theorem from_lookUp (h : st.store.All (Value.From K)) {id line : Nat}
    {name : String} {v : Value} (hv : lookUp set st id name line = .ok v) :
    v.From K := by
  unfold lookUp at hv
  split at hv
  · exact h.readAt hv
  · exact h.read hv

theorem from_evaluate (h : Draws K stack st)
    (hset : set.All (Behaviour.Keeps K)) (e : Expr) :
    From K (evaluate set e stack st) := by
  cases e with
  | literal value => exact h.value (Value.isData_ofLiteral value).from
  | «variable» | this => exact h.deliver fun v hv => from_lookUp h.store hv
  | super id line method => exact from_getSuper h hset id line method
  | group inner => exact h.eval inner
  | unary op line right => exact (h.push (.unary op line) trivial).eval right
  | binary left op line right =>
    exact (h.push (.binaryLeft op line right) trivial).eval left
  | logical left op line right =>
    exact (h.push (.logical op right) trivial).eval left
  | assign target value => exact (h.push (.assign target) trivial).eval value
  | call callee line arguments =>
    exact (h.push (.callee line arguments) trivial).eval callee
  | get object name => exact (h.push (.get name) trivial).eval object
  | set object name value =>
    exact (h.push (.setObject name value) trivial).eval object

theorem from_execute (h : Draws K stack st) {s : Stmt}
    (hs : ∀ f ∈ s.functions, K.Declared f) : From K (execute s stack st) := by
  cases s with
  | expression e => exact (h.push .discard trivial).eval e
  | print e => exact (h.push .print trivial).eval e
  | var name initializer =>
    cases initializer with
    | none => exact (h.defineHere name.name (v := .nil) trivial).completed trivial
    | some e => exact (h.push (.define name.name) trivial).eval e
  | block body =>
    rw [Stmt.functions] at hs
    have hframed : (st.store.addFrame (some st.frame) .empty).All (Value.From K) :=
      h.store.addFrame (some st.frame) (by rintro _ _ ⟨⟩)
    have hthere := h.move ⟨_, st.sink, st.store.nextFrame, st.depth⟩ hframed
    exact (hthere.push (.block body st.frame) hs).completed trivial
  | ifElse condition thenBranch elseBranch =>
    cases elseBranch with
    | none =>
      rw [Stmt.functions] at hs
      have hbranches : (Pending.branch thenBranch none).From K :=
        ⟨hs, by rintro _ ⟨⟩⟩
      exact (h.push _ hbranches).eval condition
    | some elseBranch =>
      rw [Stmt.functions, List.forall_mem_append] at hs
      have hbranches : (Pending.branch thenBranch (some elseBranch)).From K := by
        refine ⟨hs.1, ?_⟩
        rintro s ⟨⟩
        exact hs.2
      exact (h.push _ hbranches).eval condition
  | «while» condition body =>
    rw [Stmt.functions] at hs
    exact (h.push (.loopTest condition body) hs).eval condition
  | function f =>
    rw [Stmt.functions] at hs
    have hf : (Value.function (st.store.makeClosure f st.frame).2).From K := hs
    have hmade := h.move { st with store := (st.store.makeClosure f st.frame).1 }
      (h.store.makeClosure f st.frame)
    exact (hmade.defineHere f.name.name hf).completed trivial
  | «return» line value =>
    cases value with
    | none => exact h.completed (c := .returned .nil) trivial
    | some e => exact (h.push .giveBack trivial).eval e
  | «class» declaration =>
    rw [Stmt.functions] at hs
    have hnamed := h.defineHere declaration.name.name (v := .nil) trivial
    simp only [execute]
    split
    · exact from_makeClass hnamed hs (by rintro _ ⟨⟩)
    · next parent hparent =>
      exact (hnamed.push (.superclass declaration parent.line) hs).eval _

theorem from_resume {pending : Pending} {v : Value}
    (h : Draws K (pending :: stack) st) (hset : set.All (Behaviour.Keeps K))
    (hv : v.From K) : From K (resume set v pending stack st) := by
  have hpending := h.stack pending List.mem_cons_self
  replace h := h.pop
  cases pending with
  | loopBody | block | body | program => exact h.stuck
  | unary => exact h.deliver fun w hw => (UnaryOp.isData_apply hw).from
  | binaryRight => exact h.deliver fun w hw => (BinaryOp.isData_apply hw).from
  | binaryLeft op line right => exact (h.push (.binaryRight v op line) hv).eval right
  | logical op right =>
    simp only [resume]
    split
    · exact h.value hv
    · exact h.eval right
  | assign target =>
    simp only [resume, assign]
    split
    · next owner howner =>
      exact (h.move { st with store := st.store.define owner target.name v }
        (h.store.define owner target.name hv)).value hv
    · exact h.failed _
  | callee line arguments =>
    simp only [resume]
    split
    · next hcallee =>
      exact from_passArguments h hset (hv.callable? hcallee) line (by simp) _
    · exact h.failed _
  | argument c line earlier later =>
    exact from_passArguments h hset hpending.1 line
      (List.forall_mem_cons.2 ⟨hv, hpending.2⟩) later
  | get name => exact from_getProperty h hset hv name
  | setObject name value =>
    simp only [resume]
    split
    · next object hobject =>
      exact (h.push (.setValue object name.name) trivial).eval value
    · exact h.failed _
  | setValue object name =>
    exact (h.move { st with store := st.store.setField object name v }
      (h.store.setField object name hv)).value hv
  | construct object => exact h.value (v := .inst object) hpending
  | invocation => exact (h.move { st with depth := st.depth - 1 } h.store).value hv
  | discard => exact h.completed trivial
  | print =>
    have hprinted := h.move
      { st with sink := (st.sink.writeLine v.display).1 } h.store
    simp only [resume, printValue]
    split
    · exact hprinted.completed trivial
    · exact hprinted.failed _
  | define name => exact (h.defineHere name hv).completed trivial
  | branch thenBranch elseBranch =>
    simp only [resume]
    split
    · exact h.exec hpending.1
    · cases elseBranch with
      | none => exact h.completed trivial
      | some s => exact h.exec (hpending.2 s rfl)
  | loopTest condition inner =>
    simp only [resume]
    split
    · exact (h.push (.loopBody condition inner) hpending).exec hpending
    · exact h.completed trivial
  | giveBack => exact h.completed (c := .returned v) hv
  | superclass declaration line =>
    cases v with
    | cls parent =>
      have hparent : ∀ c ∈ some parent, c.From K := by
        rintro c ⟨⟩
        exact hv
      exact from_makeClass h hpending hparent
    | _ => exact h.failed _

theorem from_resultOf {store : Store} (h : store.All (Value.From K))
    {f : Closure} {line : Nat} {c : Completion} (hc : c.From K) {v : Value}
    (hv : resultOf f line c store = .ok v) : v.From K := by
  unfold resultOf at hv
  split at hv
  · exact h.readAt hv
  · cases c with
    | normal =>
      cases hv
      trivial
    | returned w =>
      cases hv
      exact hc

theorem from_complete {pending : Pending} {c : Completion}
    (h : Draws K (pending :: stack) st) (hc : c.From K) :
    From K (complete c pending stack st) := by
  have hpending := h.stack pending List.mem_cons_self
  replace h := h.pop
  -- a list of statements goes on with its first one, if it can
  have hlater {s : Stmt} {later : List Stmt}
      (hall : ∀ f ∈ Stmt.functionsAll (s :: later), K.Declared f) :
      (∀ f ∈ s.functions, K.Declared f) ∧
        ∀ f ∈ Stmt.functionsAll later, K.Declared f := by
    rw [Stmt.functionsAll] at hall
    exact List.forall_mem_append.1 hall
  cases pending with
  | loopBody condition inner =>
    cases c with
    | normal => exact (h.push (.loopTest condition inner) hpending).eval condition
    | returned v => exact h.completed hc
  | block later saved =>
    have hback := h.move { st with frame := saved } h.store
    cases c with
    | returned v => exact hback.completed hc
    | normal =>
      cases later with
      | nil => exact hback.completed hc
      | cons s later =>
        obtain ⟨hs, hrest⟩ := hlater hpending
        exact (h.push (.block later saved) hrest).exec hs
  | body f line => exact h.deliver fun v hv => from_resultOf h.store hc hv
  | program later =>
    cases c with
    | returned v => exact h.completed hc
    | normal =>
      cases later with
      | nil => exact h.completed hc
      | cons s later =>
        obtain ⟨hs, hrest⟩ := hlater hpending
        exact (h.push (.program later) hrest).exec hs
  | _ => exact h.stuck

end

variable {m : Machine}

/-- A step takes no functions but from the supply. -/
theorem from_step {set : Setting} (h : m.From K)
    (hset : set.All (Behaviour.Keeps K)) : (step set m).From K := by
  obtain ⟨control, stack, st⟩ := m
  obtain ⟨hdraws, hcontrol⟩ := h
  cases control with
  | eval e => exact from_evaluate hdraws hset e
  | exec s => exact from_execute hdraws hcontrol
  | value v =>
    cases stack with
    | nil => exact ⟨hdraws, hcontrol⟩
    | cons pending stack => exact from_resume hdraws hset hcontrol
  | completed c =>
    cases stack with
    | nil => exact ⟨hdraws, hcontrol⟩
    | cons pending stack => exact from_complete hdraws hcontrol
  | failed f =>
    cases stack with
    | nil => exact ⟨hdraws, hcontrol⟩
    | cons pending stack =>
      have hunwind : (unwind pending st).store = st.store := by
        cases pending <;> rfl
      have hrest := hdraws.pop
      exact ⟨⟨hrest.stack, hunwind ▸ hrest.store⟩, trivial⟩
  | stuck => exact ⟨hdraws, trivial⟩

theorem from_ofProgram {program : List Stmt} {st : State}
    (hprogram : ∀ f ∈ Stmt.functionsAll program, K.Declared f)
    (hstore : st.store.All (Value.From K)) :
    (Machine.ofProgram program st).From K :=
  ⟨⟨List.forall_mem_singleton.2 hprogram, hstore⟩, trivial⟩

end Machine

end Lox
