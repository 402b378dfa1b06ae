import Lox.Proofs.Machine.Members
import Lox.Proofs.Machine.Trail
import Lox.Proofs.Scope.Place
import Lox.Proofs.Store.Loops

/-!
# Getters

Reading a property of an object calls what it finds, if that is a getter.  So
that a field is read back as it was stored, no getter may be a value.  A member
of a class is one only until it is bound, and a bound getter is called at once;
the functions that statements declare are none.  `Value.Sane` says of a value
that it is no getter and that all code it holds is well formed, and `Sane` says
so of everything that a machine has at hand.

A step keeps a machine sane (`sane_step`).  It also keeps all fields of all
objects, unless it is the last step of a `set` (`storing?`).
-/

namespace Lox

/-! ## Values -/

/-- The functions of the class hold well-formed code. -/
def Class.Sane (c : Class) : Prop :=
  c.All fun f => f.declaration.WellFormed

/-- The value is no getter, and the code it holds is well formed. -/
def Value.Sane : Value → Prop
  | function f => f.isGetter = false ∧ f.declaration.WellFormed
  | cls c => c.Sane
  | inst object => object.cls.Sane
  | _ => True

/-- The callee holds well-formed code.  A getter can be called, too. -/
def Callable.Sane : Callable → Prop
  | native _ => True
  | closure f => f.declaration.WellFormed
  | cls c => c.Sane

/-- The returned value is sane, if there is one. -/
def Completion.Sane : Completion → Prop
  | normal => True
  | returned v => v.Sane

theorem Value.IsPlain.sane {v : Value} (h : v.IsPlain) : v.Sane := by
  cases v <;> trivial

theorem Value.Sane.callable? {v : Value} {callee : Callable} (h : v.Sane)
    (hv : v.callable? = some callee) : callee.Sane := by
  cases v with
  | function f =>
    cases hv
    exact h.2
  | _ => cases hv <;> exact h

namespace Machine

/-! ## Machines -/

/-- The construct holds well-formed code and sane values. -/
def Pending.Sane : Pending → Prop
  | binaryLeft _ _ right => right.WellFormed
  | binaryRight left _ _ => left.Sane
  | logical _ right => right.WellFormed
  | assign target => Unreserved target.name
  | callee _ arguments => Expr.AllWellFormed arguments
  | argument called _ earlier later =>
    called.Sane ∧ (∀ v ∈ earlier, v.Sane) ∧ Expr.AllWellFormed later
  | setObject _ value => value.WellFormed
  | construct object => object.cls.Sane
  | define name => Unreserved name
  | branch thenBranch elseBranch =>
    thenBranch.WellFormed ∧ ∀ s ∈ elseBranch, s.WellFormed
  | loopTest condition inner | loopBody condition inner =>
    condition.WellFormed ∧ inner.WellFormed
  | superclass declaration _ => declaration.WellFormed
  | block later _ | program later => Stmt.AllWellFormed later
  | _ => True

/-- What is done next is well-formed code or hands on a sane value. -/
def Control.Sane : Control → Prop
  | eval e => e.WellFormed
  | exec s => s.WellFormed
  | value v => v.Sane
  | completed c => c.Sane
  | _ => True

/-- The native function gives back no getter and no code that is not well
formed, if it is given none. -/
def Behaviour.Sparing (behaviour : Behaviour) : Prop :=
  ∀ (now : Float) (arguments : List Value) (v : Value),
    (∀ a ∈ arguments, a.Sane) → behaviour now arguments = .ok v → v.Sane

/-- What waits below a construct that is taken up: it is sane, and the objects
have these fields. -/
structure Remains (fields : ObjectId → String → Option Value)
    (stack : List Pending) (st : State) : Prop where
  stack : ∀ pending ∈ stack, pending.Sane
  store : st.store.All Value.Sane
  fields : st.store.field? = fields

/-- All that the machine has at hand is sane, and its objects have these
fields. -/
structure Sane (fields : ObjectId → String → Option Value) (m : Machine) :
    Prop extends Remains fields m.stack m.state where
  control : m.control.Sane

section

variable {set : Setting} {fields : ObjectId → String → Option Value}
  {stack : List Pending} {st : State}

namespace Remains

/-- The same in another state with the same fields. -/
theorem move (h : Remains fields stack st) (st' : State)
    (hstore : st'.store.All Value.Sane)
    (hfields : st'.store.field? = st.store.field?) :
    Remains fields stack st' :=
  ⟨h.stack, hstore, hfields.trans h.fields⟩

theorem push (h : Remains fields stack st) (pending : Pending)
    (hpending : pending.Sane) : Remains fields (pending :: stack) st :=
  ⟨List.forall_mem_cons.2 ⟨hpending, h.stack⟩, h.store, h.fields⟩

theorem pop {pending : Pending} (h : Remains fields (pending :: stack) st) :
    Remains fields stack st :=
  ⟨(List.forall_mem_cons.1 h.stack).2, h.store, h.fields⟩

theorem eval (h : Remains fields stack st) {e : Expr} (he : e.WellFormed) :
    Sane fields ⟨.eval e, stack, st⟩ :=
  ⟨h, he⟩

theorem exec (h : Remains fields stack st) {s : Stmt} (hs : s.WellFormed) :
    Sane fields ⟨.exec s, stack, st⟩ :=
  ⟨h, hs⟩

theorem value (h : Remains fields stack st) {v : Value} (hv : v.Sane) :
    Sane fields ⟨.value v, stack, st⟩ :=
  ⟨h, hv⟩

theorem completed (h : Remains fields stack st) {c : Completion}
    (hc : c.Sane) : Sane fields ⟨.completed c, stack, st⟩ :=
  ⟨h, hc⟩

theorem failed (h : Remains fields stack st) (f : Failure) :
    Sane fields ⟨.failed f, stack, st⟩ :=
  ⟨h, trivial⟩

theorem stuck (h : Remains fields stack st) :
    Sane fields ⟨.stuck, stack, st⟩ :=
  ⟨h, trivial⟩

theorem deliver (h : Remains fields stack st) {result : Except Failure Value}
    (hok : ∀ v, result = .ok v → v.Sane) :
    Sane fields (Machine.deliver result stack st) := by
  cases result with
  | ok v => exact h.value (hok v rfl)
  | error f => exact h.failed f

/-- A variable of the current frame gets a value. -/
theorem defineHere (h : Remains fields stack st) (name : String) {v : Value}
    (hv : v.Sane) : Remains fields stack (Machine.defineHere st name v) :=
  h.move _ (h.store.define st.frame name hv) rfl

end Remains

/-! ## Calls -/

theorem sane_enterBody (h : Remains fields stack st) {f : Closure}
    (hf : f.declaration.WellFormed) {arguments : List Value}
    (harguments : ∀ v ∈ arguments, v.Sane) (line : Nat) :
    Sane fields (enterBody f arguments line stack st) := by
  have hbody : Stmt.AllWellFormed f.declaration.body := by
    revert hf
    cases f.declaration
    rw [FunctionDecl.WellFormed]
    exact And.right
  have hframed := h.store.addFrame (some f.frame)
    (Table.forall_insertAll (f.declaration.params.map Ident.name) harguments)
  have hthere := h.move ⟨_, st.sink, st.store.nextFrame, st.depth⟩ hframed rfl
  have hwaits := hthere.push (.body f line) trivial
  have hblock := hwaits.push (.block f.declaration.body st.frame) hbody
  exact hblock.completed trivial

theorem sane_construct (h : Remains fields stack st) {c : Class} (hc : c.Sane)
    {arguments : List Value} (harguments : ∀ v ∈ arguments, v.Sane)
    (line : Nat) : Sane fields (construct c arguments line stack st) := by
  have hadded : st.store.addObject.field? = st.store.field? :=
    funext fun object => funext fun name => Store.field?_addObject _ object name
  have hobject : (Value.inst ⟨st.store.nextObject, c⟩).Sane := hc
  have hthere := h.move { st with store := st.store.addObject }
    h.store.addObject hadded
  simp only [construct]
  cases hmethod : c.findMethod? initializerName with
  | none => exact hthere.value hobject
  | some method =>
    have hbind := hthere.move { st with store :=
      (st.store.addObject.bindMethod method (.inst ⟨st.store.nextObject, c⟩)).1 }
      (hthere.store.bindMethod method hobject) rfl
    have hwaits := hbind.push (.construct ⟨st.store.nextObject, c⟩) hc
    have hwell : method.declaration.WellFormed := hc.findMethod? hmethod
    exact sane_enterBody (f := (st.store.addObject.bindMethod method _).2) hwaits
      hwell harguments line

theorem sane_enter (h : Remains fields stack st)
    (hset : set.All Behaviour.Sparing) {callee : Callable}
    (hcallee : callee.Sane) {arguments : List Value}
    (harguments : ∀ v ∈ arguments, v.Sane) (line : Nat) :
    Sane fields (enter set callee arguments line stack st) := by
  cases callee with
  | closure f => exact sane_enterBody h hcallee harguments line
  | cls c => exact sane_construct h hcallee harguments line
  | native function =>
    simp only [enter]
    split
    · exact h.stuck
    · next behaviour hbehaviour =>
      split
      · next v hv =>
        exact h.value (hset _ _ hbehaviour set.now arguments v harguments hv)
      · exact h.failed _

theorem sane_invoke (h : Remains fields stack st)
    (hset : set.All Behaviour.Sparing) {callee : Callable}
    (hcallee : callee.Sane) {arguments : List Value}
    (harguments : ∀ v ∈ arguments, v.Sane) (line : Nat) :
    Sane fields (invoke set callee arguments line stack st) := by
  simp only [invoke]
  split
  · exact h.failed _
  · split
    · exact h.failed _
    · have hdeeper := h.move { st with depth := st.depth + 1 } h.store rfl
      have hwaits := hdeeper.push .invocation trivial
      exact sane_enter hwaits hset hcallee harguments line

/-- A function is handed on if it is no getter, and a getter is called. -/
theorem sane_settleFunction (h : Remains fields stack st)
    (hset : set.All Behaviour.Sparing) {f : Closure}
    (hf : f.declaration.WellFormed) (line : Nat) :
    Sane fields (settle set (.function f) line stack st) := by
  have hcallee : (Callable.closure f).Sane := hf
  simp only [settle]
  split
  · exact sane_invoke h hset hcallee (by simp) line
  · next hgetter => exact h.value ⟨Bool.eq_false_iff.2 hgetter, hf⟩

theorem sane_settle (h : Remains fields stack st)
    (hset : set.All Behaviour.Sparing) {v : Value} (hv : v.Sane) (line : Nat) :
    Sane fields (settle set v line stack st) := by
  cases v with
  | function f => exact sane_settleFunction h hset hv.2 line
  | _ => exact h.value hv

theorem sane_passArguments (h : Remains fields stack st)
    (hset : set.All Behaviour.Sparing) {callee : Callable}
    (hcallee : callee.Sane) (line : Nat) {earlier : List Value}
    (hearlier : ∀ v ∈ earlier, v.Sane) {later : List Expr}
    (hlater : Expr.AllWellFormed later) :
    Sane fields (passArguments set callee line earlier later stack st) := by
  cases later with
  | nil =>
    refine sane_invoke h hset hcallee ?_ line
    intro v hv
    exact hearlier v (List.mem_reverse.1 hv)
  | cons e later =>
    rw [Expr.AllWellFormed] at hlater
    have hwaits := h.push (.argument callee line earlier later)
      ⟨hcallee, hearlier, hlater.2⟩
    exact hwaits.eval hlater.1

/-! ## Properties and classes -/

/-- A member is bound and handed on. -/
theorem sane_bound (h : Remains fields stack st)
    (hset : set.All Behaviour.Sparing) {method : Closure}
    (hmethod : method.declaration.WellFormed) {object : Value}
    (hobject : object.Sane) (line : Nat) :
    Sane fields (settle set (.function (st.store.bindMethod method object).2)
      line stack { st with store := (st.store.bindMethod method object).1 }) := by
  have hbind := h.move
    { st with store := (st.store.bindMethod method object).1 }
    (h.store.bindMethod method hobject) rfl
  exact sane_settleFunction (f := (st.store.bindMethod method object).2) hbind hset
    hmethod line

theorem sane_readProperty (h : Remains fields stack st)
    (hset : set.All Behaviour.Sparing) {object : Value} (hobject : object.Sane)
    (id : ObjectId) {method? : String → Option Closure}
    (hmethod : ∀ name f, method? name = some f → f.declaration.WellFormed)
    (owner : String) (name : Ident) :
    Sane fields (readProperty set object id method? owner name stack st) := by
  simp only [readProperty]
  split
  · next v hfield =>
    exact sane_settle h hset (h.store.fields _ _ v hfield) name.line
  · split
    · next method hfound =>
      exact sane_bound h hset (hmethod _ method hfound) hobject name.line
    · exact h.failed _

theorem sane_getProperty (h : Remains fields stack st)
    (hset : set.All Behaviour.Sparing) {object : Value} (hobject : object.Sane)
    (name : Ident) :
    Sane fields (getProperty set object name stack st) := by
  cases object with
  | inst o =>
    have hclass : o.cls.Sane := hobject
    exact sane_readProperty h hset hobject _
      (fun name f hf => hclass.findMethod? hf) _ name
  | cls c =>
    have hclass : c.Sane := hobject
    exact sane_readProperty h hset hobject _
      (fun name f hf => hclass.findStatic? hf) _ name
  | _ => exact h.failed _

theorem sane_bindSuper (h : Remains fields stack st)
    (hset : set.All Behaviour.Sparing) {superclass : Class}
    (hsuperclass : superclass.Sane) (distance line : Nat) (method : Ident) :
    Sane fields (bindSuper set superclass distance line method stack st) := by
  cases distance with
  | zero => exact h.failed _
  | succ inner =>
    simp only [bindSuper]
    split
    · exact h.failed _
    · next object hobject =>
      split
      · exact h.failed _
      · next f hf =>
        exact sane_bound h hset (hsuperclass.findMethod? hf)
          (h.store.readAt hobject) method.line

theorem sane_getSuper (h : Remains fields stack st)
    (hset : set.All Behaviour.Sparing) (id line : Nat) (method : Ident) :
    Sane fields (getSuper set id line method stack st) := by
  simp only [getSuper]
  split
  · exact h.failed _
  · split
    · exact h.failed _
    · next superclass hread =>
      have hclass : (Value.cls superclass).Sane := h.store.readAt hread
      exact sane_bindSuper h hset hclass _ line method
    · exact h.failed _

/-- A class is given to its name. -/
theorem sane_nameClass {store : Store}
    (h : Remains fields stack { st with store := store }) (name : Ident)
    {c : Class} (hc : c.Sane) :
    Sane fields (nameClass name c store stack st) := by
  have hclass : (Value.cls c).Sane := hc
  unfold nameClass
  split
  · next owner howner =>
    have hfields : (store.addObject.define owner name.name (.cls c)).field? =
        store.field? :=
      funext fun object => funext fun name => Store.field?_addObject _ object name
    exact (h.move { st with store := store.addObject.define owner name.name _ }
      (h.store.addObject.define owner name.name hclass) hfields).completed trivial
  · exact h.failed _

/-- Making members changes neither frames nor fields. -/
theorem Remains.members {store : Store}
    (h : Remains fields stack { st with store := store }) (frame : FrameId)
    (list : List FunctionDecl) (members : Members) :
    Remains fields stack
      { st with store := (makeMembers frame list members store).2 } where
  stack := h.stack
  store := h.store.makeMembers frame list members
  fields := by
    refine Eq.trans ?_ h.fields
    funext object name
    simp only [Store.field?, fields_makeMembers]

theorem sane_makeClass (h : Remains fields stack st) {declaration : ClassDecl}
    (hdeclaration : declaration.WellFormed) {superclass : Option Class}
    (hsuperclass : ∀ c ∈ superclass, c.Sane) :
    Sane fields (makeClass declaration superclass stack st) := by
  have hmember (frame : FrameId) : ∀ f ∈ declaration.methods,
      ∀ identity, (⟨identity, f, frame⟩ : Closure).declaration.WellFormed := by
    obtain ⟨name, parent, methods⟩ := declaration
    rw [ClassDecl.WellFormed] at hdeclaration
    exact fun f hf _ => hdeclaration.2.of_mem hf
  cases superclass with
  | none =>
    rw [makeClass_base]
    have hclass : (Class.base (infoOf declaration (makeMembers st.frame
        declaration.methods ⟨.empty, .empty⟩ st.store))).Sane :=
      Class.all_base.2 (all_infoOf (hmember st.frame) st.store)
    exact sane_nameClass (h.members _ _ _) declaration.name hclass
  | some c =>
    rw [makeClass_derived]
    have hc := hsuperclass c rfl
    have hsuper : (superStore c st).All Value.Sane :=
      h.store.addFrame _ (Table.forall_single _ hc)
    have hthere := h.move { st with store := superStore c st } hsuper rfl
    have hclass : (Class.derived (infoOf declaration (makeMembers
        st.store.nextFrame declaration.methods ⟨.empty, .empty⟩
        (superStore c st))) c).Sane :=
      Class.all_derived.2 ⟨all_infoOf (hmember _) _, hc⟩
    exact sane_nameClass (hthere.members _ _ _) declaration.name hclass

/-! ## Steps -/

theorem sane_lookUp (h : st.store.All Value.Sane) {id line : Nat}
    {name : String} {v : Value} (hv : lookUp set st id name line = .ok v) :
    v.Sane := by
  unfold lookUp at hv
  split at hv
  · exact h.readAt hv
  · exact h.read hv

theorem sane_evaluate (h : Remains fields stack st)
    (hset : set.All Behaviour.Sparing) {e : Expr} (he : e.WellFormed) :
    Sane fields (evaluate set e stack st) := by
  cases e with
  | literal value => exact h.value (Value.isData_ofLiteral value).isPlain.sane
  | «variable» | this => exact h.deliver fun v hv => sane_lookUp h.store hv
  | super id line method => exact sane_getSuper h hset id line method
  | group inner =>
    rw [Expr.WellFormed] at he
    exact h.eval he
  | unary op line right =>
    rw [Expr.WellFormed] at he
    exact (h.push (.unary op line) trivial).eval he
  | binary left op line right =>
    rw [Expr.WellFormed] at he
    exact (h.push (.binaryLeft op line right) he.2).eval he.1
  | logical left op line right =>
    rw [Expr.WellFormed] at he
    exact (h.push (.logical op right) he.2).eval he.1
  | assign target value =>
    rw [Expr.WellFormed] at he
    exact (h.push (.assign target) he.1).eval he.2
  | call callee line arguments =>
    rw [Expr.WellFormed] at he
    exact (h.push (.callee line arguments) he.2).eval he.1
  | get object name =>
    rw [Expr.WellFormed] at he
    exact (h.push (.get name) trivial).eval he
  | set object name value =>
    rw [Expr.WellFormed] at he
    exact (h.push (.setObject name value) he.2).eval he.1

theorem sane_execute (h : Remains fields stack st) {s : Stmt}
    (hs : s.WellFormed) : Sane fields (execute s stack st) := by
  cases s with
  | expression e =>
    rw [Stmt.WellFormed] at hs
    exact (h.push .discard trivial).eval hs
  | print e =>
    rw [Stmt.WellFormed] at hs
    exact (h.push .print trivial).eval hs
  | var name initializer =>
    rw [Stmt.WellFormed] at hs
    cases initializer with
    | none => exact (h.defineHere name.name (v := .nil) trivial).completed trivial
    | some e => exact (h.push (.define name.name) hs.1).eval hs.2
  | block body =>
    rw [Stmt.WellFormed] at hs
    have hframed : (st.store.addFrame (some st.frame) .empty).All Value.Sane :=
      h.store.addFrame (some st.frame) (by rintro _ _ ⟨⟩)
    have hthere := h.move ⟨_, st.sink, st.store.nextFrame, st.depth⟩ hframed rfl
    exact (hthere.push (.block body st.frame) hs).completed trivial
  | ifElse condition thenBranch elseBranch =>
    cases elseBranch with
    | none =>
      rw [Stmt.WellFormed] at hs
      have hbranches : (Pending.branch thenBranch none).Sane :=
        ⟨hs.2.2, by rintro _ ⟨⟩⟩
      exact (h.push _ hbranches).eval hs.1
    | some elseBranch =>
      rw [Stmt.WellFormed] at hs
      have hbranches : (Pending.branch thenBranch (some elseBranch)).Sane := by
        refine ⟨hs.2.1.2, ?_⟩
        rintro s ⟨⟩
        exact hs.2.2.2
      exact (h.push _ hbranches).eval hs.1
  | «while» condition body =>
    rw [Stmt.WellFormed] at hs
    exact (h.push (.loopTest condition body) ⟨hs.1, hs.2.2⟩).eval hs.1
  | function f =>
    rw [Stmt.WellFormed] at hs
    have hgetter : (Value.function (st.store.makeClosure f st.frame).2).Sane := by
      refine ⟨?_, hs.2.2⟩
      show (f.kind == .getter) = false
      rw [hs.2.1]
      rfl
    have hmade := h.move { st with store := (st.store.makeClosure f st.frame).1 }
      (h.store.makeClosure f st.frame) rfl
    exact (hmade.defineHere f.name.name hgetter).completed trivial
  | «return» line value =>
    rw [Stmt.WellFormed] at hs
    cases value with
    | none => exact h.completed (c := .returned .nil) trivial
    | some e => exact (h.push .giveBack trivial).eval hs
  | «class» declaration =>
    rw [Stmt.WellFormed] at hs
    have hnamed := h.defineHere declaration.name.name (v := .nil) trivial
    simp only [execute]
    split
    · exact sane_makeClass hnamed hs (by rintro _ ⟨⟩)
    · next parent hparent =>
      have hwaits := hnamed.push (.superclass declaration parent.line) hs
      exact hwaits.eval (by simp only [Expr.WellFormed])

/-- The field that the next step stores a value in: that of a `set` whose
value is there. -/
def storing? (m : Machine) : Option (ObjectId × String × Value) :=
  match m.control, m.stack with
  | .value v, .setValue object name :: _ => some (object, name, v)
  | _, _ => none

theorem storing?_eq_some {m : Machine} {object : ObjectId} {name : String}
    {v : Value} :
    storing? m = some (object, name, v) ↔
      ∃ rest, m.control = .value v ∧ m.stack = .setValue object name :: rest := by
  unfold storing?
  constructor
  · intro h
    split at h
    · next hcontrol hstack =>
      cases h
      exact ⟨_, hcontrol, hstack⟩
    · cases h
  · rintro ⟨rest, hcontrol, hstack⟩
    rw [hcontrol, hstack]

theorem sane_resume {pending : Pending} {v : Value}
    (h : Remains fields (pending :: stack) st)
    (hset : set.All Behaviour.Sparing) (hv : v.Sane)
    (hstoring : storing? ⟨.value v, pending :: stack, st⟩ = none) :
    Sane fields (resume set v pending stack st) := by
  have hpending := h.stack pending List.mem_cons_self
  replace h := h.pop
  cases pending with
  | loopBody | block | body | program => exact h.stuck
  | unary => exact h.deliver fun w hw => (UnaryOp.isData_apply hw).isPlain.sane
  | binaryRight =>
    exact h.deliver fun w hw => (BinaryOp.isData_apply hw).isPlain.sane
  | binaryLeft op line right =>
    exact (h.push (.binaryRight v op line) hv).eval hpending
  | logical op right =>
    simp only [resume]
    split
    · exact h.value hv
    · exact h.eval hpending
  | assign target =>
    simp only [resume, assign]
    split
    · next owner howner =>
      exact (h.move { st with store := st.store.define owner target.name v }
        (h.store.define owner target.name hv) rfl).value hv
    · exact h.failed _
  | callee line arguments =>
    simp only [resume]
    split
    · next hcallee =>
      exact sane_passArguments h hset (hv.callable? hcallee) line (by simp) hpending
    · exact h.failed _
  | argument c line earlier later =>
    obtain ⟨hcallee, hearlier, hlater⟩ := hpending
    exact sane_passArguments h hset hcallee line
      (List.forall_mem_cons.2 ⟨hv, hearlier⟩) hlater
  | get name => exact sane_getProperty h hset hv name
  | setObject name value =>
    simp only [resume]
    split
    · next object hobject =>
      exact (h.push (.setValue object name.name) trivial).eval hpending
    · exact h.failed _
  | setValue object name => cases hstoring
  | construct object => exact h.value (v := .inst object) hpending
  | invocation =>
    exact (h.move { st with depth := st.depth - 1 } h.store rfl).value hv
  | discard => exact h.completed trivial
  | print =>
    have hprinted := h.move
      { st with sink := (st.sink.writeLine v.display).1 } h.store rfl
    simp only [resume, printValue]
    split
    · exact hprinted.completed trivial
    · exact hprinted.failed _
  | define name => exact (h.defineHere name hv).completed trivial
  | branch thenBranch elseBranch =>
    simp only [resume]
    split
    · exact h.exec hpending.1
    · cases elseBranch with
      | none => exact h.completed trivial
      | some s => exact h.exec (hpending.2 s rfl)
  | loopTest condition inner =>
    simp only [resume]
    split
    · exact (h.push (.loopBody condition inner) hpending).exec hpending.2
    · exact h.completed trivial
  | giveBack => exact h.completed (c := .returned v) hv
  | superclass declaration line =>
    cases v with
    | cls parent =>
      have hparent : ∀ c ∈ some parent, c.Sane := by
        rintro c ⟨⟩
        exact hv
      exact sane_makeClass h hpending hparent
    | _ => exact h.failed _

theorem sane_resultOf {store : Store} (h : store.All Value.Sane) {f : Closure}
    {line : Nat} {c : Completion} (hc : c.Sane) {v : Value}
    (hv : resultOf f line c store = .ok v) : v.Sane := by
  unfold resultOf at hv
  split at hv
  · exact h.readAt hv
  · cases c with
    | normal =>
      cases hv
      trivial
    | returned w =>
      cases hv
      exact hc

theorem sane_complete {pending : Pending} {c : Completion}
    (h : Remains fields (pending :: stack) st) (hc : c.Sane) :
    Sane fields (complete c pending stack st) := by
  have hpending := h.stack pending List.mem_cons_self
  replace h := h.pop
  cases pending with
  | loopBody condition inner =>
    cases c with
    | normal =>
      exact (h.push (.loopTest condition inner) hpending).eval hpending.1
    | returned v => exact h.completed hc
  | block later saved =>
    have hback := h.move { st with frame := saved } h.store rfl
    cases c with
    | returned v => exact hback.completed hc
    | normal =>
      cases later with
      | nil => exact hback.completed hc
      | cons s later =>
        simp only [Pending.Sane, Stmt.AllWellFormed] at hpending
        exact (h.push (.block later saved) hpending.2).exec hpending.1
  | body f line => exact h.deliver fun v hv => sane_resultOf h.store hc hv
  | program later =>
    cases c with
    | returned v => exact h.completed hc
    | normal =>
      cases later with
      | nil => exact h.completed hc
      | cons s later =>
        simp only [Pending.Sane, Stmt.AllWellFormed] at hpending
        exact (h.push (.program later) hpending.2).exec hpending.1
  | _ => exact h.stuck

end

variable {set : Setting} {fields : ObjectId → String → Option Value}
  {m : Machine}

/-- A step keeps a machine sane and the fields of all objects, unless it
stores a field. -/
theorem sane_step (h : Sane fields m) (hset : set.All Behaviour.Sparing)
    (hstoring : storing? m = none) : Sane fields (step set m) := by
  obtain ⟨control, stack, st⟩ := m
  obtain ⟨hremains, hcontrol⟩ := h
  cases control with
  | eval e => exact sane_evaluate hremains hset hcontrol
  | exec s => exact sane_execute hremains hcontrol
  | value v =>
    cases stack with
    | nil => exact ⟨hremains, hcontrol⟩
    | cons pending stack => exact sane_resume hremains hset hcontrol hstoring
  | completed c =>
    cases stack with
    | nil => exact ⟨hremains, hcontrol⟩
    | cons pending stack => exact sane_complete hremains hcontrol
  | failed f =>
    cases stack with
    | nil => exact ⟨hremains, hcontrol⟩
    | cons pending stack =>
      have hunwind : (unwind pending st).store = st.store := by
        cases pending <;> rfl
      have hrest := hremains.pop
      exact ⟨⟨hrest.stack, hunwind ▸ hrest.store, hunwind ▸ hrest.fields⟩, trivial⟩
  | stuck => exact ⟨hremains, trivial⟩

/-- Storing a field keeps a machine sane. -/
theorem sane_storing (h : Sane fields m) {object : ObjectId} {name : String}
    {v : Value} (hstoring : storing? m = some (object, name, v)) :
    Sane (m.state.store.setField object name v).field? (step set m) ∧
      (step set m).state.store = m.state.store.setField object name v := by
  obtain ⟨rest, hcontrol, hstack⟩ := storing?_eq_some.1 hstoring
  obtain ⟨control, stack, st⟩ := m
  obtain ⟨hremains, hv⟩ := h
  cases hcontrol
  cases hstack
  exact ⟨⟨⟨hremains.pop.stack, hremains.store.setField object name hv, rfl⟩, hv⟩,
    rfl⟩

/-- A step keeps a machine sane, whatever becomes of the fields. -/
theorem sane_after (h : Sane fields m) (hset : set.All Behaviour.Sparing) :
    Sane (step set m).state.store.field? (step set m) := by
  have hnext : ∃ fields', Sane fields' (step set m) := by
    cases hstoring : storing? m with
    | none => exact ⟨fields, sane_step h hset hstoring⟩
    | some x => exact ⟨_, (sane_storing h hstoring).1⟩
  obtain ⟨fields', hnext⟩ := hnext
  exact ⟨⟨hnext.stack, hnext.store, rfl⟩, hnext.control⟩

end Machine

end Lox
