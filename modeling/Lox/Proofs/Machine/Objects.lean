import Lox.Proofs.Machine.Calls
import Lox.Proofs.Machine.Homes
import Lox.Proofs.Machine.Declarations

/-!
# The objects of a machine

Two steps make objects: a class statement makes its class, and the call of a
class makes an instance (`Creates`).  All other steps only pass objects on.  So
the objects can be listed in the order in which they are made.  The number of an
object is its place on this roll, and its class or its superclass stands before
it (`Value.Enrolled`).

`Enrolled` says this of all that a machine has at hand, and of the number of
objects in its store.  A step keeps it, with at most one more object on the roll
(`enrolled_step`).
-/

namespace Lox

/-! ## Values -/

/-- The class stands on the roll under its number, and so do its ancestors, each
before the classes that it is the superclass of. -/
def Class.Enrolled (roll : List Value) : Class → Prop
  | base info => roll[info.id]? = some (.cls (base info))
  | derived info superclass =>
    roll[info.id]? = some (.cls (derived info superclass)) ∧
      superclass.id < info.id ∧ superclass.Enrolled roll

/-- The object stands on the roll under its number, and so do its classes. -/
def Value.Enrolled (roll : List Value) : Value → Prop
  | cls c => c.Enrolled roll
  | inst object =>
    roll[object.id]? = some (.inst object) ∧ object.cls.Enrolled roll
  | _ => True

/-- The class that is called stands on the roll. -/
def Callable.Enrolled (roll : List Value) : Callable → Prop
  | cls c => c.Enrolled roll
  | _ => True

/-- The returned value is enrolled, if there is one. -/
def Completion.Enrolled (roll : List Value) : Completion → Prop
  | normal => True
  | returned v => v.Enrolled roll

section

variable {roll : List Value} {c d : Class} {v w : Value}

theorem Value.IsPlain.enrolled (h : v.IsPlain) : v.Enrolled roll := by
  cases v <;> trivial

theorem Value.Enrolled.callable? {callee : Callable} (h : v.Enrolled roll)
    (hv : v.callable? = some callee) : callee.Enrolled roll := by
  cases v with
  | cls c =>
    cases hv
    exact h
  | _ => cases hv <;> trivial

namespace Class.Enrolled

theorem entry (h : c.Enrolled roll) : roll[c.id]? = some (.cls c) := by
  cases c with
  | base info => exact h
  | derived info superclass => exact h.1

theorem ancestor (h : c.Enrolled roll) (hd : d ∈ c.lineage) :
    d.Enrolled roll := by
  induction c with
  | base info =>
    rw [List.mem_singleton.1 hd]
    exact h
  | derived info superclass ih =>
    rcases List.mem_cons.1 hd with rfl | hd
    · exact h
    · exact ih h.2.2 hd

/-- The numbers fall along the lineage of a class. -/
theorem falls (h : c.Enrolled roll) :
    c.lineage.Pairwise fun d e => e.id < d.id := by
  induction c with
  | base info => exact List.pairwise_singleton _ _
  | derived info superclass ih =>
    obtain ⟨-, hlt, hsuperclass⟩ := h
    have hfalls := ih hsuperclass
    refine List.pairwise_cons.2 ⟨fun e he => ?_, hfalls⟩
    -- The superclass is the first of its own lineage.
    have hle : e.id ≤ superclass.id := by
      cases superclass with
      | base info => exact Nat.le_of_eq (by rw [List.mem_singleton.1 he])
      | derived info superclass =>
        rcases List.mem_cons.1 he with rfl | he
        · exact Nat.le_refl _
        · exact Nat.le_of_lt ((List.pairwise_cons.1 hfalls).1 e he)
    exact Nat.lt_of_le_of_lt hle hlt

/-- There are at most as many classes in it as numbers up to its own. -/
theorem length_lineage (h : c.Enrolled roll) : c.lineage.length ≤ c.id + 1 := by
  induction c with
  | base info => exact Nat.le_add_left 1 _
  | derived info superclass ih =>
    obtain ⟨-, hlt, hsuperclass⟩ := h
    exact Nat.succ_le_succ (Nat.le_trans (ih hsuperclass) hlt)

end Class.Enrolled

/-- What stands on the roll stays there when the roll gets longer. -/
theorem getElem?_longer {i : Nat} (more : List Value) (h : roll[i]? = some v) :
    (roll ++ more)[i]? = some v := by
  rw [List.getElem?_append_left (List.getElem?_eq_some_iff.1 h).1, h]

theorem Class.Enrolled.longer (h : c.Enrolled roll) (more : List Value) :
    c.Enrolled (roll ++ more) := by
  induction c with
  | base info => exact getElem?_longer more h
  | derived info superclass ih =>
    exact ⟨getElem?_longer more h.1, h.2.1, ih h.2.2⟩

theorem Value.Enrolled.longer (h : v.Enrolled roll) (more : List Value) :
    v.Enrolled (roll ++ more) := by
  cases v with
  | cls c => exact Class.Enrolled.longer h more
  | inst object => exact ⟨getElem?_longer more h.1, h.2.longer more⟩
  | _ => trivial

theorem Callable.Enrolled.longer {callee : Callable}
    (h : callee.Enrolled roll) (more : List Value) :
    callee.Enrolled (roll ++ more) := by
  cases callee with
  | cls c => exact Class.Enrolled.longer h more
  | _ => trivial

theorem Value.Enrolled.part (h : v.Enrolled roll) (hw : w ∈ v.parts) :
    w.Enrolled roll :=
  of_mem_parts (P := Enrolled roll) (fun _ hobject => hobject.2)
    (fun _ _ hd hc => Class.Enrolled.ancestor hc hd) hw h

end

namespace Machine

/-! ## Machines -/

/-- The values that the construct holds are enrolled. -/
def Pending.Enrolled (roll : List Value) : Pending → Prop
  | binaryRight left _ _ => left.Enrolled roll
  | argument called _ earlier _ =>
    called.Enrolled roll ∧ ∀ v ∈ earlier, v.Enrolled roll
  | construct object => (Value.inst object).Enrolled roll
  | _ => True

/-- The value that is handed on is enrolled. -/
def Control.Enrolled (roll : List Value) : Control → Prop
  | value v => v.Enrolled roll
  | completed c => c.Enrolled roll
  | _ => True

/-- What waits below a construct that is taken up is enrolled, and the roll has
the objects of the store. -/
structure Attends (roll : List Value) (stack : List Pending) (st : State) :
    Prop where
  stack : ∀ pending ∈ stack, pending.Enrolled roll
  store : st.store.All (Value.Enrolled roll)
  count : st.store.nextObject = roll.length

/-- All that the machine has at hand is enrolled, and the roll has the objects
of its store. -/
structure Enrolled (roll : List Value) (m : Machine) : Prop
    extends Attends roll m.stack m.state where
  control : m.control.Enrolled roll

/-- The next step makes this object, if it makes one: the class of a class
statement, or an instance of the class that it calls. -/
inductive Creates (set : Setting) (m : Machine) : Value → Prop where
  | declared {declaration : ClassDecl} {c : Class}
      (declares : Declares m declaration c) : Creates set m (.cls c)
  | constructed {call : Call} {c : Class}
      (calls : nextCall? set m = some call) (callee : call.callee = .cls c) :
      Creates set m (.inst ⟨m.state.store.nextObject, c⟩)

/-- The machine after an operation is enrolled, with at most one object more on
the roll, which is one that can have been made. -/
def Advances (roll : List Value) (made : Value → Prop) (m : Machine) : Prop :=
  Enrolled roll m ∨ ∃ v, made v ∧ Enrolled (roll ++ [v]) m

section

variable {set : Setting} {roll : List Value} {stack : List Pending} {st : State}

theorem Pending.Enrolled.longer {pending : Pending}
    (h : pending.Enrolled roll) (more : List Value) :
    pending.Enrolled (roll ++ more) := by
  cases pending with
  | binaryRight => exact Value.Enrolled.longer h more
  | argument =>
    exact ⟨h.1.longer more, fun v hv => (h.2 v hv).longer more⟩
  | construct => exact Value.Enrolled.longer (v := .inst _) h more
  | _ => trivial

namespace Attends

/-- The same in another state with as many objects. -/
theorem move (h : Attends roll stack st) (st' : State)
    (hstore : st'.store.All (Value.Enrolled roll))
    (hcount : st'.store.fields.size = st.store.fields.size) :
    Attends roll stack st' :=
  ⟨h.stack, hstore, hcount.trans h.count⟩

theorem push (h : Attends roll stack st) (pending : Pending)
    (hpending : pending.Enrolled roll) : Attends roll (pending :: stack) st :=
  ⟨List.forall_mem_cons.2 ⟨hpending, h.stack⟩, h.store, h.count⟩

theorem pop {pending : Pending} (h : Attends roll (pending :: stack) st) :
    Attends roll stack st :=
  ⟨(List.forall_mem_cons.1 h.stack).2, h.store, h.count⟩

/-- One object is added, and the roll gets longer by one. -/
theorem add (h : Attends roll stack st) (v : Value) :
    Attends (roll ++ [v]) stack { st with store := st.store.addObject } where
  stack := fun pending hp => (h.stack pending hp).longer [v]
  store := h.store.addObject.mono fun _ hv => hv.longer [v]
  count := by
    have hcount := h.count
    simp only [Store.nextObject, Store.addObject, Array.size_push,
      List.length_append, List.length_singleton] at hcount ⊢
    rw [hcount]

/-- The number of the next object is that of the next place on the roll. -/
theorem next (h : Attends roll stack st) (v : Value) :
    (roll ++ [v])[st.store.nextObject]? = some v := by
  rw [h.count, List.getElem?_concat_length]

theorem eval (h : Attends roll stack st) (e : Expr) :
    Enrolled roll ⟨.eval e, stack, st⟩ :=
  ⟨h, trivial⟩

theorem exec (h : Attends roll stack st) (s : Stmt) :
    Enrolled roll ⟨.exec s, stack, st⟩ :=
  ⟨h, trivial⟩

theorem value (h : Attends roll stack st) {v : Value} (hv : v.Enrolled roll) :
    Enrolled roll ⟨.value v, stack, st⟩ :=
  ⟨h, hv⟩

theorem completed (h : Attends roll stack st) {c : Completion}
    (hc : c.Enrolled roll) : Enrolled roll ⟨.completed c, stack, st⟩ :=
  ⟨h, hc⟩

theorem failed (h : Attends roll stack st) (f : Failure) :
    Enrolled roll ⟨.failed f, stack, st⟩ :=
  ⟨h, trivial⟩

theorem stuck (h : Attends roll stack st) : Enrolled roll ⟨.stuck, stack, st⟩ :=
  ⟨h, trivial⟩

theorem deliver (h : Attends roll stack st) {result : Except Failure Value}
    (hok : ∀ v, result = .ok v → v.Enrolled roll) :
    Enrolled roll (Machine.deliver result stack st) := by
  cases result with
  | ok v => exact h.value (hok v rfl)
  | error f => exact h.failed f

/-- A variable of the current frame gets a value. -/
theorem defineHere (h : Attends roll stack st) (name : String) {v : Value}
    (hv : v.Enrolled roll) : Attends roll stack (Machine.defineHere st name v) :=
  h.move _ (h.store.define st.frame name hv) rfl

end Attends

/-! ## Calls -/

theorem enrolled_enterBody (h : Attends roll stack st) (f : Closure)
    {arguments : List Value} (harguments : ∀ v ∈ arguments, v.Enrolled roll)
    (line : Nat) : Enrolled roll (enterBody f arguments line stack st) := by
  have hframed := h.store.addFrame (some f.frame)
    (Table.forall_insertAll (f.declaration.params.map Ident.name) harguments)
  have hthere := h.move ⟨_, st.sink, st.store.nextFrame, st.depth⟩ hframed rfl
  have hwaits := hthere.push (.body f line) trivial
  have hblock := hwaits.push (.block f.declaration.body st.frame) trivial
  exact hblock.completed trivial

/-- The instance is the one new object of the call of its class. -/
theorem enrolled_construct (h : Attends roll stack st) {c : Class}
    (hc : c.Enrolled roll) {arguments : List Value}
    (harguments : ∀ v ∈ arguments, v.Enrolled roll) (line : Nat) :
    Enrolled (roll ++ [.inst ⟨st.store.nextObject, c⟩])
      (construct c arguments line stack st) := by
  have hobject : (Value.inst ⟨st.store.nextObject, c⟩).Enrolled
      (roll ++ [.inst ⟨st.store.nextObject, c⟩]) := ⟨h.next _, hc.longer _⟩
  have hadded := h.add (.inst ⟨st.store.nextObject, c⟩)
  simp only [construct]
  cases c.findMethod? initializerName with
  | none => exact hadded.value hobject
  | some method =>
    have hbind := hadded.move { st with store :=
      (st.store.addObject.bindMethod method (.inst ⟨st.store.nextObject, c⟩)).1 }
      (hadded.store.bindMethod method hobject) rfl
    have hwaits := hbind.push (.construct ⟨st.store.nextObject, c⟩) hobject
    exact enrolled_enterBody hwaits _
      (fun v hv => (harguments v hv).longer _) line

theorem enrolled_invoke (h : Attends roll stack st)
    (hset : set.All Behaviour.Honest) {callee : Callable}
    (hcallee : callee.Enrolled roll) {arguments : List Value}
    (harguments : ∀ v ∈ arguments, v.Enrolled roll) (line : Nat) :
    Advances roll (fun v => ∃ c, callee = .cls c ∧
        v = .inst ⟨st.store.nextObject, c⟩)
      (invoke set callee arguments line stack st) := by
  have hdeeper := h.move { st with depth := st.depth + 1 } h.store rfl
  have hwaits := hdeeper.push .invocation trivial
  simp only [invoke]
  split
  · exact .inl (h.failed _)
  · split
    · exact .inl (h.failed _)
    · cases callee with
      | closure f => exact .inl (enrolled_enterBody hwaits f harguments line)
      | cls c =>
        exact .inr ⟨_, ⟨c, rfl, rfl⟩, enrolled_construct hwaits hcallee harguments line⟩
      | native function =>
        refine .inl ?_
        simp only [enter]
        split
        · exact hwaits.stuck
        · next behaviour hbehaviour =>
          split
          · next v hv =>
            rcases hset _ _ hbehaviour set.now arguments v hv with
              hplain | ⟨a, ha, hpart⟩
            · exact hwaits.value hplain.enrolled
            · exact hwaits.value ((harguments a ha).part hpart)
          · exact hwaits.failed _

theorem enrolled_settle (h : Attends roll stack st)
    (hset : set.All Behaviour.Honest) {v : Value} (hv : v.Enrolled roll)
    (line : Nat) : Enrolled roll (settle set v line stack st) := by
  cases v with
  | function f =>
    simp only [settle]
    split
    · -- A getter is a function, so that no instance is made.
      have hcallee : (Callable.closure f).Enrolled roll := trivial
      rcases enrolled_invoke h hset hcallee (List.forall_mem_nil _) line with
        hsame | ⟨v, ⟨c, hclass, -⟩, -⟩
      · exact hsame
      · cases hclass
    · exact h.value hv
  | _ => exact h.value hv

theorem enrolled_passArguments (h : Attends roll stack st)
    (hset : set.All Behaviour.Honest) {callee : Callable}
    (hcallee : callee.Enrolled roll) (line : Nat) {earlier : List Value}
    (hearlier : ∀ v ∈ earlier, v.Enrolled roll) (later : List Expr) :
    Advances roll (fun v => ∃ call c,
        argumentsCall? callee line earlier later stack st = some call ∧
          call.callee = .cls c ∧ v = .inst ⟨st.store.nextObject, c⟩)
      (passArguments set callee line earlier later stack st) := by
  cases later with
  | nil =>
    have hreverse : ∀ v ∈ earlier.reverse, v.Enrolled roll :=
      fun v hv => hearlier v (List.mem_reverse.1 hv)
    rcases enrolled_invoke h hset hcallee hreverse line with
      hsame | ⟨v, ⟨c, hclass, rfl⟩, hmade⟩
    · exact .inl hsame
    · exact .inr ⟨_, ⟨_, c, rfl, hclass, rfl⟩, hmade⟩
  | cons e later =>
    exact .inl ((h.push (.argument callee line earlier later)
      ⟨hcallee, hearlier⟩).eval e)

/-! ## Properties and classes -/

/-- A member is bound and handed on. -/
theorem enrolled_bound (h : Attends roll stack st)
    (hset : set.All Behaviour.Honest) (method : Closure) {object : Value}
    (hobject : object.Enrolled roll) (line : Nat) :
    Enrolled roll (settle set (.function (st.store.bindMethod method object).2)
      line stack { st with store := (st.store.bindMethod method object).1 }) := by
  have hbind := h.move
    { st with store := (st.store.bindMethod method object).1 }
    (h.store.bindMethod method hobject) rfl
  exact enrolled_settle (v := .function _) hbind hset trivial line

theorem enrolled_readProperty (h : Attends roll stack st)
    (hset : set.All Behaviour.Honest) {object : Value}
    (hobject : object.Enrolled roll) (id : ObjectId)
    (method? : String → Option Closure) (owner : String) (name : Ident) :
    Enrolled roll (readProperty set object id method? owner name stack st) := by
  simp only [readProperty]
  split
  · next v hfield =>
    exact enrolled_settle h hset (h.store.fields _ _ v hfield) name.line
  · split
    · next method _ => exact enrolled_bound h hset method hobject name.line
    · exact h.failed _

theorem enrolled_getProperty (h : Attends roll stack st)
    (hset : set.All Behaviour.Honest) {object : Value}
    (hobject : object.Enrolled roll) (name : Ident) :
    Enrolled roll (getProperty set object name stack st) := by
  cases object with
  | inst | cls =>
    simp only [getProperty]
    exact enrolled_readProperty h hset hobject _ _ _ name
  | _ => exact h.failed _

theorem enrolled_getSuper (h : Attends roll stack st)
    (hset : set.All Behaviour.Honest) (id line : Nat) (method : Ident) :
    Enrolled roll (getSuper set id line method stack st) := by
  simp only [getSuper]
  split
  · exact h.failed _
  · next distance _ =>
    split
    · exact h.failed _
    · cases distance with
      | zero => exact h.failed _
      | succ inner =>
        simp only [bindSuper]
        split
        · exact h.failed _
        · next object hobject =>
          split
          · exact h.failed _
          · next f _ =>
            exact enrolled_bound h hset f (h.store.readAt hobject) method.line
    · exact h.failed _

/-- The class is the one new object of its declaration. -/
theorem enrolled_nameClass {store : Store}
    (h : Attends roll stack { st with store := store }) (name : Ident) {c : Class}
    (hc : c.Enrolled (roll ++ [.cls c])) :
    Advances roll (· = .cls c) (nameClass name c store stack st) := by
  unfold nameClass
  split
  · next owner howner =>
    have hadded := h.add (.cls c)
    have hclass : (Value.cls c).Enrolled (roll ++ [.cls c]) := hc
    have hnamed := hadded.move
      { st with store := store.addObject.define owner name.name (.cls c) }
      (hadded.store.define owner name.name hclass) rfl
    exact .inr ⟨_, rfl, hnamed.completed trivial⟩
  · exact .inl (h.failed _)

/-- Making members makes no objects. -/
theorem Attends.members {store : Store}
    (h : Attends roll stack { st with store := store }) (frame : FrameId)
    (list : List FunctionDecl) (members : Members) :
    Attends roll stack
      { st with store := (makeMembers frame list members store).2 } :=
  h.move _ (h.store.makeMembers frame list members)
    (congrArg Array.size (fields_makeMembers frame list members store))

theorem enrolled_makeBase (h : Attends roll stack st)
    (declaration : ClassDecl) :
    Advances roll (· = .cls (.base (infoOf declaration
        (makeMembers st.frame declaration.methods ⟨.empty, .empty⟩ st.store))))
      (makeClass declaration none stack st) := by
  rw [makeClass_base]
  have hmembers := h.members st.frame declaration.methods ⟨.empty, .empty⟩
  exact enrolled_nameClass hmembers declaration.name (hmembers.next _)

theorem enrolled_makeDerived (h : Attends roll stack st)
    (declaration : ClassDecl) {parent : Class} (hparent : parent.Enrolled roll) :
    Advances roll (· = .cls (.derived (infoOf declaration
        (makeMembers st.store.nextFrame declaration.methods ⟨.empty, .empty⟩
          (superStore parent st))) parent))
      (makeClass declaration (some parent) stack st) := by
  rw [makeClass_derived]
  have hsuper : (superStore parent st).All (Value.Enrolled roll) :=
    h.store.addFrame _ (Table.forall_single (P := Value.Enrolled roll) _ hparent)
  have hthere := h.move { st with store := superStore parent st } hsuper rfl
  have hmembers := hthere.members st.store.nextFrame declaration.methods
    ⟨.empty, .empty⟩
  have hlt : parent.id < roll.length :=
    (List.getElem?_eq_some_iff.1 hparent.entry).1
  refine enrolled_nameClass hmembers declaration.name
    ⟨hmembers.next _, ?_, hparent.longer _⟩
  exact Nat.lt_of_lt_of_eq hlt hmembers.count.symm

/-! ## Steps -/

theorem enrolled_lookUp (h : st.store.All (Value.Enrolled roll)) {id line : Nat}
    {name : String} {v : Value} (hv : lookUp set st id name line = .ok v) :
    v.Enrolled roll := by
  unfold lookUp at hv
  split at hv
  · exact h.readAt hv
  · exact h.read hv

theorem enrolled_evaluate (h : Attends roll stack st)
    (hset : set.All Behaviour.Honest) (e : Expr) :
    Enrolled roll (evaluate set e stack st) := by
  cases e with
  | literal value => exact h.value (Value.isData_ofLiteral value).isPlain.enrolled
  | «variable» | this => exact h.deliver fun v hv => enrolled_lookUp h.store hv
  | super id line method => exact enrolled_getSuper h hset id line method
  | group inner => exact h.eval inner
  | _ => exact (h.push _ (by trivial)).eval _

theorem enrolled_execute (h : Attends roll stack st) (s : Stmt) :
    Advances roll (Creates set ⟨.exec s, stack, st⟩) (execute s stack st) := by
  cases s with
  | expression | print | ifElse | «while» =>
    exact .inl ((h.push _ (by trivial)).eval _)
  | var name initializer =>
    cases initializer with
    | none =>
      exact .inl ((h.defineHere name.name (v := .nil) trivial).completed trivial)
    | some e => exact .inl ((h.push _ (by trivial)).eval e)
  | block body =>
    have hframed : (st.store.addFrame (some st.frame) .empty).All
        (Value.Enrolled roll) :=
      h.store.addFrame (some st.frame) (by rintro _ _ ⟨⟩)
    have hthere := h.move ⟨_, st.sink, st.store.nextFrame, st.depth⟩ hframed rfl
    exact .inl ((hthere.push (.block body st.frame) trivial).completed trivial)
  | function f =>
    have hmade := h.move { st with store := (st.store.makeClosure f st.frame).1 }
      (h.store.makeClosure f st.frame) rfl
    exact .inl ((hmade.defineHere f.name.name (v := .function _)
      trivial).completed trivial)
  | «return» line value =>
    cases value with
    | none => exact .inl (h.completed (c := .returned .nil) trivial)
    | some e => exact .inl ((h.push .giveBack trivial).eval e)
  | «class» declaration =>
    have hnamed := h.defineHere declaration.name.name (v := .nil) trivial
    simp only [execute]
    split
    · next hnone =>
      rcases enrolled_makeBase hnamed declaration with hsame | ⟨v, rfl, hmade⟩
      · exact .inl hsame
      · exact .inr ⟨_, .declared (.base rfl hnone), hmade⟩
    · exact .inl ((hnamed.push (.superclass declaration _) trivial).eval _)

theorem enrolled_resume {pending : Pending} {v : Value}
    (h : Attends roll (pending :: stack) st)
    (hset : set.All Behaviour.Honest) (hv : v.Enrolled roll) :
    Advances roll (Creates set ⟨.value v, pending :: stack, st⟩)
      (resume set v pending stack st) := by
  have hpending := h.stack pending List.mem_cons_self
  replace h := h.pop
  cases pending with
  | loopBody | block | body | program => exact .inl h.stuck
  | unary =>
    exact .inl (h.deliver fun w hw => (UnaryOp.isData_apply hw).isPlain.enrolled)
  | binaryRight =>
    exact .inl (h.deliver fun w hw => (BinaryOp.isData_apply hw).isPlain.enrolled)
  | binaryLeft op line right =>
    exact .inl ((h.push (.binaryRight v op line) hv).eval right)
  | logical op right =>
    simp only [resume]
    split
    · exact .inl (h.value hv)
    · exact .inl (h.eval right)
  | assign target =>
    simp only [resume, assign]
    split
    · next owner howner =>
      exact .inl ((h.move
        { st with store := st.store.define owner target.name v }
        (h.store.define owner target.name hv) rfl).value hv)
    · exact .inl (h.failed _)
  | callee line arguments =>
    simp only [resume]
    split
    · next hcallee =>
      rcases enrolled_passArguments h hset (hv.callable? hcallee) line
        (List.forall_mem_nil _) arguments with
        hsame | ⟨w, ⟨call, c, hcall, hclass, rfl⟩, hmade⟩
      · exact .inl hsame
      · refine .inr ⟨_, .constructed ?_ hclass, hmade⟩
        simp only [nextCall?, resumeCall?, hcallee, hcall]
    · exact .inl (h.failed _)
  | argument callee line earlier later =>
    rcases enrolled_passArguments h hset hpending.1 line
      (List.forall_mem_cons.2 ⟨hv, hpending.2⟩) later with
      hsame | ⟨w, ⟨call, c, hcall, hclass, rfl⟩, hmade⟩
    · exact .inl hsame
    · exact .inr ⟨_, .constructed hcall hclass, hmade⟩
  | get name => exact .inl (enrolled_getProperty h hset hv name)
  | setObject name value =>
    simp only [resume]
    split
    · exact .inl ((h.push (.setValue _ name.name) trivial).eval value)
    · exact .inl (h.failed _)
  | setValue object name =>
    have hcount : (st.store.setField object name v).fields.size =
        st.store.fields.size := Array.size_modify ..
    exact .inl ((h.move { st with store := st.store.setField object name v }
      (h.store.setField object name hv) hcount).value hv)
  | construct object => exact .inl (h.value (v := .inst object) hpending)
  | invocation =>
    exact .inl ((h.move { st with depth := st.depth - 1 } h.store rfl).value hv)
  | discard => exact .inl (h.completed trivial)
  | print =>
    have hprinted := h.move
      { st with sink := (st.sink.writeLine v.display).1 } h.store rfl
    simp only [resume, printValue]
    split
    · exact .inl (hprinted.completed trivial)
    · exact .inl (hprinted.failed _)
  | define name => exact .inl ((h.defineHere name hv).completed trivial)
  | branch thenBranch elseBranch =>
    simp only [resume]
    split
    · exact .inl (h.exec thenBranch)
    · cases elseBranch with
      | none => exact .inl (h.completed trivial)
      | some s => exact .inl (h.exec s)
  | loopTest condition inner =>
    simp only [resume]
    split
    · exact .inl ((h.push (.loopBody condition inner) trivial).exec inner)
    · exact .inl (h.completed trivial)
  | giveBack => exact .inl (h.completed (c := .returned v) hv)
  | superclass declaration line =>
    cases v with
    | cls parent =>
      rcases enrolled_makeDerived h declaration hv with hsame | ⟨v, rfl, hmade⟩
      · exact .inl hsame
      · exact .inr ⟨_, .declared (.derived rfl rfl), hmade⟩
    | _ => exact .inl (h.failed _)

theorem enrolled_resultOf {store : Store}
    (h : store.All (Value.Enrolled roll)) {f : Closure} {line : Nat}
    {c : Completion} (hc : c.Enrolled roll) {v : Value}
    (hv : resultOf f line c store = .ok v) : v.Enrolled roll := by
  unfold resultOf at hv
  split at hv
  · exact h.readAt hv
  · cases c with
    | normal =>
      cases hv
      trivial
    | returned w =>
      cases hv
      exact hc

theorem enrolled_complete {pending : Pending} {c : Completion}
    (h : Attends roll (pending :: stack) st) (hc : c.Enrolled roll) :
    Enrolled roll (complete c pending stack st) := by
  replace h := h.pop
  cases pending with
  | loopBody condition inner =>
    cases c with
    | normal => exact (h.push (.loopTest condition inner) trivial).eval condition
    | returned v => exact h.completed hc
  | block later saved =>
    have hback := h.move { st with frame := saved } h.store rfl
    cases c with
    | returned v => exact hback.completed hc
    | normal =>
      cases later with
      | nil => exact hback.completed hc
      | cons s later => exact (h.push (.block later saved) trivial).exec s
  | body f line => exact h.deliver fun v hv => enrolled_resultOf h.store hc hv
  | program later =>
    cases c with
    | returned v => exact h.completed hc
    | normal =>
      cases later with
      | nil => exact h.completed hc
      | cons s later => exact (h.push (.program later) trivial).exec s
  | _ => exact h.stuck

/-- A step puts at most one object on the roll, which is the one it makes. -/
theorem enrolled_step {m : Machine} (h : Enrolled roll m)
    (hset : set.All Behaviour.Honest) :
    Advances roll (Creates set m) (step set m) := by
  obtain ⟨control, stack, st⟩ := m
  obtain ⟨hattends, hcontrol⟩ := h
  cases control with
  | eval e => exact .inl (enrolled_evaluate hattends hset e)
  | exec s => exact enrolled_execute hattends s
  | value v =>
    cases stack with
    | nil => exact .inl ⟨hattends, hcontrol⟩
    | cons pending stack => exact enrolled_resume hattends hset hcontrol
  | completed c =>
    cases stack with
    | nil => exact .inl ⟨hattends, hcontrol⟩
    | cons pending stack => exact .inl (enrolled_complete hattends hcontrol)
  | failed f =>
    cases stack with
    | nil => exact .inl ⟨hattends, hcontrol⟩
    | cons pending stack =>
      have hunwind : (unwind pending st).store = st.store := by
        cases pending <;> rfl
      have hrest := hattends.pop
      exact .inl ⟨⟨hrest.stack, hunwind ▸ hrest.store, hunwind ▸ hrest.count⟩,
        trivial⟩
  | stuck => exact .inl ⟨hattends, trivial⟩

end

end Machine

end Lox
