import Lox.Proofs.Machine.Lookup
import Lox.Proofs.Store.Receivers

/-!
# Receivers of a running machine

The second invariant of a run is about receivers.  In a seated machine the code
under way, the code that waits on the stack and all code in the store find the
frame of their receiver at the distance of their seat (`Seated`).  A step keeps
a machine seated as long as it gives no value to `this` and `super`
(`seated_step`), and a safe machine gives none (`unreserved_of_safe`).

So a method that is reached through `super` is bound to a value that descends
from the class it is searched in (`binds_of_seated`).
-/

namespace Lox

open Store (Sustains)

/-- The code of the callee is seated. -/
def Callable.Seated (strict : Bool) (L : Ledger) (s : Store) : Callable → Prop
  | native _ => True
  | closure f => f.Seated strict L s
  | cls c => c.Seated strict L s

/-- The returned value is seated, if there is one. -/
def Completion.Seated (strict : Bool) (L : Ledger) (s : Store) :
    Completion → Prop
  | normal => True
  | returned v => v.Seated strict L s

theorem Value.IsPlain.seated {strict : Bool} {L : Ledger} {s : Store}
    {v : Value} (h : v.IsPlain) : v.Seated strict L s := by
  cases v <;> trivial

theorem Value.Seated.callable? {strict : Bool} {L : Ledger} {s : Store}
    {v : Value} {callee : Callable} (h : v.Seated strict L s)
    (hv : v.callable? = some callee) : callee.Seated strict L s := by
  cases v <;> cases hv <;> exact h

theorem Callable.Seated.sustain {strict : Bool} {L : Ledger} {s s' : Store}
    {callee : Callable} (h : callee.Seated strict L s) (hs : Sustains s s') :
    callee.Seated strict L s' := by
  cases callee with
  | native => trivial
  | closure f => exact Closure.Seated.mono h hs (.refl L)
  | cls c => exact Class.Seated.mono h hs (.refl L)

namespace Machine

/-! ## What waits -/

/-- The expressions that the construct still evaluates, with their seats. -/
def Pending.seats (strict : Bool) :
    Pending → Option Nat → List (Expr × Option Nat)
  | .binaryLeft _ _ right, seat => [(right, seat)]
  | .logical _ right, seat => [(right, seat)]
  | .callee _ arguments, seat => arguments.map (·, seat)
  | .argument _ _ _ later, seat => later.map (·, seat)
  | .setObject _ value, seat => [(value, seat)]
  | .branch thenBranch elseBranch, seat =>
    thenBranch.seats strict seat ++ Stmt.seatsAll strict elseBranch.toList seat
  | .loopTest condition inner, seat | .loopBody condition inner, seat =>
    (condition, seat) :: inner.seats strict seat
  | .superclass declaration _, _ =>
    FunctionDecl.memberSeats strict declaration.methods (some 0)
  | .block later _, seat | .program later, seat =>
    Stmt.seatsAll strict later seat
  | _, _ => []

/-- The values that the construct hands on later are seated. -/
def Pending.Holds (strict : Bool) (L : Ledger) (s : Store) : Pending → Prop
  | .argument c _ earlier _ =>
    c.Seated strict L s ∧ ∀ v ∈ earlier, v.Seated strict L s
  | .construct object => object.cls.Seated strict L s
  | _ => True

/-- Whether the construct is a block, which goes back to another frame. -/
def Pending.isBlock : Pending → Bool
  | .block _ _ => true
  | _ => false

/-- The seat of what waits behind the construct.  Behind a block it is that of
the frame the block goes back to. -/
def Pending.Behind (strict : Bool) (s : Store) :
    Pending → Option Nat → Option Nat → Prop
  | .block _ saved, _, outer => s.Seat strict saved outer
  | _, seat, outer => outer = seat

/-- All code that waits on the stack is seated. -/
def Queued (strict : Bool) (L : Ledger) (s : Store) :
    List Pending → Option Nat → Prop
  | [], _ => True
  | pending :: rest, seat =>
    SeatedAt L (pending.seats strict seat) ∧ pending.Holds strict L s ∧
      ∃ outer, pending.Behind strict s seat outer ∧
        Queued strict L s rest outer

theorem Queued.sustain {strict : Bool} {L : Ledger} {s s' : Store}
    {stack : List Pending} {seat : Option Nat}
    (h : Queued strict L s stack seat) (hs : Sustains s s') :
    Queued strict L s' stack seat := by
  induction stack generalizing seat with
  | nil => trivial
  | cons pending rest ih =>
    obtain ⟨hcode, hholds, outer, hbehind, hrest⟩ := h
    refine ⟨hcode, ?_, outer, ?_, ih hrest⟩
    · cases pending with
      | argument callee line earlier later =>
        exact ⟨hholds.1.sustain hs, fun v hv => (hholds.2 v hv).sustain hs⟩
      | construct object => exact Class.Seated.mono hholds hs (.refl L)
      | _ => trivial
    · cases pending with
      | block later saved => exact Store.Seat.sustain hbehind hs
      | _ => exact hbehind

/-! ## Seated machines -/

/-- What is done next is seated in the current frame, and so is what waits. -/
def Control.Seated (strict : Bool) (L : Ledger) (stack : List Pending)
    (st : State) : Control → Prop
  | eval e => ∃ seat, st.store.Seat strict st.frame seat ∧ e.Seated L seat ∧
      Queued strict L st.store stack seat
  | exec s => ∃ seat, st.store.Seat strict st.frame seat ∧
      SeatedAt L (s.seats strict seat) ∧ Queued strict L st.store stack seat
  | value v => ∃ seat, st.store.Seat strict st.frame seat ∧
      v.Seated strict L st.store ∧ Queued strict L st.store stack seat
  | completed c => ∃ seat, st.store.Seat strict st.frame seat ∧
      c.Seated strict L st.store ∧ Queued strict L st.store stack seat
  | failed _ => True
  | stuck => True

/-- All code that the machine can still run is seated. -/
structure Seated (strict : Bool) (L : Ledger) (m : Machine) : Prop where
  store : m.state.store.Seated strict L
  control : m.control.Seated strict L m.stack m.state

/-- A seated machine between two steps, apart from its control. -/
structure Stays (strict : Bool) (L : Ledger) (stack : List Pending)
    (st : State) (seat : Option Nat) : Prop where
  store : st.store.Seated strict L
  placed : st.store.Seat strict st.frame seat
  queued : Queued strict L st.store stack seat

section

variable {strict : Bool} {L : Ledger} {set : Setting} {stack : List Pending}
  {st : State} {seat : Option Nat}

namespace Stays

theorem value (h : Stays strict L stack st seat) {v : Value}
    (hv : v.Seated strict L st.store) : Seated strict L ⟨.value v, stack, st⟩ :=
  ⟨h.store, seat, h.placed, hv, h.queued⟩

theorem completed (h : Stays strict L stack st seat) {c : Completion}
    (hc : c.Seated strict L st.store) :
    Seated strict L ⟨.completed c, stack, st⟩ :=
  ⟨h.store, seat, h.placed, hc, h.queued⟩

theorem eval (h : Stays strict L stack st seat) {e : Expr}
    (he : e.Seated L seat) : Seated strict L ⟨.eval e, stack, st⟩ :=
  ⟨h.store, seat, h.placed, he, h.queued⟩

theorem exec (h : Stays strict L stack st seat) {s : Stmt}
    (hs : SeatedAt L (s.seats strict seat)) :
    Seated strict L ⟨.exec s, stack, st⟩ :=
  ⟨h.store, seat, h.placed, hs, h.queued⟩

theorem failed (h : Stays strict L stack st seat) (f : Failure) :
    Seated strict L ⟨.failed f, stack, st⟩ :=
  ⟨h.store, trivial⟩

theorem sustain (h : Stays strict L stack st seat) {s : Store}
    (hs : Sustains st.store s) (hseated : s.Seated strict L) :
    Stays strict L stack { st with store := s } seat :=
  ⟨hseated, h.placed.sustain hs, h.queued.sustain hs⟩

/-- A construct of the same frame that comes to wait. -/
theorem push (h : Stays strict L stack st seat) (pending : Pending)
    (hcode : SeatedAt L (pending.seats strict seat))
    (hholds : pending.Holds strict L st.store)
    (hbehind : pending.Behind strict st.store seat seat) :
    Stays strict L (pending :: stack) st seat :=
  ⟨h.store, h.placed, hcode, hholds, seat, hbehind, h.queued⟩

/-- A construct that stays in its frame is done. -/
theorem pop {pending : Pending} (h : Stays strict L (pending :: stack) st seat)
    (hpending : pending.isBlock = false) : Stays strict L stack st seat := by
  obtain ⟨hstore, hplaced, -, -, outer, hbehind, hqueued⟩ := h
  have houter : outer = seat := by
    cases pending with
    | block later saved => cases hpending
    | _ => exact hbehind
  exact ⟨hstore, hplaced, houter ▸ hqueued⟩

theorem deliver (h : Stays strict L stack st seat)
    {result : Except Failure Value}
    (hok : ∀ v, result = .ok v → v.Seated strict L st.store) :
    Seated strict L (Machine.deliver result stack st) := by
  cases result with
  | ok v => exact h.value (hok v rfl)
  | error f => exact h.failed f

end Stays

/-! ## Calls -/

theorem seated_enterBody (h : Stays strict L stack st seat) {f : Closure}
    (hf : f.Seated strict L st.store) {arguments : List Value}
    (harguments : ∀ v ∈ arguments, v.Seated strict L st.store) (line : Nat) :
    Seated strict L (enterBody f arguments line stack st) := by
  let names := f.declaration.params.map Ident.name
  let bindings := Table.empty.insertAll (names.zip arguments)
  let framed := st.store.addFrame (some f.frame) bindings
  obtain ⟨inner, hinner, hcode⟩ := hf
  have hframed : framed.Seated strict L := by
    refine h.store.addFrame _ ?_
    intro name v hv
    rcases Table.mem_of_find?_insertAll hv with hmem | hempty
    · obtain ⟨item, hitem, rfl⟩ := List.mem_map.1 hmem
      exact harguments _ (List.of_mem_zip hitem).2
    · cases hempty
  have hthere := h.sustain (.addFrame st.store (some f.frame) bindings) hframed
  rw [FunctionDecl.seats_eq] at hcode
  exact ⟨hframed, _, hinner.addFrame bindings, trivial, hcode, trivial, seat,
    hthere.placed, seatedAt_nil L, trivial, seat, rfl, hthere.queued⟩

theorem seated_construct (h : Stays strict L stack st seat) {c : Class}
    (hc : c.Seated strict L st.store) {arguments : List Value}
    (harguments : ∀ v ∈ arguments, v.Seated strict L st.store) (line : Nat) :
    Seated strict L (construct c arguments line stack st) := by
  have hadded : Sustains st.store st.store.addObject := .of_frames rfl
  have hthere := h.sustain hadded h.store.addObject
  have hclass := hc.mono hadded (.refl L)
  simp only [construct]
  cases hmethod : c.findMethod? initializerName with
  | none => exact hthere.value hclass
  | some method =>
    have hobject : (Value.inst ⟨st.store.nextObject, c⟩).Seated strict L
        st.store.addObject := hclass
    obtain ⟨hstore, hsustains, hbound⟩ := hthere.store.bindMethod
      (hclass.bindsTo hmethod st.store.nextObject) hobject
    have hbind := hthere.sustain hsustains hstore
    have hwaits := hbind.push (.construct ⟨st.store.nextObject, c⟩)
      (seatedAt_nil L) (hclass.mono hsustains (.refl L)) rfl
    refine seated_enterBody hwaits hbound ?_ line
    intro v hv
    exact ((harguments v hv).sustain hadded).sustain hsustains

theorem seated_enter (h : Stays strict L stack st seat) (hset : set.Suits L)
    {callee : Callable} (hcallee : callee.Seated strict L st.store)
    {arguments : List Value}
    (harguments : ∀ v ∈ arguments, v.Seated strict L st.store) (line : Nat) :
    Seated strict L (enter set callee arguments line stack st) := by
  cases callee with
  | closure f => exact seated_enterBody h hcallee harguments line
  | cls c => exact seated_construct h hcallee harguments line
  | native function =>
    simp only [enter]
    cases hbehaviour : set.natives[function.id]? with
    | none => exact ⟨h.store, trivial⟩
    | some behaviour =>
      have hclosed := (hset.faithful _ _ hbehaviour).closed set.now arguments
      simp only
      cases hresult : behaviour set.now arguments with
      | error message => exact h.failed _
      | ok v =>
        refine h.value ?_
        rcases hclosed v hresult with hplain | hmem
        · exact hplain.seated
        · exact harguments v hmem

theorem seated_invoke (h : Stays strict L stack st seat) (hset : set.Suits L)
    {callee : Callable} (hcallee : callee.Seated strict L st.store)
    {arguments : List Value}
    (harguments : ∀ v ∈ arguments, v.Seated strict L st.store) (line : Nat) :
    Seated strict L (invoke set callee arguments line stack st) := by
  simp only [invoke]
  split
  · exact h.failed _
  · split
    · exact h.failed _
    · have hwaits : Stays strict L (.invocation :: stack)
          { st with depth := st.depth + 1 } seat :=
        ⟨h.store, h.placed, seatedAt_nil L, trivial, seat, rfl, h.queued⟩
      exact seated_enter hwaits hset hcallee harguments line

theorem seated_settle (h : Stays strict L stack st seat) (hset : set.Suits L)
    {v : Value} (hv : v.Seated strict L st.store) (line : Nat) :
    Seated strict L (settle set v line stack st) := by
  cases v with
  | function f =>
    simp only [settle]
    split
    · have hcallee : (Callable.closure f).Seated strict L st.store := hv
      exact seated_invoke h hset hcallee (by simp) line
    · exact h.value hv
  | _ => exact h.value hv

theorem seatedAt_map {list : List Expr} :
    SeatedAt L (list.map (·, seat)) ↔ ∀ e ∈ list, e.Seated L seat :=
  List.forall_mem_map

theorem seated_passArguments (h : Stays strict L stack st seat)
    (hset : set.Suits L) {callee : Callable}
    (hcallee : callee.Seated strict L st.store) (line : Nat)
    {earlier : List Value}
    (hearlier : ∀ v ∈ earlier, v.Seated strict L st.store) {later : List Expr}
    (hlater : ∀ e ∈ later, e.Seated L seat) :
    Seated strict L (passArguments set callee line earlier later stack st) := by
  cases later with
  | nil =>
    refine seated_invoke h hset hcallee ?_ line
    intro v hv
    exact hearlier v (List.mem_reverse.1 hv)
  | cons e later =>
    obtain ⟨he, hlater⟩ := List.forall_mem_cons.1 hlater
    have hwaits := h.push (.argument callee line earlier later)
      (seatedAt_map.2 hlater) ⟨hcallee, hearlier⟩ rfl
    exact hwaits.eval he

/-! ## Properties and classes -/

/-- A member is bound and handed on. -/
theorem seated_bound (h : Stays strict L stack st seat) (hset : set.Suits L)
    {method : Closure} {object : Value}
    (hmethod : method.BindsTo strict L st.store object)
    (hobject : object.Seated strict L st.store) (line : Nat) :
    Seated strict L (settle set (.function (st.store.bindMethod method object).2)
      line stack { st with store := (st.store.bindMethod method object).1 }) := by
  obtain ⟨hstore, hsustains, hbound⟩ := h.store.bindMethod hmethod hobject
  have hfunction : (Value.function (st.store.bindMethod method object).2).Seated
      strict L (st.store.bindMethod method object).1 := hbound
  exact seated_settle (h.sustain hsustains hstore) hset hfunction line

theorem seated_readProperty (h : Stays strict L stack st seat)
    (hset : set.Suits L) {object : Value}
    (hobject : object.Seated strict L st.store) (id : ObjectId)
    {method? : String → Option Closure}
    (hmethod : ∀ name f, method? name = some f →
      f.BindsTo strict L st.store object) (owner : String) (name : Ident) :
    Seated strict L (readProperty set object id method? owner name stack st) := by
  simp only [readProperty]
  split
  · next v hfield =>
    exact seated_settle h hset (h.store.fields _ _ _ hfield) name.line
  · split
    · next method hfound =>
      exact seated_bound h hset (hmethod _ _ hfound) hobject name.line
    · exact h.failed _

theorem seated_getProperty (h : Stays strict L stack st seat)
    (hset : set.Suits L) {object : Value}
    (hobject : object.Seated strict L st.store) (name : Ident) :
    Seated strict L (getProperty set object name stack st) := by
  cases object with
  | inst o =>
    have hclass : o.cls.Seated strict L st.store := hobject
    exact seated_readProperty h hset hobject _
      (fun name f hf => hclass.bindsTo hf o.id) _ name
  | cls c =>
    have hclass : c.Seated strict L st.store := hobject
    exact seated_readProperty h hset hobject _
      (fun name f hf => hclass.findStatic? hf) _ name
  | _ => exact h.failed _

theorem seated_getSuper (h : Stays strict L stack st seat) (hset : set.Suits L)
    {id : Nat} (hid : L.Admits id seat) (line : Nat) (method : Ident) :
    Seated strict L (getSuper set id line method stack st) := by
  rcases hid with hnone | ⟨k, rfl, hrecords⟩
  · simp only [getSuper, hset.distances, hnone.find]
    exact h.failed _
  · obtain ⟨receiver, superclass, hthis, hsuper, hinherits⟩ := h.placed.found
    have hclass : superclass.Seated strict L st.store :=
      h.store.of_getAt? hsuper
    have hreceiver := h.store.of_getAt? hthis
    simp only [getSuper, hset.distances, hrecords.find, Store.readAt, hsuper,
      Store.orUndefined, bindSuper, hthis]
    split
    · exact h.failed _
    · next f hf =>
      exact seated_bound h hset (hclass.bindsTo_super hf hinherits) hreceiver
        method.line

/-- The members of a class, made one after the other in a frame that holds
`super` if the class has a superclass. -/
theorem seated_makeMembers {frame : FrameId} (base : Option Class)
    {store : Store} (hstore : store.Seated strict L)
    (hframe : store.Under frame base) {list : List FunctionDecl}
    (hlist : SeatedAt L
      (FunctionDecl.memberSeats strict list (base.map fun _ => 0)))
    {declaration : ClassDecl} {members : Members}
    (hmembers : (infoOf declaration (members, store)).Seated strict L store
      base) :
    let made := makeMembers frame list members store
    made.2.Seated strict L ∧ Sustains store made.2 ∧
      (infoOf declaration made).Seated strict L made.2 base := by
  induction list generalizing members store with
  | nil => exact ⟨hstore, .refl store, hmembers⟩
  | cons f rest ih =>
    rw [FunctionDecl.memberSeats, seatedAt_append] at hlist
    let next := (store.makeClosure f frame).1
    let closure : Closure := ⟨store.closures, f, frame⟩
    have hnext : Sustains store next := .of_frames rfl
    have hold := hmembers.mono hnext (.refl L)
    simp only [makeMembers]
    generalize hlater : (if f.kind = .static then _ else _ : Members) = later
    have hlater : (infoOf declaration (later, next)).Seated strict L next
        base := by
      rw [← hlater]
      by_cases hstatic : f.kind = .static
      · rw [if_pos hstatic]
        refine ⟨hold.methods, Table.forall_insert hold.statics _ ?_⟩
        have hcode := hlist.1
        cases strict with
        | true =>
          rw [FunctionDecl.seat, if_pos ⟨rfl, hstatic⟩] at hcode
          exact ⟨(hframe.sustain hnext).lt, hcode⟩
        | false =>
          rw [FunctionDecl.seat, if_neg (by simp)] at hcode
          exact ⟨hframe.sustain hnext, hcode⟩
      · rw [if_neg hstatic]
        have hcode := hlist.1
        rw [FunctionDecl.seat, if_neg fun h => hstatic h.2] at hcode
        exact ⟨Table.forall_insert hold.methods _ ⟨hframe.sustain hnext, hcode⟩,
          hold.statics⟩
    obtain ⟨hseated, hsustains, hmade⟩ := ih (hstore.makeClosure f frame)
      (hframe.sustain hnext) hlist.2 hlater
    exact ⟨hseated, hnext.trans hsustains, hmade⟩

/-- A class is given to its name. -/
theorem seated_nameClass {store : Store}
    (h : Stays strict L stack { st with store := store } seat) {name : Ident}
    (hname : Unreserved name.name) {c : Class} (hc : c.Seated strict L store) :
    Seated strict L (nameClass name c store stack st) := by
  unfold nameClass
  split
  · next owner howner =>
    have hadded : Sustains store store.addObject := .of_frames rfl
    have hdefined : Sustains store.addObject
        (store.addObject.define owner name.name (.cls c)) :=
      .define (.inl hname) _
    have hclass : (Value.cls c).Seated strict L store.addObject :=
      hc.mono hadded (.refl L)
    have hthere := h.sustain hadded h.store.addObject
    exact (hthere.sustain hdefined
      (hthere.store.define hdefined hclass)).completed trivial
  · exact h.failed _

theorem seated_makeClass (h : Stays strict L stack st seat)
    {declaration : ClassDecl} (hname : Unreserved declaration.name.name)
    (base : Option Class) (hbase : ∀ c ∈ base, c.Seated strict L st.store)
    (hmembers : SeatedAt L (FunctionDecl.memberSeats strict declaration.methods
      (base.map fun _ => 0))) :
    Seated strict L (makeClass declaration base stack st) := by
  cases base with
  | none =>
    rw [makeClass_base]
    have hnone : (infoOf declaration (⟨.empty, .empty⟩, st.store)).Seated strict L
        st.store none := ⟨by rintro _ _ ⟨⟩, by rintro _ _ ⟨⟩⟩
    obtain ⟨hseated, hsustains, hinfo⟩ := seated_makeMembers none h.store
      h.placed.lt hmembers hnone
    exact seated_nameClass (h.sustain hsustains hseated) hname hinfo
  | some parent =>
    rw [makeClass_derived]
    have hparent := hbase parent rfl
    have hadded : Sustains st.store (superStore parent st) := .addFrame _ _ _
    have hsuper : (superStore parent st).Seated strict L :=
      h.store.addFrame _ (Table.forall_single _ hparent)
    have hunder : (superStore parent st).Under st.store.nextFrame
        (some parent) := by
      refine ⟨?_, ?_⟩
      · rw [superStore, Store.parent?_nextFrame h.placed.lt]
        exact Option.some_ne_none _
      · rw [superStore, Store.valueIn?_addFrame, if_pos rfl, Table.find?_insert,
          if_pos rfl]
    have hnone : (infoOf declaration (⟨.empty, .empty⟩, superStore parent st)).Seated
        strict L (superStore parent st) (some parent) :=
      ⟨by rintro _ _ ⟨⟩, by rintro _ _ ⟨⟩⟩
    obtain ⟨hseated, hsustains, hinfo⟩ := seated_makeMembers (some parent) hsuper hunder
      hmembers hnone
    have hall := hadded.trans hsustains
    exact seated_nameClass (h.sustain hall hseated) hname
      ⟨hinfo, hparent.mono hall (.refl L)⟩

/-! ## Steps -/

theorem seated_lookUp (h : st.store.Seated strict L) {id : Nat} {name : String}
    {line : Nat} {v : Value} (hv : lookUp set st id name line = .ok v) :
    v.Seated strict L st.store := by
  unfold lookUp at hv
  split at hv
  · next d hd =>
    cases hget : st.store.getAt? st.frame d name with
    | none => simp only [Store.readAt, hget, Store.orUndefined, reduceCtorEq] at hv
    | some w =>
      simp only [Store.readAt, hget, Store.orUndefined] at hv
      cases hv
      exact h.of_getAt? hget
  · cases hget : st.store.get? set.globals name with
    | none => simp only [Store.read, hget, Store.orUndefined, reduceCtorEq] at hv
    | some w =>
      simp only [Store.read, hget, Store.orUndefined] at hv
      cases hv
      unfold Store.get? at hget
      split at hget
      · exact h.values _ _ _ hget
      · cases hget

theorem seated_evaluate (h : Stays strict L stack st seat) (hset : set.Suits L)
    {e : Expr} (he : e.Seated L seat) :
    Seated strict L (evaluate set e stack st) := by
  cases e with
  | literal value => exact h.value (Value.isData_ofLiteral value).isPlain.seated
  | group inner => exact h.eval (Expr.seated_group.1 he)
  | unary op line right =>
    exact (h.push (.unary op line) (seatedAt_nil L) trivial rfl).eval
      (Expr.seated_unary.1 he)
  | binary left op line right =>
    obtain ⟨hleft, hright⟩ := Expr.seated_binary.1 he
    exact (h.push (.binaryLeft op line right)
      (seatedAt_cons.2 ⟨hright, seatedAt_nil L⟩) trivial rfl).eval hleft
  | logical left op line right =>
    obtain ⟨hleft, hright⟩ := Expr.seated_logical.1 he
    exact (h.push (.logical op right)
      (seatedAt_cons.2 ⟨hright, seatedAt_nil L⟩) trivial rfl).eval hleft
  | «variable» ref => exact h.deliver fun v hv => seated_lookUp h.store hv
  | assign target value =>
    exact (h.push (.assign target) (seatedAt_nil L) trivial rfl).eval
      (Expr.seated_assign.1 he)
  | call callee line arguments =>
    obtain ⟨hcallee, harguments⟩ := Expr.seated_call.1 he
    exact (h.push (.callee line arguments) (seatedAt_map.2 harguments) trivial
      rfl).eval hcallee
  | get object name =>
    exact (h.push (.get name) (seatedAt_nil L) trivial rfl).eval
      (Expr.seated_get.1 he)
  | set object name value =>
    obtain ⟨hobject, hvalue⟩ := Expr.seated_set.1 he
    exact (h.push (.setObject name value)
      (seatedAt_cons.2 ⟨hvalue, seatedAt_nil L⟩) trivial rfl).eval hobject
  | this id line => exact h.deliver fun v hv => seated_lookUp h.store hv
  | super id line method =>
    exact seated_getSuper h hset (Expr.seated_super.1 he) line method

/-- A value is given to a name of the current frame. -/
theorem Stays.defineHere (h : Stays strict L stack st seat) {name : String}
    (hname : Unreserved name) {v : Value} (hv : v.Seated strict L st.store) :
    Stays strict L stack (Machine.defineHere st name v) seat := by
  have hs : Sustains st.store (st.store.define st.frame name v) :=
    .define (.inl hname) v
  exact h.sustain hs (h.store.define hs hv)

/-- The name of the variable that a statement gives a value to at once. -/
def target? : Stmt → Option String
  | .var x none => some x.name
  | .function f => some f.name.name
  | .class c => some c.name.name
  | _ => none

theorem seated_execute (h : Stays strict L stack st seat) {s : Stmt}
    (hs : SeatedAt L (s.seats strict seat))
    (hname : ∀ name ∈ target? s, Unreserved name) :
    Seated strict L (execute s stack st) := by
  cases s with
  | expression e =>
    rw [Stmt.seats, seatedAt_cons] at hs
    exact (h.push .discard (seatedAt_nil L) trivial rfl).eval hs.1
  | print e =>
    rw [Stmt.seats, seatedAt_cons] at hs
    exact (h.push .print (seatedAt_nil L) trivial rfl).eval hs.1
  | var x initializer =>
    cases initializer with
    | none =>
      exact (h.defineHere (v := .nil) (hname _ rfl) trivial).completed trivial
    | some e =>
      rw [Stmt.seats] at hs
      exact (h.push (.define x.name) (seatedAt_nil L) trivial rfl).eval
        (seatedAt_cons.1 hs).1
  | block body =>
    rw [Stmt.seats] at hs
    have hframed : (st.store.addFrame (some st.frame) .empty).Seated strict L :=
      h.store.addFrame _ (by rintro _ _ ⟨⟩)
    have hthere := h.sustain (.addFrame st.store (some st.frame) .empty) hframed
    exact ⟨hframed, _, h.placed.addFrame .empty, trivial, hs, trivial, seat,
      hthere.placed, hthere.queued⟩
  | ifElse condition thenBranch elseBranch =>
    have hcode : condition.Seated L seat ∧
        SeatedAt L ((Pending.branch thenBranch elseBranch).seats strict seat) := by
      cases elseBranch with
      | none =>
        rw [Stmt.seats, seatedAt_cons] at hs
        exact ⟨hs.1, seatedAt_append.2 ⟨hs.2, seatedAt_nil L⟩⟩
      | some elseBranch =>
        rw [Stmt.seats, seatedAt_cons, seatedAt_append] at hs
        refine ⟨hs.1, seatedAt_append.2 ⟨hs.2.1, ?_⟩⟩
        exact seatedAt_seatsAll.2 (by simpa using hs.2.2)
    exact (h.push (.branch thenBranch elseBranch) hcode.2 trivial rfl).eval hcode.1
  | «while» condition body =>
    rw [Stmt.seats] at hs
    exact (h.push (.loopTest condition body) hs trivial rfl).eval
      (seatedAt_cons.1 hs).1
  | function f =>
    rw [Stmt.seats] at hs
    have hmade : Sustains st.store (st.store.makeClosure f st.frame).1 :=
      .of_frames rfl
    have hthere := h.sustain hmade (h.store.makeClosure f st.frame)
    have hfunction : (Value.function (st.store.makeClosure f st.frame).2).Seated
        strict L (st.store.makeClosure f st.frame).1 :=
      ⟨seat, hthere.placed, hs⟩
    exact (hthere.defineHere (hname _ rfl) hfunction).completed trivial
  | «return» line value =>
    cases value with
    | none => exact h.completed trivial
    | some e =>
      rw [Stmt.seats] at hs
      exact (h.push .giveBack (seatedAt_nil L) trivial rfl).eval
        (seatedAt_cons.1 hs).1
  | «class» declaration =>
    rw [Stmt.seats] at hs
    obtain ⟨name, superclass, methods⟩ := declaration
    have hthere := h.defineHere (v := .nil) (hname name.name rfl) trivial
    cases superclass with
    | none => exact seated_makeClass hthere (hname _ rfl) none (by simp) hs
    | some parent =>
      refine (hthere.push (.superclass ⟨name, some parent, methods⟩ parent.line)
        hs trivial rfl).eval ?_
      intro id hid
      cases hid

/-- The name of the variable to which a construct gives the value it waits
for. -/
def Pending.target? : Pending → Option String
  | .assign target => some target.name
  | .define name => some name
  | .superclass declaration _ => some declaration.name.name
  | _ => none

theorem seated_assign (h : Stays strict L stack st seat) {target : Ref}
    (hname : Unreserved target.name) {v : Value}
    (hv : v.Seated strict L st.store) :
    Seated strict L (assign set target v stack st) := by
  unfold assign
  split
  · next owner howner =>
    have hs : Sustains st.store (st.store.define owner target.name v) :=
      .define (.inl hname) v
    exact (h.sustain hs (h.store.define hs hv)).value (hv.sustain hs)
  · exact h.failed _

theorem seated_resume {pending : Pending} {v : Value}
    (h : Stays strict L (pending :: stack) st seat) (hset : set.Suits L)
    (hv : v.Seated strict L st.store)
    (hname : ∀ name ∈ pending.target?, Unreserved name) :
    Seated strict L (resume set v pending stack st) := by
  have hpop := h.pop
  obtain ⟨hstore, -, hcode, hholds, -⟩ := h
  cases pending with
  | loopBody | block | body | program => exact ⟨hstore, trivial⟩
  | unary op line =>
    exact (hpop rfl).deliver fun w hw => (UnaryOp.isData_apply hw).isPlain.seated
  | binaryLeft op line right =>
    exact ((hpop rfl).push (.binaryRight v op line) (seatedAt_nil L) trivial rfl).eval
      (seatedAt_cons.1 hcode).1
  | binaryRight left op line =>
    exact (hpop rfl).deliver fun w hw => (BinaryOp.isData_apply hw).isPlain.seated
  | logical op right =>
    simp only [resume]
    split
    · exact (hpop rfl).value hv
    · exact (hpop rfl).eval (seatedAt_cons.1 hcode).1
  | assign target =>
    exact seated_assign (hpop rfl) (hname _ rfl) hv
  | callee line arguments =>
    simp only [resume]
    split
    · next c hc =>
      exact seated_passArguments (hpop rfl) hset (hv.callable? hc) line (by simp)
        (seatedAt_map.1 hcode)
    · exact (hpop rfl).failed _
  | argument c line earlier later =>
    exact seated_passArguments (hpop rfl) hset hholds.1 line
      (List.forall_mem_cons.2 ⟨hv, hholds.2⟩) (seatedAt_map.1 hcode)
  | get name =>
    exact seated_getProperty (hpop rfl) hset hv name
  | setObject name value =>
    simp only [resume]
    split
    · next object hobject =>
      exact ((hpop rfl).push (.setValue object name.name) (seatedAt_nil L) trivial
        rfl).eval (seatedAt_cons.1 hcode).1
    · exact (hpop rfl).failed _
  | setValue object name =>
    have hs : Sustains st.store (st.store.setField object name v) := .of_frames rfl
    exact ((hpop rfl).sustain hs (hstore.setField object name hv)).value (hv.sustain hs)
  | construct object =>
    have hobject : (Value.inst object).Seated strict L st.store := hholds
    exact (hpop rfl).value hobject
  | invocation =>
    have hrest := hpop rfl
    exact ⟨hstore, seat, hrest.placed, hv, hrest.queued⟩
  | discard => exact (hpop rfl).completed trivial
  | print =>
    simp only [resume, printValue]
    split
    · have hrest := hpop rfl
      exact ⟨hstore, seat, hrest.placed, trivial, hrest.queued⟩
    · exact ⟨hstore, trivial⟩
  | define name =>
    exact ((hpop rfl).defineHere (hname _ rfl) hv).completed trivial
  | branch thenBranch elseBranch =>
    obtain ⟨hthen, helse⟩ := seatedAt_append.1 hcode
    simp only [resume]
    split
    · exact (hpop rfl).exec hthen
    · cases elseBranch with
      | none => exact (hpop rfl).completed trivial
      | some elseBranch =>
        exact (hpop rfl).exec (seatedAt_seatsAll.1 helse _ List.mem_cons_self)
  | loopTest condition inner =>
    simp only [resume]
    split
    · exact ((hpop rfl).push (.loopBody condition inner) hcode trivial rfl).exec
        (seatedAt_cons.1 hcode).2
    · exact (hpop rfl).completed trivial
  | giveBack =>
    have hreturned : (Completion.returned v).Seated strict L st.store := hv
    exact (hpop rfl).completed hreturned
  | superclass declaration line =>
    cases v with
    | cls parent =>
      refine seated_makeClass (hpop rfl) (hname _ rfl) (some parent) ?_ hcode
      rintro c ⟨⟩
      exact hv
    | _ => exact (hpop rfl).failed _

theorem seated_resultOf (h : st.store.Seated strict L) {f : Closure} {line : Nat}
    {c : Completion} (hc : c.Seated strict L st.store) {v : Value}
    (hv : resultOf f line c st.store = .ok v) : v.Seated strict L st.store := by
  unfold resultOf at hv
  split at hv
  · cases hget : st.store.getAt? f.frame 0 Keyword.kwThis.lexeme with
    | none => simp only [Store.readAt, hget, Store.orUndefined, reduceCtorEq] at hv
    | some w =>
      simp only [Store.readAt, hget, Store.orUndefined] at hv
      cases hv
      exact h.of_getAt? hget
  · cases c with
    | normal =>
      cases hv
      trivial
    | returned w =>
      cases hv
      exact hc

theorem seated_complete {pending : Pending} {c : Completion}
    (h : Stays strict L (pending :: stack) st seat)
    (hc : c.Seated strict L st.store) :
    Seated strict L (complete c pending stack st) := by
  have hpop := h.pop
  obtain ⟨hstore, hplaced, hcode, -, outer, hbehind, hqueued⟩ := h
  cases pending with
  | loopBody condition inner =>
    cases c with
    | normal =>
      exact ((hpop rfl).push (.loopTest condition inner) hcode trivial rfl).eval
        (seatedAt_cons.1 hcode).1
    | returned v => exact (hpop rfl).completed hc
  | block later saved =>
    -- Behind the block the seat of the saved frame counts.
    cases c with
    | normal =>
      cases later with
      | nil => exact ⟨hstore, outer, hbehind, hc, hqueued⟩
      | cons s later =>
        obtain ⟨hs, hlater⟩ := seatedAt_append.1 hcode
        exact ⟨hstore, seat, hplaced, hs, hlater, trivial, outer, hbehind, hqueued⟩
    | returned v => exact ⟨hstore, outer, hbehind, hc, hqueued⟩
  | body f line =>
    exact (hpop rfl).deliver fun _ => seated_resultOf hstore hc
  | program later =>
    cases c with
    | normal =>
      cases later with
      | nil => exact (hpop rfl).completed hc
      | cons s later =>
        obtain ⟨hs, hlater⟩ := seatedAt_append.1 hcode
        exact ((hpop rfl).push (.program later) hlater trivial rfl).exec hs
    | returned v => exact (hpop rfl).completed hc
  | _ => exact ⟨hstore, trivial⟩

end

/-! ## Runs -/

variable {strict : Bool} {L : Ledger} {set : Setting}

/-- The next step gives no value to `this` and `super`. -/
def Spares (m : Machine) : Prop :=
  (∀ s, m.control = .exec s → ∀ name ∈ target? s, Unreserved name) ∧
    ∀ v pending rest, m.control = .value v → m.stack = pending :: rest →
      ∀ name ∈ pending.target?, Unreserved name

theorem spares_of_sound {m : Machine} (h : Sound L m) : Spares m := by
  obtain ⟨control, stack, st⟩ := m
  obtain ⟨-, hcontrol⟩ := h
  constructor
  · rintro s rfl name hname
    obtain ⟨scopes, -, hs, -⟩ := hcontrol
    cases s with
    | var x initializer =>
      cases initializer with
      | none =>
        cases hname
        rw [Stmt.Scoped] at hs
        exact hs.1
      | some e => cases hname
    | function f =>
      cases hname
      rw [Stmt.Scoped] at hs
      exact hs.1
    | «class» c =>
      cases hname
      rw [Stmt.Scoped] at hs
      obtain ⟨name, superclass, methods⟩ := c
      cases superclass <;> (rw [ClassDecl.Scoped] at hs; exact hs.1)
    | _ => cases hname
  · rintro v pending rest rfl rfl name hname
    obtain ⟨scopes, opening, -, -, hawaits⟩ := hcontrol
    cases pending with
    | assign target =>
      cases hname
      exact hawaits.1.unreserved
    | define x =>
      cases hname
      exact hawaits.1
    | superclass declaration line =>
      cases hname
      exact hawaits.1.2.1
    | _ => cases hname

theorem spares_of_safe {m : Machine} (h : Safe L m) : Spares m := by
  rcases h with hsound | ⟨⟨f, hf⟩, -⟩
  · exact spares_of_sound hsound
  · refine ⟨fun s hs => ?_, fun v pending rest hv => ?_⟩
    · rw [hf] at hs
      cases hs
    · rw [hf] at hv
      cases hv

/-- A step keeps a machine seated. -/
theorem seated_step {m : Machine} (h : Seated strict L m) (hset : set.Suits L)
    (hspares : Spares m) : Seated strict L (step set m) := by
  obtain ⟨control, stack, st⟩ := m
  obtain ⟨hstore, hcontrol⟩ := h
  cases control with
  | eval e =>
    obtain ⟨seat, hplaced, he, hqueued⟩ := hcontrol
    exact seated_evaluate ⟨hstore, hplaced, hqueued⟩ hset he
  | exec s =>
    obtain ⟨seat, hplaced, hs, hqueued⟩ := hcontrol
    exact seated_execute ⟨hstore, hplaced, hqueued⟩ hs (hspares.1 s rfl)
  | value v =>
    cases stack with
    | nil => exact ⟨hstore, hcontrol⟩
    | cons pending stack =>
      obtain ⟨seat, hplaced, hv, hqueued⟩ := hcontrol
      exact seated_resume ⟨hstore, hplaced, hqueued⟩ hset hv
        (hspares.2 v pending stack rfl rfl)
  | completed c =>
    cases stack with
    | nil => exact ⟨hstore, hcontrol⟩
    | cons pending stack =>
      obtain ⟨seat, hplaced, hc, hqueued⟩ := hcontrol
      exact seated_complete ⟨hstore, hplaced, hqueued⟩ hc
  | failed f =>
    cases stack with
    | nil => exact ⟨hstore, trivial⟩
    | cons pending stack =>
      have hunwind : (unwind pending st).store = st.store := by
        cases pending <;> rfl
      exact ⟨hunwind ▸ hstore, trivial⟩
  | stuck => exact ⟨hstore, trivial⟩

/-- Every machine of a run that starts safe and seated is seated. -/
theorem seated_runAlong {setting : Float → Setting}
    (hset : ∀ now, (setting now).Suits L) {m : Machine} (hsafe : Safe L m)
    (h : Seated strict L m) (times : List Float) :
    Seated strict L (runAlong setting times m) := by
  have hboth : Safe L (runAlong setting times m) ∧
      Seated strict L (runAlong setting times m) := by
    refine runAlong_induction (motive := fun m => Safe L m ∧ Seated strict L m)
      ?_ ⟨hsafe, h⟩ times
    rintro now m ⟨hsafe, hseated⟩
    exact ⟨safe_step hsafe (hset now),
      seated_step hseated (hset now) (spares_of_safe hsafe)⟩
  exact hboth.2

/-! ## What `super` binds -/

/-- The next step reads a method through the occurrence `id` of `super`: it
takes the method of `superclass` and binds it to `receiver`. -/
structure Binds (set : Setting) (m : Machine) (id : Nat) (method : Ident)
    (superclass : Class) (receiver : Value) : Prop where
  found : ∃ inner, set.distances.find? id = some (inner + 1) ∧
    m.state.store.getAt? m.state.frame (inner + 1) Keyword.kwSuper.lexeme =
      some (.cls superclass) ∧
    m.state.store.getAt? m.state.frame inner Keyword.kwThis.lexeme =
      some receiver
  bound : ∀ f, superclass.findMethod? method.name = some f →
    step set m = settle set
      (.function (m.state.store.bindMethod f receiver).2) method.line m.stack
      { m.state with store := (m.state.store.bindMethod f receiver).1 }

/-- A method that is reached through `super` is bound to a value that descends
from the class it is searched in. -/
theorem binds_of_seated {m : Machine} (h : Seated strict L m)
    (hset : set.Suits L) {id line : Nat} {method : Ident}
    (hcontrol : m.control = .eval (.super id line method)) {d : Nat}
    (hd : set.distances.find? id = some d) :
    ∃ superclass receiver, Binds set m id method superclass receiver ∧
      receiver.Inherits strict superclass := by
  obtain ⟨control, stack, st⟩ := m
  cases hcontrol
  obtain ⟨-, seat, hplaced, he, -⟩ := h
  rcases Expr.seated_super.1 he with hnone | ⟨k, rfl, hrecords⟩
  · rw [hset.distances, hnone.find] at hd
    cases hd
  · obtain ⟨receiver, superclass, hthis, hsuper, hinherits⟩ := hplaced.found
    have hentry : set.distances.find? id = some (k + 1) := by
      rw [hset.distances, hrecords.find]
    refine ⟨superclass, receiver, ⟨⟨k, hentry, hsuper, hthis⟩, ?_⟩, hinherits⟩
    intro f hf
    simp only [step, evaluate, getSuper, hentry, Store.readAt, hsuper,
      Store.orUndefined, bindSuper, hthis, hf]

end Machine

end Lox
