import Lox.Proofs.Machine.Homes
import Lox.Proofs.Machine.Receivers

/-!
# Housed machines

In a housed machine all code that can still run lives where its home is: the
code under way in the current frame, the code that waits on the stack in the
frames that its blocks go back to, and the code of functions in the frames they
close over (`Chronicle.Housed`).

A step keeps a machine housed, and it changes the store only as programs do
(`leads_step`).  Code comes to live in a frame of its own in two places: when a
body is entered and when a class statement takes up its superclass.  There the
chronicle has seen the machine, and so it knows of both.
-/

namespace Lox

open Machine (Behaviour Pending Setting State lookUp)
open Store (Change Grows Later)

/-- The callee is housed. -/
def Callable.Housed (C : Chronicle) (s : Store) : Callable → Prop
  | native _ => True
  | closure f => f.Housed C s
  | cls c => c.Housed C s

/-- The returned value is housed, if there is one. -/
def Completion.Housed (C : Chronicle) (s : Store) : Completion → Prop
  | normal => True
  | returned v => v.Housed C s

/-- The expressions that the construct still evaluates, with their homes. -/
def Machine.Pending.sites : Pending → Home → List (Expr × Home)
  | .binaryLeft _ _ right, home => [(right, home)]
  | .logical _ right, home => [(right, home)]
  | .callee _ arguments, home => arguments.map (·, home)
  | .argument _ _ _ later, home => later.map (·, home)
  | .setObject _ value, home => [(value, home)]
  | .branch thenBranch elseBranch, home =>
    thenBranch.sites home ++ Stmt.sitesAll elseBranch.toList home
  | .loopTest condition inner, home | .loopBody condition inner, home =>
    (condition, home) :: inner.sites home
  | .block later _, home | .program later, home => Stmt.sitesAll later home
  | _, _ => []

/-- What the construct hands on later is housed.  A class statement does not
wait behind anything but the name of its superclass. -/
def Machine.Pending.Housed (C : Chronicle) (s : Store) : Pending → Prop
  | .binaryRight left _ _ => left.Housed C s
  | .argument called _ earlier _ =>
    called.Housed C s ∧ ∀ v ∈ earlier, v.Housed C s
  | .construct object => (Value.inst object).Housed C s
  | .superclass _ _ => False
  | .body f _ => f.Housed C s
  | _ => True

namespace Chronicle

variable (C : Chronicle)

/-- The home of what waits behind the construct.  Behind a block it is that of
the frame the block goes back to. -/
def Behind (s : Store) : Pending → Home → Home → Prop
  | .block _ saved, _, outer => C.Lives s saved outer
  | _, home, outer => outer = home

/-- All code that waits on the stack is housed. -/
def Waits (s : Store) : List Pending → Home → Prop
  | [], _ => True
  | pending :: rest, home =>
    C.Covers (pending.sites home) ∧ pending.Housed C s ∧
      ∃ outer, C.Behind s pending home outer ∧ Waits s rest outer

/-- The code under way lives in the current frame, and so on. -/
inductive Live : Machine → Prop where
  | eval {e stack st home} (lives : C.Lives st.store st.frame home)
      (waits : C.Waits st.store stack home) (code : C.Covers [(e, home)]) :
      Live ⟨.eval e, stack, st⟩
  | exec {s stack st home} (lives : C.Lives st.store st.frame home)
      (waits : C.Waits st.store stack home) (code : C.Covers (s.sites home)) :
      Live ⟨.exec s, stack, st⟩
  | value {v stack st home} (lives : C.Lives st.store st.frame home)
      (waits : C.Waits st.store stack home) (housed : v.Housed C st.store) :
      Live ⟨.value v, stack, st⟩
  | completed {c stack st home} (lives : C.Lives st.store st.frame home)
      (waits : C.Waits st.store stack home) (housed : c.Housed C st.store) :
      Live ⟨.completed c, stack, st⟩
  /-- A class statement looks up its superclass. -/
  | names {declaration parent line stack st home}
      (lives : C.Lives st.store st.frame home)
      (waits : C.Waits st.store stack home)
      (named : declaration.superclass = some parent)
      (code : C.Covers declaration.sites) :
      Live ⟨.eval (.variable parent), .superclass declaration line :: stack, st⟩
  /-- A class statement has looked it up. -/
  | inherits {declaration v line stack st home}
      (lives : C.Lives st.store st.frame home)
      (waits : C.Waits st.store stack home) (housed : v.Housed C st.store)
      (declares : ∀ superclass, v = .cls superclass →
        C.Declares declaration superclass st.store.nextFrame)
      (code : C.Covers declaration.sites) :
      Live ⟨.value v, .superclass declaration line :: stack, st⟩
  | failed (f stack st) : Live ⟨.failed f, stack, st⟩
  | stuck (stack st) : Live ⟨.stuck, stack, st⟩

/-- All code that the machine can still run is housed, as far as the machine
has been seen. -/
structure Housed (m : Machine) : Prop where
  store : m.state.store.All (Value.Housed C m.state.store)
  live : ∀ set, C.Seen set m → C.Live m

/-- The machine is housed, and the store has become what it is as programs
change it. -/
structure Leads (s : Store) (m : Machine) : Prop extends Housed C m where
  grows : Grows s m.state.store

/-- A housed machine between two steps, apart from its control. -/
structure Rests (s : Store) (stack : List Pending) (st : State) (home : Home) :
    Prop where
  grows : Grows s st.store
  store : st.store.All (Value.Housed C st.store)
  lives : C.Lives st.store st.frame home
  waits : C.Waits st.store stack home

end Chronicle

section

variable {C : Chronicle} {s s' : Store} {set : Setting} {stack : List Pending}
  {st : State} {home : Home}

/-! ## Code -/

namespace Chronicle

theorem covers_nil (C : Chronicle) : C.Covers [] := by
  rintro _ ⟨⟩

theorem covers_cons {x : Expr × Home} {list : List (Expr × Home)} :
    C.Covers (x :: list) ↔ C.Covers [x] ∧ C.Covers list := by
  simp [Covers]

theorem covers_append {list list' : List (Expr × Home)} :
    C.Covers (list ++ list') ↔ C.Covers list ∧ C.Covers list' :=
  List.forall_mem_append

theorem covers_map {list : List Expr} :
    C.Covers (list.map (·, home)) ↔ ∀ e ∈ list, C.Covers [(e, home)] := by
  simp only [Covers, List.forall_mem_map, List.forall_mem_singleton]

theorem covers_supers {e : Expr} :
    C.Covers [(e, home)] ↔ ∀ id ∈ e.supers, C.Fits home id :=
  List.forall_mem_singleton

/-- What can stand in an expression can stand in its parts. -/
theorem Covers.part {e part : Expr} (h : C.Covers [(e, home)])
    (he : e.supers = part.supers) : C.Covers [(part, home)] := by
  rw [covers_supers, he] at h
  exact covers_supers.2 h

theorem Covers.parts {e left right : Expr} (h : C.Covers [(e, home)])
    (he : e.supers = left.supers ++ right.supers) :
    C.Covers [(left, home)] ∧ C.Covers [(right, home)] := by
  rw [covers_supers, he] at h
  exact ⟨covers_supers.2 (List.forall_mem_append.1 h).1,
    covers_supers.2 (List.forall_mem_append.1 h).2⟩

theorem covers_sitesAll {list : List Stmt} :
    C.Covers (Stmt.sitesAll list home) ↔
      ∀ s ∈ list, C.Covers (s.sites home) := by
  induction list with
  | nil => simp [Stmt.sitesAll, covers_nil]
  | cons s rest ih =>
    rw [Stmt.sitesAll, covers_append, ih, List.forall_mem_cons]

theorem Covers.member {c : ClassDecl} (h : C.Covers c.sites) {f : FunctionDecl}
    (hf : f ∈ c.methods) : C.Covers (f.sites (.body c f)) :=
  fun x hx => h x (ClassDecl.mem_sites.2 ⟨f, hf, hx⟩)

end Chronicle

/-! ## Later stores -/

theorem Value.Housed.callable? {v : Value} {callee : Callable}
    (h : v.Housed C s) (hv : v.callable? = some callee) :
    callee.Housed C s := by
  cases v <;> cases hv <;> exact h

theorem Callable.Housed.mono {callee : Callable} (h : callee.Housed C s)
    (hs : Later s s') : callee.Housed C s' := by
  cases callee with
  | native => trivial
  | closure f => exact Closure.Housed.mono h hs
  | cls c => exact Class.Housed.mono h hs

theorem Machine.Pending.Housed.mono {pending : Pending}
    (h : pending.Housed C s) (hs : Later s s') : pending.Housed C s' := by
  cases pending with
  | binaryRight left op line => exact Value.Housed.mono h hs
  | argument callee line earlier later =>
    exact ⟨h.1.mono hs, fun v hv => (h.2 v hv).mono hs⟩
  | construct object =>
    have hobject : (Value.inst object).Housed C s := h
    exact hobject.mono hs
  | superclass => exact h
  | body f line => exact Closure.Housed.mono h hs
  | _ => trivial

namespace Chronicle

theorem Waits.mono (h : C.Waits s stack home) (hs : Later s s') :
    C.Waits s' stack home := by
  induction stack generalizing home with
  | nil => trivial
  | cons pending rest ih =>
    obtain ⟨hcode, hhoused, outer, hbehind, hrest⟩ := h
    refine ⟨hcode, hhoused.mono hs, outer, ?_, ih hrest⟩
    cases pending with
    | block later saved => exact Lives.mono hbehind hs
    | _ => exact hbehind

namespace Rests

/-- The same in another state whose store has grown. -/
theorem move (h : C.Rests s stack st home) (st' : State)
    (hgrows : Grows st.store st'.store) (hframe : st'.frame = st.frame)
    (hstore : st'.store.All (Value.Housed C st'.store)) :
    C.Rests s stack st' home where
  grows := h.grows.trans hgrows
  store := hstore
  lives := hframe ▸ h.lives.mono hgrows.later
  waits := h.waits.mono hgrows.later

/-- The same after a change that brings no values but housed ones. -/
theorem change (h : C.Rests s stack st home) {store : Store}
    (hchange : Change st.store store)
    (hstore : store.All (Value.Housed C st.store)) :
    C.Rests s stack { st with store := store } home :=
  h.move _ (.of_change hchange) rfl
    (hstore.mono fun _ hv => hv.mono hchange.later)

/-- A construct of the same frame that comes to wait. -/
theorem push (h : C.Rests s stack st home) (pending : Pending)
    (hcode : C.Covers (pending.sites home))
    (hhoused : pending.Housed C st.store)
    (hbehind : C.Behind st.store pending home home) :
    C.Rests s (pending :: stack) st home :=
  ⟨h.grows, h.store, h.lives, hcode, hhoused, home, hbehind, h.waits⟩

/-- A construct that stays in its frame is done. -/
theorem pop {pending : Pending} (h : C.Rests s (pending :: stack) st home)
    (hpending : pending.isBlock = false) : C.Rests s stack st home := by
  obtain ⟨hgrows, hstore, hlives, -, -, outer, hbehind, hwaits⟩ := h
  have houter : outer = home := by
    cases pending with
    | block later saved => cases hpending
    | _ => exact hbehind
  exact ⟨hgrows, hstore, hlives, houter ▸ hwaits⟩

theorem eval (h : C.Rests s stack st home) {e : Expr}
    (he : C.Covers [(e, home)]) : C.Leads s ⟨.eval e, stack, st⟩ :=
  ⟨⟨h.store, fun _ _ => .eval h.lives h.waits he⟩, h.grows⟩

theorem exec (h : C.Rests s stack st home) {t : Stmt}
    (ht : C.Covers (t.sites home)) : C.Leads s ⟨.exec t, stack, st⟩ :=
  ⟨⟨h.store, fun _ _ => .exec h.lives h.waits ht⟩, h.grows⟩

theorem value (h : C.Rests s stack st home) {v : Value}
    (hv : v.Housed C st.store) : C.Leads s ⟨.value v, stack, st⟩ :=
  ⟨⟨h.store, fun _ _ => .value h.lives h.waits hv⟩, h.grows⟩

theorem completed (h : C.Rests s stack st home) {c : Completion}
    (hc : c.Housed C st.store) : C.Leads s ⟨.completed c, stack, st⟩ :=
  ⟨⟨h.store, fun _ _ => .completed h.lives h.waits hc⟩, h.grows⟩

theorem failed (h : C.Rests s stack st home) (f : Failure) :
    C.Leads s ⟨.failed f, stack, st⟩ :=
  ⟨⟨h.store, fun _ _ => .failed f stack st⟩, h.grows⟩

theorem stuck (h : C.Rests s stack st home) :
    C.Leads s ⟨.stuck, stack, st⟩ :=
  ⟨⟨h.store, fun _ _ => .stuck stack st⟩, h.grows⟩

theorem deliver (h : C.Rests s stack st home) {result : Except Failure Value}
    (hok : ∀ v, result = .ok v → v.Housed C st.store) :
    C.Leads s (Machine.deliver result stack st) := by
  cases result with
  | ok v => exact h.value (hok v rfl)
  | error f => exact h.failed f

/-- A variable of the current frame gets a value. -/
theorem defineHere (h : C.Rests s stack st home) {name : String}
    (hname : Unreserved name) {v : Value} (hv : v.Housed C st.store) :
    C.Rests s stack (Machine.defineHere st name v) home :=
  h.change (.declare v h.lives.takes hname) (h.store.define st.frame name hv)

end Rests

end Chronicle

namespace Machine

/-! ## Calls -/

theorem housed_enterBody (h : C.Rests s stack st home) {f : Closure}
    (hf : f.Housed C st.store) {arguments : List Value}
    (harguments : ∀ v ∈ arguments, v.Housed C st.store) (line : Nat) :
    C.Leads s (enterBody f arguments line stack st) := by
  let names := f.declaration.params.map Ident.name
  let bindings := Table.empty.insertAll (names.zip arguments)
  let framed := st.store.addFrame (some f.frame) bindings
  have hnames : ∀ name, bindings.find? name ≠ none → Unreserved name := by
    intro name hname
    have hsome := Option.isSome_iff_ne_none.2 hname
    simp only [bindings, Table.isSome_find?_insertAll, Table.find?_empty,
      Option.isSome_none, Bool.or_false, decide_eq_true_eq] at hsome
    obtain ⟨item, hitem, rfl⟩ := List.mem_map.1 hsome
    obtain ⟨x, hx, heq⟩ := List.mem_map.1 (List.of_mem_zip hitem).1
    exact heq ▸ hf.params x hx
  have hthere := h.change (.scope hf.lt hnames)
    (h.store.addFrame (some f.frame) (Table.forall_insertAll names harguments))
  have hlater := Later.addFrame st.store (some f.frame) bindings
  refine ⟨⟨hthere.store, fun set hseen => ?_⟩, hthere.grows⟩
  have henters : C.Enters f st.store.nextFrame :=
    ⟨set, st.frame, line, stack, _, hseen, rfl⟩
  have hbody : ∃ inner, C.Lives framed st.store.nextFrame inner ∧
      C.Covers (f.declaration.sites inner) := by
    rcases hf.code with ⟨-, outer, hlives, hcode⟩ | ⟨c, hbound, hcode⟩
    · exact ⟨outer.inner, hlives.addFrame hnames, hcode⟩
    · exact ⟨.body c f.declaration, hbound.addFrame hnames henters, hcode⟩
  obtain ⟨inner, hlives, hcode⟩ := hbody
  rw [FunctionDecl.sites_eq] at hcode
  exact .completed hlives ⟨hcode, trivial, home, hthere.lives, C.covers_nil,
    hf.mono hlater, home, rfl, hthere.waits⟩ trivial

theorem housed_construct (h : C.Rests s stack st home) {c : Class}
    (hc : c.Housed C st.store) {arguments : List Value}
    (harguments : ∀ v ∈ arguments, v.Housed C st.store) (line : Nat) :
    C.Leads s (construct c arguments line stack st) := by
  let added := st.store.addObject
  let object : Instance := ⟨st.store.nextObject, c⟩
  have hsize : st.store.nextObject < added.fields.size := by
    simp [added, Store.addObject, Store.nextObject]
  have hchange : Change st.store added := .other rfl (Nat.le_of_lt hsize)
  have hthere := h.change hchange h.store.addObject
  have hclass := hc.mono hchange.later
  have hobject : (Value.inst object).Housed C added := ⟨hsize, hclass⟩
  simp only [construct]
  cases hmethod : c.findMethod? initializerName with
  | none => exact hthere.value hobject
  | some method =>
    obtain ⟨hgrows, hbound⟩ :=
      (hclass.members.findMethod? hmethod).bind (.inst object)
    have hstore := hthere.store.bindMethod method hobject
    have hbind := hthere.move
      { st with store := (added.bindMethod method (.inst object)).1 } hgrows rfl
      (hstore.mono fun v hv => hv.mono hgrows.later)
    have hwaits := hbind.push (.construct object) C.covers_nil
      (hobject.mono hgrows.later) rfl
    refine housed_enterBody hwaits hbound ?_ line
    exact fun v hv =>
      ((harguments v hv).mono hchange.later).mono hgrows.later

theorem housed_enter (h : C.Rests s stack st home)
    (hset : set.All Behaviour.Honest) {callee : Callable}
    (hcallee : callee.Housed C st.store) {arguments : List Value}
    (harguments : ∀ v ∈ arguments, v.Housed C st.store) (line : Nat) :
    C.Leads s (enter set callee arguments line stack st) := by
  cases callee with
  | closure f => exact housed_enterBody h hcallee harguments line
  | cls c => exact housed_construct h hcallee harguments line
  | native function =>
    simp only [enter]
    split
    · exact h.stuck
    · next behaviour hbehaviour =>
      split
      · next v hv =>
        refine h.value ?_
        rcases hset _ _ hbehaviour set.now arguments v hv with
          hplain | ⟨a, ha, hpart⟩
        · exact hplain.housed
        · exact (harguments a ha).part hpart
      · exact h.failed _

theorem housed_invoke (h : C.Rests s stack st home)
    (hset : set.All Behaviour.Honest) {callee : Callable}
    (hcallee : callee.Housed C st.store) {arguments : List Value}
    (harguments : ∀ v ∈ arguments, v.Housed C st.store) (line : Nat) :
    C.Leads s (invoke set callee arguments line stack st) := by
  simp only [invoke]
  split
  · exact h.failed _
  · split
    · exact h.failed _
    · have hdeeper := h.move { st with depth := st.depth + 1 } (.refl _) rfl h.store
      have hwaits := hdeeper.push .invocation C.covers_nil trivial rfl
      exact housed_enter hwaits hset hcallee harguments line

theorem housed_settle (h : C.Rests s stack st home)
    (hset : set.All Behaviour.Honest) {v : Value} (hv : v.Housed C st.store)
    (line : Nat) : C.Leads s (settle set v line stack st) := by
  cases v with
  | function f =>
    have hcallee : (Callable.closure f).Housed C st.store := hv
    simp only [settle]
    split
    · exact housed_invoke h hset hcallee (by simp) line
    · exact h.value hv
  | _ => exact h.value hv

theorem housed_passArguments (h : C.Rests s stack st home)
    (hset : set.All Behaviour.Honest) {callee : Callable}
    (hcallee : callee.Housed C st.store) (line : Nat) {earlier : List Value}
    (hearlier : ∀ v ∈ earlier, v.Housed C st.store) {later : List Expr}
    (hlater : ∀ e ∈ later, C.Covers [(e, home)]) :
    C.Leads s (passArguments set callee line earlier later stack st) := by
  cases later with
  | nil =>
    refine housed_invoke h hset hcallee ?_ line
    intro v hv
    exact hearlier v (List.mem_reverse.1 hv)
  | cons e later =>
    obtain ⟨he, hlater⟩ := List.forall_mem_cons.1 hlater
    have hwaits := h.push (.argument callee line earlier later)
      (Chronicle.covers_map.2 hlater) ⟨hcallee, hearlier⟩ rfl
    exact hwaits.eval he

/-! ## Properties -/

/-- A member is bound and handed on. -/
theorem housed_bound (h : C.Rests s stack st home)
    (hset : set.All Behaviour.Honest) {method : Closure}
    (hmethod : method.Free C st.store) {object : Value}
    (hobject : object.Housed C st.store) (line : Nat) :
    C.Leads s (settle set (.function (st.store.bindMethod method object).2)
      line stack { st with store := (st.store.bindMethod method object).1 }) := by
  obtain ⟨hgrows, hbound⟩ := hmethod.bind object
  have hstore := h.store.bindMethod method hobject
  have hbind := h.move { st with store := (st.store.bindMethod method object).1 }
    hgrows rfl (hstore.mono fun v hv => hv.mono hgrows.later)
  have hfunction : (Value.function (st.store.bindMethod method object).2).Housed C
      (st.store.bindMethod method object).1 := hbound
  exact housed_settle hbind hset hfunction line

theorem housed_readProperty (h : C.Rests s stack st home)
    (hset : set.All Behaviour.Honest) {object : Value}
    (hobject : object.Housed C st.store) (id : ObjectId)
    {method? : String → Option Closure}
    (hmethod : ∀ name f, method? name = some f → f.Free C st.store)
    (owner : String) (name : Ident) :
    C.Leads s (readProperty set object id method? owner name stack st) := by
  simp only [readProperty]
  split
  · next v hfield =>
    exact housed_settle h hset (h.store.fields _ _ v hfield) name.line
  · split
    · next method hfound =>
      exact housed_bound h hset (hmethod _ method hfound) hobject name.line
    · exact h.failed _

theorem housed_getProperty (h : C.Rests s stack st home)
    (hset : set.All Behaviour.Honest) {object : Value}
    (hobject : object.Housed C st.store) (name : Ident) :
    C.Leads s (getProperty set object name stack st) := by
  cases object with
  | inst o =>
    exact housed_readProperty h hset hobject _
      (fun name f hf => hobject.2.members.findMethod? hf) _ name
  | cls c =>
    have hclass : c.Housed C st.store := hobject
    exact housed_readProperty h hset hobject _
      (fun name f hf => hclass.members.findStatic? hf) _ name
  | _ => exact h.failed _

theorem housed_bindSuper (h : C.Rests s stack st home)
    (hset : set.All Behaviour.Honest) {superclass : Class}
    (hsuperclass : superclass.Housed C st.store) (distance line : Nat)
    (method : Ident) :
    C.Leads s (bindSuper set superclass distance line method stack st) := by
  cases distance with
  | zero => exact h.failed _
  | succ inner =>
    simp only [bindSuper]
    split
    · exact h.failed _
    · next object hobject =>
      split
      · exact h.failed _
      · next f hf =>
        exact housed_bound h hset (hsuperclass.members.findMethod? hf)
          (h.store.readAt hobject) method.line

theorem housed_getSuper (h : C.Rests s stack st home)
    (hset : set.All Behaviour.Honest) (id line : Nat) (method : Ident) :
    C.Leads s (getSuper set id line method stack st) := by
  simp only [getSuper]
  split
  · exact h.failed _
  · split
    · exact h.failed _
    · next superclass hread =>
      have hclass : (Value.cls superclass).Housed C st.store :=
        h.store.readAt hread
      exact housed_bindSuper h hset hclass _ line method
    · exact h.failed _

/-! ## Classes -/

/-- The members of a class that are made in a frame which encloses them. -/
theorem free_member {c : ClassDecl} (hwell : c.WellFormed)
    (hcode : C.Covers c.sites) {frame : FrameId}
    (hencloses : C.Encloses s frame c) :
    ∀ f ∈ c.methods, ∀ identity, (⟨identity, f, frame⟩ : Closure).Free C s := by
  intro f hf identity
  refine ⟨?_, c, hf, hencloses, hcode.member hf⟩
  obtain ⟨name, superclass, methods⟩ := c
  rw [ClassDecl.WellFormed] at hwell
  have hdeclared := hwell.2.of_mem hf
  obtain ⟨name, params, body, kind⟩ := f
  rw [FunctionDecl.WellFormed] at hdeclared
  exact hdeclared.1

/-- Making members changes neither frames nor fields. -/
theorem change_makeMembers (frame : FrameId) (list : List FunctionDecl)
    (members : Members) (store : Store) :
    Change store (makeMembers frame list members store).2 :=
  .other (frames_makeMembers frame list members store)
    (Nat.le_of_eq (congrArg Array.size
      (fields_makeMembers frame list members store).symm))

/-- A class is given to its name. -/
theorem housed_nameClass {store : Store}
    (h : C.Rests s stack { st with store := store } home) {name : Ident}
    (hname : Unreserved name.name) {c : Class}
    (hc : c.Housed C store.addObject) :
    C.Leads s (nameClass name c store stack st) := by
  unfold nameClass
  split
  · next owner howner =>
    have hadded : Change store store.addObject :=
      .other rfl (by simp [Store.addObject])
    have hheld : store.valueIn? owner name.name ≠ none :=
      Option.isSome_iff_ne_none.1 (Store.isSome_of_owner? howner)
    have hclass : (Value.cls c).Housed C store.addObject := hc
    have hthere := h.change hadded h.store.addObject
    exact (hthere.change (.assign (.cls c) hheld hname)
      (hthere.store.define owner name.name hclass)).completed trivial
  · exact h.failed _

/-- A class is made of members that are made in a frame which encloses them,
and of a superclass. -/
theorem housed_infoOf {store : Store} {declaration : ClassDecl}
    (hwell : declaration.WellFormed) (hcode : C.Covers declaration.sites)
    {frame : FrameId} (hencloses : C.Encloses store frame declaration)
    {made : Members × Store}
    (hmade : made = makeMembers frame declaration.methods ⟨.empty, .empty⟩ store)
    (h : C.Rests s stack { st with store := store } home) :
    C.Rests s stack { st with store := made.2 } home ∧
      (infoOf declaration made).All (Closure.Free C made.2.addObject) ∧
      (infoOf declaration made).id < made.2.addObject.fields.size ∧
      Later store made.2.addObject := by
  have hchange :=
    change_makeMembers frame declaration.methods ⟨.empty, .empty⟩ store
  rw [← hmade] at hchange
  have hadded : Change made.2 made.2.addObject :=
    .other rfl (by simp [Store.addObject])
  have hlater := hchange.later.trans hadded.later
  have hmembers := all_infoOf (free_member hwell hcode hencloses) store
  rw [← hmade] at hmembers
  refine ⟨h.change hchange ?_, ?_, ?_, hlater⟩
  · exact hmade ▸ h.store.makeMembers frame declaration.methods _
  · exact ⟨fun name f hf => (hmembers.methods name f hf).mono hlater,
      fun name f hf => (hmembers.statics name f hf).mono hlater⟩
  · simp [infoOf, Store.addObject, Store.nextObject]

theorem housed_makeBase (h : C.Rests s stack st home)
    {declaration : ClassDecl} (hwell : declaration.WellFormed)
    (hname : Unreserved declaration.name.name)
    (hcode : C.Covers declaration.sites)
    (hnone : declaration.superclass = none) :
    C.Leads s (makeClass declaration none stack st) := by
  have hencloses : C.Encloses st.store st.frame declaration :=
    ⟨h.lives.lt, fun hsome => absurd hnone hsome⟩
  obtain ⟨hthere, hmembers, hid, -⟩ := housed_infoOf hwell hcode hencloses rfl h
  rw [makeClass_base]
  exact housed_nameClass hthere hname ⟨Class.all_base.2 hmembers,
    List.forall_mem_singleton.2 hid⟩

theorem housed_makeDerived (h : C.Rests s stack st home)
    {declaration : ClassDecl} (hwell : declaration.WellFormed)
    (hname : Unreserved declaration.name.name)
    (hcode : C.Covers declaration.sites) {superclass : Class}
    (hsuperclass : superclass.Housed C st.store)
    (hdeclares : C.Declares declaration superclass st.store.nextFrame) :
    C.Leads s (makeClass declaration (some superclass) stack st) := by
  have hmakes : st.store.Makes st.store.nextFrame Keyword.kwSuper.lexeme
      (.cls superclass) (superStore superclass st) :=
    .inherit superclass h.lives.lt
  have hvalue : (Value.cls superclass).Housed C st.store := hsuperclass
  have hstore : (superStore superclass st).All (Value.Housed C st.store) :=
    h.store.addFrame _ (Table.forall_single _ hvalue)
  have hsealed := hmakes.sealed
  have hencloses : C.Encloses (superStore superclass st) st.store.nextFrame
      declaration :=
    ⟨hsealed.lt, fun _ => ⟨superclass, hsealed, hdeclares⟩⟩
  have hchange := Change.make hmakes
  obtain ⟨hthere, hmembers, hid, hlater⟩ :=
    housed_infoOf hwell hcode hencloses rfl (h.change hchange hstore)
  have hparent := (hsuperclass.mono hchange.later).mono hlater
  rw [makeClass_derived]
  exact housed_nameClass hthere hname
    ⟨Class.all_derived.2 ⟨hmembers, hparent.members⟩,
      List.forall_mem_cons.2 ⟨hid, hparent.objects⟩⟩

/-! ## Steps -/

theorem housed_lookUp (h : st.store.All (Value.Housed C st.store))
    {id line : Nat} {name : String} {v : Value}
    (hv : lookUp set st id name line = .ok v) : v.Housed C st.store := by
  unfold lookUp at hv
  split at hv
  · exact h.readAt hv
  · exact h.read hv

/-- The variable that is assigned to is there. -/
theorem isSome_of_assigned {target : Ref} {owner : FrameId}
    (h : owner? set st target = some owner) :
    (st.store.valueIn? owner target.name).isSome = true := by
  unfold owner? at h
  split at h
  · exact Store.isSome_of_ownerAt? h
  · exact Store.isSome_of_owner? h

theorem housed_evaluate (h : C.Rests s stack st home)
    (hset : set.All Behaviour.Honest) {e : Expr} (he : C.Covers [(e, home)]) :
    C.Leads s (evaluate set e stack st) := by
  cases e with
  | literal value => exact h.value (Value.isData_ofLiteral value).isPlain.housed
  | «variable» | this => exact h.deliver fun v hv => housed_lookUp h.store hv
  | super id line method => exact housed_getSuper h hset id line method
  | group inner => exact h.eval (he.part Expr.supers_group)
  | unary op line right =>
    exact (h.push (.unary op line) C.covers_nil trivial rfl).eval
      (he.part Expr.supers_unary)
  | binary left op line right =>
    obtain ⟨hleft, hright⟩ := he.parts Expr.supers_binary
    exact (h.push (.binaryLeft op line right) hright trivial rfl).eval hleft
  | logical left op line right =>
    obtain ⟨hleft, hright⟩ := he.parts Expr.supers_logical
    exact (h.push (.logical op right) hright trivial rfl).eval hleft
  | assign target value =>
    exact (h.push (.assign target) C.covers_nil trivial rfl).eval
      (he.part Expr.supers_assign)
  | call callee line arguments =>
    rw [Chronicle.covers_supers, Expr.supers_call, List.forall_mem_append] at he
    have harguments : ∀ e ∈ arguments, C.Covers [(e, home)] :=
      fun e he' => Chronicle.covers_supers.2 fun id hid =>
        he.2 id (List.mem_flatMap.2 ⟨e, he', hid⟩)
    exact (h.push (.callee line arguments) (Chronicle.covers_map.2 harguments)
      trivial rfl).eval (Chronicle.covers_supers.2 he.1)
  | get object name =>
    exact (h.push (.get name) C.covers_nil trivial rfl).eval
      (he.part Expr.supers_get)
  | set object name value =>
    obtain ⟨hobject, hvalue⟩ := he.parts Expr.supers_set
    exact (h.push (.setObject name value) hvalue trivial rfl).eval hobject

theorem housed_execute (h : C.Rests s stack st home) {t : Stmt}
    (ht : C.Covers (t.sites home)) (hwell : t.WellFormed) :
    C.Leads s (execute t stack st) := by
  cases t with
  | expression e =>
    rw [Stmt.sites] at ht
    exact (h.push .discard C.covers_nil trivial rfl).eval ht
  | print e =>
    rw [Stmt.sites] at ht
    exact (h.push .print C.covers_nil trivial rfl).eval ht
  | var x initializer =>
    rw [Stmt.WellFormed] at hwell
    rw [Stmt.sites] at ht
    cases initializer with
    | none => exact (h.defineHere hwell.1 (v := .nil) trivial).completed trivial
    | some e =>
      exact (h.push (.define x.name) C.covers_nil trivial rfl).eval ht
  | block body =>
    rw [Stmt.sites] at ht
    have hnames : ∀ name, (Table.empty : Table Value).find? name ≠ none →
        Unreserved name := fun name hname => absurd rfl hname
    have hthere := h.change (.scope h.lives.lt hnames)
      (h.store.addFrame (some st.frame) (by rintro _ _ ⟨⟩))
    refine ⟨⟨hthere.store, fun _ _ => ?_⟩, hthere.grows⟩
    exact .completed (h.lives.addFrame hnames)
      ⟨ht, trivial, home, hthere.lives, hthere.waits⟩ trivial
  | ifElse condition thenBranch elseBranch =>
    have hcode : C.Covers [(condition, home)] ∧
        C.Covers ((Pending.branch thenBranch elseBranch).sites home) := by
      cases elseBranch with
      | none =>
        rw [Stmt.sites, Chronicle.covers_cons] at ht
        exact ⟨ht.1, Chronicle.covers_append.2 ⟨ht.2, C.covers_nil⟩⟩
      | some elseBranch =>
        rw [Stmt.sites, Chronicle.covers_cons, Chronicle.covers_append] at ht
        exact ⟨ht.1, Chronicle.covers_append.2
          ⟨ht.2.1, Chronicle.covers_sitesAll.2 (by simpa using ht.2.2)⟩⟩
    exact (h.push (.branch thenBranch elseBranch) hcode.2 trivial rfl).eval
      hcode.1
  | «while» condition body =>
    rw [Stmt.sites] at ht
    exact (h.push (.loopTest condition body) ht trivial rfl).eval
      (Chronicle.covers_cons.1 ht).1
  | function f =>
    rw [Stmt.WellFormed] at hwell
    obtain ⟨hname, hkind, hdeclared⟩ := hwell
    rw [Stmt.sites] at ht
    have hparams : ∀ x ∈ f.params, Unreserved x.name := by
      obtain ⟨name, params, body, kind⟩ := f
      rw [FunctionDecl.WellFormed] at hdeclared
      exact hdeclared.1
    have hchange : Change st.store (st.store.makeClosure f st.frame).1 :=
      .other rfl (Nat.le_refl _)
    have hthere := h.change hchange (h.store.makeClosure f st.frame)
    have hfunction : (Value.function (st.store.makeClosure f st.frame).2).Housed C
        (st.store.makeClosure f st.frame).1 :=
      ⟨hparams, .inl ⟨hkind, home, hthere.lives, ht⟩⟩
    exact (hthere.defineHere hname hfunction).completed trivial
  | «return» line value =>
    rw [Stmt.sites] at ht
    cases value with
    | none => exact h.completed (c := .returned .nil) trivial
    | some e => exact (h.push .giveBack C.covers_nil trivial rfl).eval ht
  | «class» declaration =>
    rw [Stmt.sites] at ht
    rw [Stmt.WellFormed] at hwell
    have hname : Unreserved declaration.name.name := by
      obtain ⟨name, superclass, methods⟩ := declaration
      rw [ClassDecl.WellFormed] at hwell
      exact hwell.1
    have hthere := h.defineHere hname (v := .nil) trivial
    simp only [execute]
    split
    · next hnone => exact housed_makeBase hthere hwell hname ht hnone
    · next parent hparent =>
      exact ⟨⟨hthere.store, fun _ _ => .names hthere.lives hthere.waits hparent ht⟩,
        hthere.grows⟩

theorem housed_resume {pending : Pending} {v : Value}
    (h : C.Rests s (pending :: stack) st home)
    (hset : set.All Behaviour.Honest) (hv : v.Housed C st.store)
    (hsane : pending.Sane) : C.Leads s (resume set v pending stack st) := by
  have hpop := h.pop
  obtain ⟨hcode, hhoused, -⟩ := h.waits
  cases pending with
  | superclass => cases hhoused
  | block later saved =>
    exact ⟨⟨h.store, fun _ _ => .stuck stack st⟩, h.grows⟩
  | loopBody | body | program => exact (hpop rfl).stuck
  | unary op line =>
    exact (hpop rfl).deliver fun w hw => (UnaryOp.isData_apply hw).isPlain.housed
  | binaryLeft op line right =>
    exact ((hpop rfl).push (.binaryRight v op line) C.covers_nil hv rfl).eval hcode
  | binaryRight left op line =>
    exact (hpop rfl).deliver fun w hw => (BinaryOp.isData_apply hw).isPlain.housed
  | logical op right =>
    simp only [resume]
    split
    · exact (hpop rfl).value hv
    · exact (hpop rfl).eval hcode
  | assign target =>
    simp only [resume, assign]
    split
    · next owner howner =>
      have hheld : st.store.valueIn? owner target.name ≠ none :=
        Option.isSome_iff_ne_none.1 (isSome_of_assigned howner)
      have hchange : Change st.store (st.store.define owner target.name v) :=
        .assign v hheld hsane
      exact ((hpop rfl).change hchange (h.store.define owner target.name hv)).value
        (hv.mono hchange.later)
    · exact (hpop rfl).failed _
  | callee line arguments =>
    simp only [resume]
    split
    · next c hc =>
      exact housed_passArguments (hpop rfl) hset (hv.callable? hc) line (by simp)
        (Chronicle.covers_map.1 hcode)
    · exact (hpop rfl).failed _
  | argument c line earlier later =>
    exact housed_passArguments (hpop rfl) hset hhoused.1 line
      (List.forall_mem_cons.2 ⟨hv, hhoused.2⟩) (Chronicle.covers_map.1 hcode)
  | get name => exact housed_getProperty (hpop rfl) hset hv name
  | setObject name value =>
    simp only [resume]
    split
    · next object hobject =>
      exact ((hpop rfl).push (.setValue object name.name) C.covers_nil trivial
        rfl).eval hcode
    · exact (hpop rfl).failed _
  | setValue object name =>
    have hchange : Change st.store (st.store.setField object name v) :=
      .other rfl (by simp [Store.setField])
    exact ((hpop rfl).change hchange (h.store.setField object name hv)).value
      (hv.mono hchange.later)
  | construct object => exact (hpop rfl).value (v := .inst object) hhoused
  | invocation =>
    exact ((hpop rfl).move { st with depth := st.depth - 1 } (.refl _) rfl
      h.store).value hv
  | discard => exact (hpop rfl).completed trivial
  | print =>
    have hprinted := (hpop rfl).move
      { st with sink := (st.sink.writeLine v.display).1 } (.refl _) rfl h.store
    simp only [resume, printValue]
    split
    · exact hprinted.completed trivial
    · exact hprinted.failed _
  | define name => exact ((hpop rfl).defineHere hsane hv).completed trivial
  | branch thenBranch elseBranch =>
    obtain ⟨hthen, helse⟩ := Chronicle.covers_append.1 hcode
    simp only [resume]
    split
    · exact (hpop rfl).exec hthen
    · cases elseBranch with
      | none => exact (hpop rfl).completed trivial
      | some t =>
        exact (hpop rfl).exec
          (Chronicle.covers_sitesAll.1 helse t List.mem_cons_self)
  | loopTest condition inner =>
    simp only [resume]
    split
    · exact ((hpop rfl).push (.loopBody condition inner) hcode trivial rfl).exec
        (Chronicle.covers_cons.1 hcode).2
    · exact (hpop rfl).completed trivial
  | giveBack => exact (hpop rfl).completed (c := .returned v) hv

/-- A class statement takes up its superclass. -/
theorem housed_inherit (h : C.Rests s stack st home) {declaration : ClassDecl}
    {line : Nat} {v : Value} (hv : v.Housed C st.store)
    (hdeclares : ∀ superclass, v = .cls superclass →
      C.Declares declaration superclass st.store.nextFrame)
    (hcode : C.Covers declaration.sites) (hwell : declaration.WellFormed) :
    C.Leads s (resume set v (.superclass declaration line) stack st) := by
  have hname : Unreserved declaration.name.name := by
    obtain ⟨name, superclass, methods⟩ := declaration
    rw [ClassDecl.WellFormed] at hwell
    exact hwell.1
  cases v with
  | cls superclass =>
    exact housed_makeDerived h hwell hname hcode hv (hdeclares superclass rfl)
  | _ => exact h.failed _

theorem housed_resultOf {f : Closure} {line : Nat} {c : Completion}
    (h : s.All (Value.Housed C s)) (hc : c.Housed C s) {v : Value}
    (hv : resultOf f line c s = .ok v) : v.Housed C s := by
  unfold resultOf at hv
  split at hv
  · exact h.readAt hv
  · cases c with
    | normal =>
      cases hv
      trivial
    | returned w =>
      cases hv
      exact hc

theorem housed_complete {pending : Pending} {c : Completion}
    (h : C.Rests s (pending :: stack) st home) (hc : c.Housed C st.store) :
    C.Leads s (complete c pending stack st) := by
  have hpop := h.pop
  obtain ⟨hcode, hhoused, outer, hbehind, hwaits⟩ := h.waits
  cases pending with
  | superclass => cases hhoused
  | loopBody condition inner =>
    cases c with
    | normal =>
      exact ((hpop rfl).push (.loopTest condition inner) hcode trivial rfl).eval
        (Chronicle.covers_cons.1 hcode).1
    | returned v => exact (hpop rfl).completed hc
  | block later saved =>
    -- Behind the block the code lives in the saved frame.
    have hback : C.Rests s stack { st with frame := saved } outer :=
      ⟨h.grows, h.store, hbehind, hwaits⟩
    cases c with
    | returned v => exact hback.completed hc
    | normal =>
      cases later with
      | nil => exact hback.completed hc
      | cons t later =>
        obtain ⟨ht, hlater⟩ := Chronicle.covers_append.1 hcode
        exact ⟨⟨h.store, fun _ _ => .exec h.lives
          ⟨hlater, trivial, outer, hbehind, hwaits⟩ ht⟩, h.grows⟩
  | body f line =>
    exact (hpop rfl).deliver fun v hv => housed_resultOf h.store hc hv
  | program later =>
    cases c with
    | returned v => exact (hpop rfl).completed hc
    | normal =>
      cases later with
      | nil => exact (hpop rfl).completed hc
      | cons t later =>
        obtain ⟨ht, hlater⟩ := Chronicle.covers_append.1 hcode
        exact ((hpop rfl).push (.program later) hlater trivial rfl).exec ht
  | _ => exact (hpop rfl).stuck

/-- A step of a sane machine that is seen keeps it housed, and changes the
store only as programs do. -/
theorem leads_step {m : Machine} (h : C.Housed m) (hseen : C.Seen set m)
    {fields : ObjectId → String → Option Value} (hsane : Sane fields m)
    (hset : set.All Behaviour.Honest) :
    C.Leads m.state.store (step set m) := by
  have hlive := h.live set hseen
  have hstore := h.store
  cases hlive with
  | eval lives waits code =>
    exact housed_evaluate ⟨.refl _, hstore, lives, waits⟩ hset code
  | exec lives waits code =>
    exact housed_execute ⟨.refl _, hstore, lives, waits⟩ code hsane.control
  | @value v stack st home lives waits housed =>
    cases stack with
    | nil => exact ⟨h, .refl _⟩
    | cons pending rest =>
      exact housed_resume ⟨.refl _, hstore, lives, waits⟩ hset housed
        (hsane.stack pending List.mem_cons_self)
  | @completed c stack st home lives waits housed =>
    cases stack with
    | nil => exact ⟨h, .refl _⟩
    | cons pending rest =>
      exact housed_complete ⟨.refl _, hstore, lives, waits⟩ housed
  | @names declaration parent line stack st home lives waits named code =>
    have hrests : C.Rests st.store stack st home :=
      ⟨.refl _, hstore, lives, waits⟩
    simp only [step, evaluate]
    cases hfound : lookUp set st parent.id parent.name parent.line with
    | error f =>
      exact ⟨⟨hstore, fun _ _ => .failed f _ st⟩, .refl _⟩
    | ok v =>
      refine ⟨⟨hstore, fun _ _ => .inherits lives waits
        (housed_lookUp hstore hfound) ?_ code⟩, .refl _⟩
      rintro superclass rfl
      exact ⟨set, parent, line, stack, st, named, hseen, hfound, rfl⟩
  | @inherits declaration v line stack st home lives waits housed declares code =>
    show C.Leads st.store (resume set v (.superclass declaration line) stack st)
    exact housed_inherit ⟨.refl _, hstore, lives, waits⟩ housed declares code
      (hsane.stack _ List.mem_cons_self)
  | failed f stack st =>
    cases stack with
    | nil => exact ⟨h, .refl _⟩
    | cons pending rest =>
      have hunwind : (unwind pending st).store = st.store := by
        cases pending <;> rfl
      refine ⟨⟨?_, fun _ _ => .failed f rest _⟩, ?_⟩
      · show (unwind pending st).store.All
          (Value.Housed C (unwind pending st).store)
        rw [hunwind]
        exact hstore
      · show Grows st.store (unwind pending st).store
        rw [hunwind]
        exact .refl _
  | stuck stack st => exact ⟨h, .refl _⟩

/-- A run of a sane machine that is seen at each step keeps it housed. -/
theorem leads_runAlong {setting : Float → Setting}
    (hset : ∀ now, (setting now).All Behaviour.Honest) {m : Machine}
    (h : C.Housed m) {fields : ObjectId → String → Option Value}
    (hsane : Sane fields m) {times : List Float}
    (hseen : ∀ x ∈ trail setting times m, C.Seen x.1 x.2) :
    C.Leads m.state.store (runAlong setting times m) := by
  induction times generalizing m fields with
  | nil => exact ⟨h, .refl _⟩
  | cons now times ih =>
    obtain ⟨hfirst, hrest⟩ := List.forall_mem_cons.1 hseen
    have hnext := leads_step h hfirst hsane (hset now)
    have hsparing := (hset now).mono fun _ => Behaviour.Honest.sparing
    have hlast := ih hnext.toHoused (sane_after hsane hsparing) hrest
    exact ⟨hlast.toHoused, hnext.grows.trans hlast.grows⟩

end Machine

end

end Lox
