import Lox.Proofs.Machine.Run
import Lox.Proofs.Store.Code

/-!
# Code in its frames

The invariant that ties the scope rules to the machine.  In a sound machine
the code under way and all code that waits on the stack fit scopes that their
frames match, and so does all code in the store (`Sound`).  Each block on the
stack remembers an older frame, so that a declaration in the current frame
adds no name to any other frame that is still in use (`Awaits.evolve`).

A sound machine stays sound with every step, unless the step looks up an
occurrence that nothing binds (`sound_step`).  There is one lemma for each
operation.
-/

namespace Lox

open Scope (addNames thisScope superScope)
open Store (Evolves)

/-- The code of the callee fits. -/
def Callable.Fits (L : Ledger) (s : Store) : Callable → Prop
  | native _ => True
  | closure f => f.Fits L s
  | cls c => c.Fits L s

/-- The returned value fits, if there is one. -/
def Completion.Fits (L : Ledger) (s : Store) : Completion → Prop
  | normal => True
  | returned v => v.Fits L s

theorem Value.IsPlain.fits {L : Ledger} {s : Store} {v : Value}
    (h : v.IsPlain) : v.Fits L s := by
  cases v <;> trivial

theorem Value.Fits.callable? {L : Ledger} {s : Store} {v : Value}
    {callee : Callable} (h : v.Fits L s) (hv : v.callable? = some callee) :
    callee.Fits L s := by
  cases v <;> cases hv <;> exact h

theorem Callable.Fits.evolve {L : Ledger} {s s' : Store} {callee : Callable}
    (h : callee.Fits L s) {n : FrameId} (hs : Evolves n s s') :
    callee.Fits L s' := by
  cases callee with
  | native => trivial
  | closure f => exact Closure.Fits.mono h hs (.refl L)
  | cls c => exact Class.Fits.mono h hs (.refl L)

namespace Machine

/-! ## What waits -/

/-- The statement is no declaration and fits the scopes. -/
def FitsBranch (L : Ledger) (scopes : List (Table Bool)) (s : Stmt) : Prop :=
  s.declared = [] ∧ s.Scoped L scopes

/-- All that waits on the stack fits.  It waits in a frame, in some scopes and
in the initializer of `opening` if there is one; what waits behind a block
does so in the frame that the block goes back to.  Nothing waits behind a
program. -/
def Awaits (L : Ledger) (s : Store) :
    List Pending → FrameId → List (Table Bool) → Option String → Prop
  | [], _, _, _ => True
  | .unary _ _ :: rest, frame, scopes, opening =>
    Awaits L s rest frame scopes opening
  | .binaryLeft _ _ right :: rest, frame, scopes, opening =>
    right.Scoped L opening scopes ∧ Awaits L s rest frame scopes opening
  | .binaryRight _ _ _ :: rest, frame, scopes, opening =>
    Awaits L s rest frame scopes opening
  | .logical _ right :: rest, frame, scopes, opening =>
    right.Scoped L opening scopes ∧ Awaits L s rest frame scopes opening
  | .assign target :: rest, frame, scopes, opening =>
    L.Assigns opening scopes target ∧ Awaits L s rest frame scopes opening
  | .callee _ arguments :: rest, frame, scopes, opening =>
    Expr.AllScoped L opening scopes arguments ∧
      Awaits L s rest frame scopes opening
  | .argument callee _ earlier later :: rest, frame, scopes, opening =>
    (callee.Fits L s ∧ (∀ v ∈ earlier, v.Fits L s) ∧
      Expr.AllScoped L opening scopes later) ∧
      Awaits L s rest frame scopes opening
  | .get _ :: rest, frame, scopes, opening =>
    Awaits L s rest frame scopes opening
  | .setObject _ value :: rest, frame, scopes, opening =>
    value.Scoped L opening scopes ∧ Awaits L s rest frame scopes opening
  | .setValue _ _ :: rest, frame, scopes, opening =>
    Awaits L s rest frame scopes opening
  | .construct object :: rest, frame, scopes, opening =>
    object.cls.Fits L s ∧ Awaits L s rest frame scopes opening
  | .invocation :: rest, frame, scopes, opening =>
    Awaits L s rest frame scopes opening
  | .discard :: rest, frame, scopes, _ => Awaits L s rest frame scopes none
  | .print :: rest, frame, scopes, _ => Awaits L s rest frame scopes none
  | .define name :: rest, frame, scopes, _ =>
    Unreserved name ∧ Awaits L s rest frame (addNames [name] scopes) none
  | .branch thenBranch elseBranch :: rest, frame, scopes, _ =>
    (FitsBranch L scopes thenBranch ∧
      ∀ s ∈ elseBranch, FitsBranch L scopes s) ∧
      Awaits L s rest frame scopes none
  | .loopTest condition inner :: rest, frame, scopes, _ =>
    (condition.Scoped L none scopes ∧ FitsBranch L scopes inner) ∧
      Awaits L s rest frame scopes none
  | .giveBack :: rest, frame, scopes, _ => Awaits L s rest frame scopes none
  | .superclass declaration _ :: rest, frame, scopes, _ =>
    ((s.valueIn? frame declaration.name.name).isSome ∧
      Unreserved declaration.name.name ∧
      FunctionDecl.AllScoped L declaration.methods
        (thisScope :: superScope :: scopes)) ∧
      Awaits L s rest frame scopes none
  | .loopBody condition inner :: rest, frame, scopes, _ =>
    (condition.Scoped L none scopes ∧ FitsBranch L scopes inner) ∧
      Awaits L s rest frame scopes none
  | .block later saved :: rest, frame, scopes, _ =>
    Stmt.AllScoped L later scopes ∧ saved < frame ∧
      ∃ scopes' opening', s.Live saved scopes' opening' ∧
        Awaits L s rest saved scopes' opening'
  | .body f _ :: rest, frame, scopes, opening =>
    f.Fits L s ∧ Awaits L s rest frame scopes opening
  | .program later :: rest, _, scopes, _ =>
    Stmt.AllScoped L later scopes ∧ rest = []

/-- What waits goes on to fit when only the current frame gains names. -/
theorem Awaits.evolve {L : Ledger} {s s' : Store} {stack : List Pending}
    {frame : FrameId} {scopes : List (Table Bool)} {opening : Option String}
    (h : Awaits L s stack frame scopes opening) (hs : Evolves frame s s') :
    Awaits L s' stack frame scopes opening := by
  induction stack generalizing frame scopes opening with
  | nil => trivial
  | cons pending rest ih =>
    cases pending with
    | unary | binaryRight | get | setValue | invocation | discard | print
    | giveBack => exact ih h hs
    | binaryLeft | logical | assign | callee | setObject | define | branch
    | loopTest | loopBody => exact ⟨h.1, ih h.2 hs⟩
    | program => exact h
    | argument c line earlier later =>
      obtain ⟨⟨hcallee, hearlier, hlater⟩, hrest⟩ := h
      exact ⟨⟨hcallee.evolve hs, fun v hv => (hearlier v hv).evolve hs, hlater⟩,
        ih hrest hs⟩
    | construct object => exact ⟨h.1.mono hs (.refl L), ih h.2 hs⟩
    | superclass declaration line =>
      obtain ⟨⟨hname, hmembers⟩, hrest⟩ := h
      obtain ⟨v, hv⟩ := Option.isSome_iff_exists.1 hname
      obtain ⟨v', hv', -⟩ := hs.values _ _ _ hv
      exact ⟨⟨by rw [hv']; rfl, hmembers⟩, ih hrest hs⟩
    | block later saved =>
      obtain ⟨hlater, hlt, scopes', opening', hlive, hrest⟩ := h
      exact ⟨hlater, hlt, scopes', opening', hlive.evolve hs hlt,
        ih hrest (hs.mono (Nat.le_of_lt hlt))⟩
    | body f line => exact ⟨h.1.mono hs (.refl L), ih h.2 hs⟩

/-! ## Sound machines -/

/-- What is done next fits its frame and its scopes, and what waits fits.  A
failure is none of a variable. -/
def Control.Fits (L : Ledger) (stack : List Pending) (st : State) :
    Control → Prop
  | eval e => ∃ scopes opening, st.store.Live st.frame scopes opening ∧
      e.Scoped L opening scopes ∧
      Awaits L st.store stack st.frame scopes opening
  | exec s => ∃ scopes, st.store.Live st.frame scopes none ∧
      s.Scoped L scopes ∧
      Awaits L st.store stack st.frame (addNames s.declared scopes) none
  | value v => ∃ scopes opening, st.store.Live st.frame scopes opening ∧
      v.Fits L st.store ∧ Awaits L st.store stack st.frame scopes opening
  | completed c => ∃ scopes opening, st.store.Live st.frame scopes opening ∧
      c.Fits L st.store ∧ Awaits L st.store stack st.frame scopes opening
  | failed f => ∀ name line, f ≠ .undefinedVariable name line
  | stuck => True

/-- All code that the machine can still run fits. -/
structure Sound (L : Ledger) (m : Machine) : Prop where
  store : m.state.store.Fits L
  control : m.control.Fits L m.stack m.state

/-- The next step looks up an occurrence that nothing binds: one that has no
distance and that the globals do not hold, a `super` outside of the program
that was given to run, or the target of an assignment that lies inside the
initializer of the very variable it assigns to. -/
inductive Unbound (program : List Stmt) (set : Setting) : Machine → Prop where
  | read {ref stack st} (entry : set.distances.find? ref.id = none)
      (missing : st.store.get? set.globals ref.name = none) :
      Unbound program set ⟨.eval (.variable ref), stack, st⟩
  | this {id line stack st} (entry : set.distances.find? id = none)
      (missing : st.store.get? set.globals Keyword.kwThis.lexeme = none) :
      Unbound program set ⟨.eval (.this id line), stack, st⟩
  | super {id line method stack st} (entry : set.distances.find? id = none)
      (outside : id ∉ Stmt.idsAll program) :
      Unbound program set ⟨.eval (.super id line method), stack, st⟩
  | write {v target stack st} (entry : set.distances.find? target.id = none)
      (missing : st.store.get? set.globals target.name = none) :
      Unbound program set ⟨.value v, .assign target :: stack, st⟩
  | own {v target stack st} (entry : set.distances.find? target.id ≠ none)
      (inside : target.id ∈ Stmt.ownAssignsAll program false) :
      Unbound program set ⟨.value v, .assign target :: stack, st⟩

/-- The machine has failed and left the state as it was. -/
structure Fails (st : State) (m : Machine) : Prop where
  control : ∃ f, m.control = .failed f
  state : m.state = st

/-- The setting goes with the ledger. -/
structure Setting.Suits (L : Ledger) (set : Setting) : Prop where
  distances : set.distances = L.distances
  faithful : ∀ (i : Nat) (behaviour : Behaviour),
    set.natives[i]? = some behaviour → behaviour.Faithful

/-- A sound machine between two steps, apart from its control. -/
structure Here (L : Ledger) (stack : List Pending) (st : State)
    (scopes : List (Table Bool)) (opening : Option String) : Prop where
  store : st.store.Fits L
  live : st.store.Live st.frame scopes opening
  awaits : Awaits L st.store stack st.frame scopes opening

section

variable {L : Ledger} {set : Setting} {stack : List Pending} {st : State}
  {scopes : List (Table Bool)} {opening : Option String}

namespace Here

theorem lt (h : Here L stack st scopes opening) :
    st.frame + 1 ≤ st.store.nextFrame :=
  h.live.lt

theorem value (h : Here L stack st scopes opening) {v : Value}
    (hv : v.Fits L st.store) : Sound L ⟨.value v, stack, st⟩ :=
  ⟨h.store, scopes, opening, h.live, hv, h.awaits⟩

theorem completed (h : Here L stack st scopes opening) {c : Completion}
    (hc : c.Fits L st.store) : Sound L ⟨.completed c, stack, st⟩ :=
  ⟨h.store, scopes, opening, h.live, hc, h.awaits⟩

theorem eval (h : Here L stack st scopes opening) {e : Expr}
    (he : e.Scoped L opening scopes) : Sound L ⟨.eval e, stack, st⟩ :=
  ⟨h.store, scopes, opening, h.live, he, h.awaits⟩

theorem failed (h : Here L stack st scopes opening) {f : Failure}
    (hf : ∀ name line, f ≠ .undefinedVariable name line) :
    Sound L ⟨.failed f, stack, st⟩ :=
  ⟨h.store, hf⟩

/-- No frame in use gains a name. -/
theorem evolve (h : Here L stack st scopes opening) {s : Store}
    (hs : Evolves (st.frame + 1) st.store s) (hfits : s.Fits L) :
    Here L stack { st with store := s } scopes opening where
  store := hfits
  live := h.live.evolve hs (Nat.lt_succ_self _)
  awaits := h.awaits.evolve (hs.mono (Nat.le_succ _))

theorem withDepth (h : Here L stack st scopes opening) (depth : Nat) :
    Here L stack { st with depth := depth } scopes opening :=
  ⟨h.store, h.live, h.awaits⟩

/-- A result that is handed on. -/
theorem deliver (h : Here L stack st scopes opening)
    {result : Except Failure Value}
    (hok : ∀ v, result = .ok v → v.Fits L st.store)
    (herror : ∀ name line, result ≠ .error (.undefinedVariable name line)) :
    Sound L (Machine.deliver result stack st) := by
  cases result with
  | ok v => exact h.value (hok v rfl)
  | error f => exact h.failed fun name line heq => herror name line (by rw [heq])

end Here

/-! ## Calls -/

theorem sound_enterBody (h : Here L stack st scopes opening) {f : Closure}
    (hf : f.Fits L st.store) {arguments : List Value}
    (harguments : ∀ v ∈ arguments, v.Fits L st.store)
    (harity : arguments.length = f.arity) (line : Nat) :
    Sound L (enterBody f arguments line stack st) := by
  have hself := hf
  obtain ⟨outer, hmatches, hscoped, -⟩ := hf
  let names := f.declaration.params.map Ident.name
  let bindings := Table.empty.insertAll (names.zip arguments)
  let framed := st.store.addFrame (some f.frame) bindings
  have hlength : names.length = arguments.length := by
    rw [List.length_map, harity, Closure.arity]
  obtain ⟨hreserved, hbody⟩ := FunctionDecl.scoped_iff.1 hscoped
  have hfind (name : String) :
      (bindings.find? name).isSome = decide (name ∈ names) := by
    rw [Table.isSome_find?_insertAll, List.map_fst_zip (Nat.le_of_eq hlength)]
    simp
  have hlive : framed.Live st.store.nextFrame (addNames names (.empty :: outer))
      none := by
    refine Store.live_addFrame hmatches ?_ ?_
    · intro name
      rw [Scope.contains_foldl_insert, hfind]
      simp [Table.contains]
    · intro v hv
      have hsome : (bindings.find? Keyword.kwSuper.lexeme).isSome = true := by
        rw [hv]
        rfl
      rw [hfind, decide_eq_true_iff] at hsome
      obtain ⟨x, hx, hname⟩ := List.mem_map.1 hsome
      exact absurd hname (hreserved x hx).2
  have hevolves : Evolves (st.frame + 1) st.store framed := .addFrame h.lt _ _
  have hfits : framed.Fits L := by
    refine h.store.addFrame _ ?_
    intro name v hv
    rcases Table.mem_of_find?_insertAll hv with hmem | hempty
    · rw [List.map_snd_zip (Nat.le_of_eq hlength.symm)] at hmem
      exact harguments v hmem
    · cases hempty
  have hthere := h.evolve hevolves hfits
  exact ⟨hfits, _, none, hlive, trivial, hbody, h.lt, scopes, opening,
    hthere.live, hself.mono hevolves (.refl L), hthere.awaits⟩

theorem sound_construct (h : Here L stack st scopes opening) {c : Class}
    (hc : c.Fits L st.store) {arguments : List Value}
    (harguments : ∀ v ∈ arguments, v.Fits L st.store)
    (harity : arguments.length = c.arity) (line : Nat) :
    Sound L (construct c arguments line stack st) := by
  have hadded : Evolves (st.frame + 1) st.store st.store.addObject :=
    .of_frames rfl
  have hthere := h.evolve hadded h.store.addObject
  have hclass := hc.mono hadded (.refl L)
  simp only [construct]
  cases hmethod : c.findMethod? initializerName with
  | none => exact hthere.value hclass
  | some method =>
    have hobject : (Value.inst ⟨st.store.nextObject, c⟩).Fits L
        st.store.addObject := hclass
    obtain ⟨hstore, hevolves, hbound⟩ := hthere.store.bindMethod
      (hclass.findMethod? hmethod) hobject hthere.lt
    have hbind := hthere.evolve hevolves hstore
    have hwaits : Here L (.construct ⟨st.store.nextObject, c⟩ :: stack) _ scopes
        opening := ⟨hbind.store, hbind.live, hclass.mono hevolves (.refl L),
      hbind.awaits⟩
    refine sound_enterBody hwaits hbound ?_ ?_ line
    · intro v hv
      exact ((harguments v hv).evolve hadded).evolve hevolves
    · rw [harity, Class.arity, hmethod]
      rfl

theorem sound_enter (h : Here L stack st scopes opening) (hset : set.Suits L)
    {callee : Callable} (hcallee : callee.Fits L st.store)
    {arguments : List Value} (harguments : ∀ v ∈ arguments, v.Fits L st.store)
    (harity : arguments.length = callee.arity) (line : Nat) :
    Sound L (enter set callee arguments line stack st) := by
  cases callee with
  | closure f => exact sound_enterBody h hcallee harguments harity line
  | cls c => exact sound_construct h hcallee harguments harity line
  | native function =>
    simp only [enter]
    cases hbehaviour : set.natives[function.id]? with
    | none => exact ⟨h.store, trivial⟩
    | some behaviour =>
      have hclosed := (hset.faithful _ _ hbehaviour).closed set.now arguments
      simp only
      cases hresult : behaviour set.now arguments with
      | error message => exact h.failed (by rintro _ _ ⟨⟩)
      | ok v =>
        refine h.value ?_
        rcases hclosed v hresult with hplain | hmem
        · exact hplain.fits
        · exact harguments v hmem

theorem sound_invoke (h : Here L stack st scopes opening) (hset : set.Suits L)
    {callee : Callable} (hcallee : callee.Fits L st.store)
    {arguments : List Value} (harguments : ∀ v ∈ arguments, v.Fits L st.store)
    (line : Nat) : Sound L (invoke set callee arguments line stack st) := by
  simp only [invoke]
  split
  · exact h.failed (by rintro _ _ ⟨⟩)
  · next harity =>
    split
    · exact h.failed (by rintro _ _ ⟨⟩)
    · have hwaits : Here L (.invocation :: stack)
          { st with depth := st.depth + 1 } scopes opening :=
        ⟨h.store, h.live, h.awaits⟩
      exact sound_enter hwaits hset hcallee harguments
        (Decidable.not_not.1 harity) line

theorem sound_settle (h : Here L stack st scopes opening) (hset : set.Suits L)
    {v : Value} (hv : v.Fits L st.store) (line : Nat) :
    Sound L (settle set v line stack st) := by
  cases v with
  | function f =>
    simp only [settle]
    split
    · have hcallee : (Callable.closure f).Fits L st.store := hv
      exact sound_invoke h hset hcallee (by simp) line
    · exact h.value hv
  | _ => exact h.value hv

theorem sound_passArguments (h : Here L stack st scopes opening)
    (hset : set.Suits L) {callee : Callable} (hcallee : callee.Fits L st.store)
    (line : Nat) {earlier : List Value}
    (hearlier : ∀ v ∈ earlier, v.Fits L st.store) {later : List Expr}
    (hlater : Expr.AllScoped L opening scopes later) :
    Sound L (passArguments set callee line earlier later stack st) := by
  cases later with
  | nil =>
    refine sound_invoke h hset hcallee ?_ line
    intro v hv
    exact hearlier v (List.mem_reverse.1 hv)
  | cons e later =>
    rw [Expr.AllScoped] at hlater
    exact ⟨h.store, scopes, opening, h.live, hlater.1,
      ⟨hcallee, hearlier, hlater.2⟩, h.awaits⟩

/-! ## Properties and classes -/

/-- A member is bound and handed on. -/
theorem sound_bound (h : Here L stack st scopes opening) (hset : set.Suits L)
    {method : Closure} (hmethod : method.FitsBound L st.store) {object : Value}
    (hobject : object.Fits L st.store) (line : Nat) :
    Sound L (settle set (.function (st.store.bindMethod method object).2) line
      stack { st with store := (st.store.bindMethod method object).1 }) := by
  obtain ⟨hstore, hevolves, hbound⟩ := h.store.bindMethod hmethod hobject h.lt
  have hfunction : (Value.function (st.store.bindMethod method object).2).Fits L
      (st.store.bindMethod method object).1 := hbound
  exact sound_settle (h.evolve hevolves hstore) hset hfunction line

theorem sound_readProperty (h : Here L stack st scopes opening)
    (hset : set.Suits L) {object : Value} (hobject : object.Fits L st.store)
    (id : ObjectId) {method? : String → Option Closure}
    (hmethod : ∀ name f, method? name = some f → f.FitsBound L st.store)
    (owner : String) (name : Ident) :
    Sound L (readProperty set object id method? owner name stack st) := by
  simp only [readProperty]
  split
  · next v hfield =>
    exact sound_settle h hset (h.store.fields _ _ _ hfield) name.line
  · split
    · next method hfound =>
      exact sound_bound h hset (hmethod _ _ hfound) hobject name.line
    · exact h.failed (by rintro _ _ ⟨⟩)

theorem sound_getProperty (h : Here L stack st scopes opening)
    (hset : set.Suits L) {object : Value} (hobject : object.Fits L st.store)
    (name : Ident) : Sound L (getProperty set object name stack st) := by
  cases object with
  | inst o =>
    have hclass : o.cls.Fits L st.store := hobject
    exact sound_readProperty h hset hobject _
      (fun name f hf => hclass.findMethod? hf) _ name
  | cls c =>
    have hclass : c.Fits L st.store := hobject
    exact sound_readProperty h hset hobject _
      (fun name f hf => hclass.findStatic? hf) _ name
  | _ => exact h.failed (by rintro _ _ ⟨⟩)

/-- A variable is read at the distance of its name. -/
theorem readAt_of_distance (h : Here L stack st scopes opening) {name : String}
    {d : Nat} (hd : Scope.distance scopes name = some d) (line : Nat) :
    ∃ v, st.store.readAt st.frame d name line = .ok v ∧ v.Fits L st.store ∧
      (name = Keyword.kwSuper.lexeme → v.IsClass) := by
  obtain ⟨f, v, hf, hv, hclass⟩ := h.live.shape.ancestor hd
  refine ⟨v, ?_, h.store.values _ _ _ hv, hclass⟩
  rw [Store.readAt, Store.getAt?, hf]
  simp only [hv, Store.orUndefined]

theorem sound_getSuper (h : Here L stack st scopes opening) (hset : set.Suits L)
    {id : Nat} {line : Nat} {method : Ident}
    (he : (Expr.super id line method).Scoped L opening scopes) :
    Sound L (getSuper set id line method stack st) ∨
      (Unbound L.program set ⟨.eval (.super id line method), stack, st⟩ ∧
        Fails st (getSuper set id line method stack st)) := by
  rw [Expr.Scoped] at he
  obtain ⟨hrecords, hplace⟩ := he
  have hentry : set.distances.find? id =
      Scope.distance scopes Keyword.kwSuper.lexeme := by
    rw [hset.distances, hrecords.find]
  rcases hplace with ⟨d, hsuper, hthis⟩ | ⟨hscopes, hran⟩
  · left
    obtain ⟨v, hread, hv, hclass⟩ := readAt_of_distance h hsuper line
    obtain ⟨c, rfl⟩ := hclass rfl
    obtain ⟨object, hobject, hfits, -⟩ := readAt_of_distance h hthis line
    have hc : c.Fits L st.store := hv
    rw [hsuper] at hentry
    simp only [getSuper, hentry, hread, bindSuper, hobject]
    split
    · exact h.failed (by rintro _ _ ⟨⟩)
    · next f hf => exact sound_bound h hset (hc.findMethod? hf) hfits method.line
  · right
    subst hscopes
    have hnone : set.distances.find? id = none := hentry
    simp only [getSuper, hnone]
    exact ⟨.super hnone hran, ⟨_, rfl⟩, rfl⟩

/-- The members of a class, made one after the other, fit the frame they
close over. -/
theorem fits_makeMembers {frame : FrameId} {store : Store}
    (hstore : store.Fits L) (hframe : store.Matches frame scopes)
    {list : List FunctionDecl}
    (hlist : FunctionDecl.AllScoped L list (thisScope :: scopes))
    {declaration : ClassDecl} {members : Members}
    (hmembers : (infoOf declaration (members, store)).Fits L store) :
    let made := makeMembers frame list members store
    made.2.Fits L ∧ (∀ n, Evolves n store made.2) ∧
      (infoOf declaration made).Fits L made.2 := by
  induction list generalizing members store with
  | nil => exact ⟨hstore, fun n => .refl n store, hmembers⟩
  | cons f rest ih =>
    rw [FunctionDecl.AllScoped] at hlist
    let next := (store.makeClosure f frame).1
    have hnext (n : FrameId) : Evolves n store next := .of_frames rfl
    have hold := hmembers.mono (hnext 0) (.refl L)
    have hclosure : Closure.FitsBound L next ⟨store.closures, f, frame⟩ :=
      ⟨scopes, hframe.evolve (hnext 0), hlist.1⟩
    simp only [makeMembers]
    generalize hlater : (if f.kind = .static then _ else _ : Members) = later
    have hmembers : (infoOf declaration (later, next)).Fits L next := by
      rw [← hlater]
      split
      · exact ⟨hold.methods, Table.forall_insert hold.statics _ hclosure⟩
      · exact ⟨Table.forall_insert hold.methods _ hclosure, hold.statics⟩
    obtain ⟨hfits, hevolves, hmade⟩ := ih (hstore.makeClosure f frame)
      (hframe.evolve (hnext 0)) hlist.2 hmembers
    exact ⟨hfits, fun n => (hnext n).trans (hevolves n), hmade⟩

/-- A class is given to its name, which the current frame holds. -/
theorem sound_nameClass {store : Store}
    (h : Here L stack { st with store := store } scopes opening) {name : Ident}
    (hname : Unreserved name.name)
    (hheld : (store.valueIn? st.frame name.name).isSome) {c : Class}
    (hc : c.Fits L store) : Sound L (nameClass name c store stack st) := by
  have howner : store.owner? st.frame name.name = some st.frame := by
    rw [Store.owner?_eq, if_pos hheld]
  have hadded : Evolves (st.frame + 1) store store.addObject := .of_frames rfl
  have hthere := h.evolve hadded h.store.addObject
  have hdefined : Evolves (st.frame + 1) store.addObject
      (store.addObject.define st.frame name.name (.cls c)) :=
    .define (fun hsuper => absurd hsuper hname.2) _ (.inr hheld)
  have hclass : (Value.cls c).Fits L store := hc
  have hdone := hthere.evolve hdefined (hthere.store.define hdefined
    ((hclass.evolve hadded).evolve hdefined))
  rw [nameClass, howner]
  exact hdone.completed trivial

theorem sound_makeClass_base (h : Here L stack st scopes opening)
    {declaration : ClassDecl} (hname : Unreserved declaration.name.name)
    (hheld : (st.store.valueIn? st.frame declaration.name.name).isSome)
    (hmembers : FunctionDecl.AllScoped L declaration.methods
      (thisScope :: scopes)) :
    Sound L (makeClass declaration none stack st) := by
  rw [makeClass_base]
  have hnone : (infoOf declaration (⟨.empty, .empty⟩, st.store)).Fits L
      st.store := ⟨by rintro _ _ ⟨⟩, by rintro _ _ ⟨⟩⟩
  obtain ⟨hfits, hevolves, hinfo⟩ := fits_makeMembers h.store h.live.shape
    hmembers hnone
  obtain ⟨v, hv⟩ := Option.isSome_iff_exists.1 hheld
  obtain ⟨v', hv', -⟩ := (hevolves 0).values _ _ _ hv
  exact sound_nameClass (h.evolve (hevolves _) hfits) hname
    (by rw [hv']; rfl) hinfo

theorem sound_makeClass_derived (h : Here L stack st scopes opening)
    {declaration : ClassDecl} (hname : Unreserved declaration.name.name)
    (hheld : (st.store.valueIn? st.frame declaration.name.name).isSome)
    {parent : Class} (hparent : parent.Fits L st.store)
    (hmembers : FunctionDecl.AllScoped L declaration.methods
      (thisScope :: superScope :: scopes)) :
    Sound L (makeClass declaration (some parent) stack st) := by
  rw [makeClass_derived]
  have hadded : Evolves (st.frame + 1) st.store (superStore parent st) :=
    .addFrame h.lt _ _
  have hlive : (superStore parent st).Live st.store.nextFrame
      (superScope :: scopes) none := by
    refine Store.live_addFrame h.live.shape ?_ ?_
    · intro name
      rw [superScope, Table.contains_insert, Table.find?_insert]
      by_cases hname : name = Keyword.kwSuper.lexeme
      · simp [hname]
      · simp [hname, Table.contains]
    · intro v hv
      cases hv
      exact ⟨parent, rfl⟩
  have hsuper : (superStore parent st).Fits L :=
    h.store.addFrame _ (Table.forall_single _ hparent)
  have hnone : (infoOf declaration (⟨.empty, .empty⟩, superStore parent st)).Fits
      L (superStore parent st) := ⟨by rintro _ _ ⟨⟩, by rintro _ _ ⟨⟩⟩
  obtain ⟨hfits, hevolves, hinfo⟩ := fits_makeMembers hsuper hlive.shape
    hmembers hnone
  have hall := hadded.trans (hevolves _)
  obtain ⟨v, hv⟩ := Option.isSome_iff_exists.1 hheld
  obtain ⟨v', hv', -⟩ := hall.values _ _ _ hv
  exact sound_nameClass (h.evolve hall hfits) hname (by rw [hv']; rfl)
    ⟨hinfo, hparent.mono hall (.refl L)⟩

end

end Machine

end Lox
