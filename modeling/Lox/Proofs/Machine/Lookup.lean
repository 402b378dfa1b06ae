import Lox.Proofs.Machine.Sound

/-!
# Lookups of a running machine

A step keeps a machine sound, unless it looks up an occurrence that nothing
binds; then the machine fails and its state stays as it was (`sound_step`).
So every machine of a run is safe: it is sound, or it has failed and its store
fits (`safe_runAlong`).

`Agrees` is what the scope rules promise about a step: what is looked up at a
distance is there, and a variable is undefined only if nothing binds it.  Safe
machines keep the promise (`agrees_of_safe`).
-/

namespace Lox.Machine

open Scope (addNames)
open Store (Evolves)

section

variable {L : Ledger} {set : Setting} {stack : List Pending} {st : State}
  {scopes : List (Table Bool)} {opening : Option String}

/-! ## Expressions -/

/-- An occurrence that the scopes hold is found at its distance; one that they
do not hold is looked up among the globals. -/
theorem lookUp_of_records (h : Here L stack st scopes opening)
    (hset : set.Suits L) {id : Nat} {name : String}
    (hrecords : L.Records id (Scope.distance scopes name)) (line : Nat) :
    (∃ v, lookUp set st id name line = .ok v ∧ v.Fits L st.store) ∨
      (set.distances.find? id = none ∧
        st.store.get? set.globals name = none ∧
        ∃ f, lookUp set st id name line = .error f) := by
  have hentry : set.distances.find? id = Scope.distance scopes name := by
    rw [hset.distances, hrecords.find]
  cases hd : Scope.distance scopes name with
  | some d =>
    obtain ⟨v, hread, hv, -⟩ := readAt_of_distance h hd line
    left
    refine ⟨v, ?_, hv⟩
    rw [lookUp, hentry, hd]
    exact hread
  | none =>
    rw [hd] at hentry
    cases hget : st.store.get? set.globals name with
    | none =>
      right
      refine ⟨hentry, rfl, .undefinedVariable name line, ?_⟩
      rw [lookUp, hentry]
      simp only [Store.read, hget, Store.orUndefined]
    | some v =>
      left
      have hread : lookUp set st id name line = .ok v := by
        rw [lookUp, hentry]
        simp only [Store.read, hget, Store.orUndefined]
      refine ⟨v, hread, ?_⟩
      unfold Store.get? at hget
      split at hget
      · exact h.store.values _ _ _ hget
      · cases hget

theorem sound_evaluate (h : Here L stack st scopes opening) (hset : set.Suits L)
    {e : Expr} (he : e.Scoped L opening scopes) :
    Sound L (evaluate set e stack st) ∨
      (Unbound L.program set ⟨.eval e, stack, st⟩ ∧ Fails st (evaluate set e stack st)) := by
  cases e with
  | literal value => exact .inl (h.value (Value.isData_ofLiteral value).isPlain.fits)
  | group inner =>
    rw [Expr.Scoped] at he
    exact .inl (h.eval he)
  | unary op line right =>
    rw [Expr.Scoped] at he
    exact .inl ⟨h.store, scopes, opening, h.live, he, h.awaits⟩
  | binary left op line right =>
    rw [Expr.Scoped] at he
    exact .inl ⟨h.store, scopes, opening, h.live, he.1, he.2, h.awaits⟩
  | logical left op line right =>
    rw [Expr.Scoped] at he
    exact .inl ⟨h.store, scopes, opening, h.live, he.1, he.2, h.awaits⟩
  | «variable» ref =>
    rw [Expr.Scoped] at he
    simp only [evaluate]
    rcases lookUp_of_records h hset he ref.line with
      ⟨v, hok, hv⟩ | ⟨hentry, hmissing, f, herror⟩
    · rw [hok]
      exact .inl (h.value hv)
    · rw [herror]
      exact .inr ⟨.read hentry hmissing, ⟨f, rfl⟩, rfl⟩
  | assign target value =>
    rw [Expr.Scoped] at he
    exact .inl ⟨h.store, scopes, opening, h.live, he.1, he.2, h.awaits⟩
  | call callee line arguments =>
    rw [Expr.Scoped] at he
    exact .inl ⟨h.store, scopes, opening, h.live, he.1, he.2, h.awaits⟩
  | get object name =>
    rw [Expr.Scoped] at he
    exact .inl ⟨h.store, scopes, opening, h.live, he, h.awaits⟩
  | set object name value =>
    rw [Expr.Scoped] at he
    exact .inl ⟨h.store, scopes, opening, h.live, he.1, he.2, h.awaits⟩
  | this id line =>
    rw [Expr.Scoped] at he
    simp only [evaluate]
    rcases lookUp_of_records h hset he line with
      ⟨v, hok, hv⟩ | ⟨hentry, hmissing, f, herror⟩
    · rw [hok]
      exact .inl (h.value hv)
    · rw [herror]
      exact .inr ⟨.this hentry hmissing, ⟨f, rfl⟩, rfl⟩
  | super id line method => exact sound_getSuper h hset he

/-! ## Statements -/

theorem evolves_define (s : Store) (frame : FrameId) {name : String}
    (hname : Unreserved name) (v : Value) :
    Evolves frame s (s.define frame name v) :=
  .define (fun hsuper => absurd hsuper hname.2) v (.inl (Nat.le_refl _))

/-- A declaration in the current frame. -/
theorem here_define (hstore : st.store.Fits L)
    (hlive : st.store.Live st.frame scopes opening) {name : String}
    (hname : Unreserved name)
    (hawaits : Awaits L st.store stack st.frame (addNames [name] scopes) none)
    {v : Value} (hv : v.Fits L (st.store.define st.frame name v)) :
    Here L stack (defineHere st name v) (addNames [name] scopes) none := by
  have hevolves := evolves_define st.store st.frame hname v
  exact ⟨hstore.define hevolves hv, hlive.define hname v,
    hawaits.evolve hevolves⟩

theorem sound_execute_class (hstore : st.store.Fits L)
    (hlive : st.store.Live st.frame scopes none) {declaration : ClassDecl}
    (hs : declaration.Scoped L scopes)
    (hawaits : Awaits L st.store stack st.frame
      (addNames [declaration.name.name] scopes) none) :
    Sound L (execute (.class declaration) stack st) := by
  obtain ⟨name, superclass, methods⟩ := declaration
  have hname : Unreserved name.name := by
    cases superclass <;> (rw [ClassDecl.Scoped] at hs; exact hs.1)
  have hnil : Value.nil.Fits L (st.store.define st.frame name.name .nil) :=
    trivial
  have hhere := here_define hstore hlive hname hawaits hnil
  have hheld : ((defineHere st name.name .nil).store.valueIn?
      (defineHere st name.name .nil).frame name.name).isSome = true := by
    rw [defineHere, Store.valueIn?_define, if_pos ⟨rfl, rfl, hlive.lt⟩]
    rfl
  cases superclass with
  | none =>
    rw [ClassDecl.Scoped] at hs
    exact sound_makeClass_base hhere hname hheld hs.2
  | some parent =>
    rw [ClassDecl.Scoped] at hs
    refine ⟨hhere.store, addNames [name.name] scopes, none, hhere.live, ?_,
      ⟨hheld, hname, hs.2.2⟩, hhere.awaits⟩
    rw [Expr.Scoped]
    exact hs.2.1

theorem sound_execute_function (hstore : st.store.Fits L)
    (hlive : st.store.Live st.frame scopes none) {f : FunctionDecl}
    (hname : Unreserved f.name.name) (hinitializer : f.isInitializer = false)
    (hscoped : f.Scoped L (addNames [f.name.name] scopes))
    (hawaits : Awaits L st.store stack st.frame
      (addNames [f.name.name] scopes) none) :
    Sound L (execute (.function f) stack st) := by
  let made : State :=
    { st with store := (st.store.makeClosure f st.frame).1 }
  let closure := (st.store.makeClosure f st.frame).2
  have hmade : Evolves (st.frame + 1) st.store made.store := .of_frames rfl
  have hlive' : made.store.Live made.frame scopes none :=
    hlive.evolve hmade (Nat.lt_succ_self _)
  have hawaits' : Awaits L made.store stack made.frame _ none :=
    hawaits.evolve (hmade.mono (Nat.le_succ _))
  -- The function can be seen in its own body, so its frame matches its
  -- scopes only when it has its name.
  have hfunction : (Value.function closure).Fits L
      (made.store.define made.frame f.name.name (.function closure)) := by
    refine ⟨_, (hlive'.define hname _).shape, hscoped, ?_⟩
    intro htrue
    rw [show f.isInitializer = true from htrue] at hinitializer
    cases hinitializer
  have hstore' : made.store.Fits L := hstore.makeClosure f st.frame
  exact (here_define hstore' hlive' hname hawaits' hfunction).completed trivial

theorem sound_execute (hstore : st.store.Fits L)
    (hlive : st.store.Live st.frame scopes none) {s : Stmt}
    (hs : s.Scoped L scopes)
    (hawaits : Awaits L st.store stack st.frame (addNames s.declared scopes)
      none) :
    Sound L (execute s stack st) := by
  cases s with
  | expression e =>
    rw [Stmt.Scoped] at hs
    rw [Stmt.declared, Scope.addNames_nil] at hawaits
    exact ⟨hstore, scopes, none, hlive, hs, hawaits⟩
  | print e =>
    rw [Stmt.Scoped] at hs
    rw [Stmt.declared, Scope.addNames_nil] at hawaits
    exact ⟨hstore, scopes, none, hlive, hs, hawaits⟩
  | var x initializer =>
    rw [Stmt.Scoped] at hs
    rw [Stmt.declared] at hawaits
    obtain ⟨hname, hfree, hinitializer⟩ := hs
    cases initializer with
    | none =>
      have hnil : Value.nil.Fits L (st.store.define st.frame x.name .nil) :=
        trivial
      exact (here_define hstore hlive hname hawaits hnil).completed trivial
    | some e =>
      exact ⟨hstore, scopes, _, hlive.open hfree, hinitializer, hname, hawaits⟩
  | block body =>
    rw [Stmt.Scoped] at hs
    rw [Stmt.declared, Scope.addNames_nil] at hawaits
    have hevolves : Evolves (st.frame + 1) st.store
        (st.store.addFrame (some st.frame) .empty) := .addFrame hlive.lt _ _
    have hinner : (st.store.addFrame (some st.frame) .empty).Live
        st.store.nextFrame (.empty :: scopes) none :=
      Store.live_addFrame hlive.shape (fun _ => rfl) (by rintro _ ⟨⟩)
    exact ⟨hstore.addFrame _ (by rintro _ _ ⟨⟩), .empty :: scopes, none, hinner,
      trivial, hs, hlive.lt, scopes, none, hlive.evolve hevolves (Nat.lt_succ_self _),
      hawaits.evolve (hevolves.mono (Nat.le_succ _))⟩
  | ifElse condition thenBranch elseBranch =>
    cases elseBranch with
    | none =>
      rw [Stmt.Scoped] at hs
      rw [Stmt.declared, hs.2.1, Scope.addNames_nil] at hawaits
      exact ⟨hstore, scopes, none, hlive, hs.1, ⟨hs.2, by rintro _ ⟨⟩⟩, hawaits⟩
    | some elseBranch =>
      rw [Stmt.Scoped] at hs
      rw [Stmt.declared, hs.2.1.1, hs.2.2.1, List.nil_append,
        Scope.addNames_nil] at hawaits
      refine ⟨hstore, scopes, none, hlive, hs.1, ⟨hs.2.1, ?_⟩, hawaits⟩
      intro s hs'
      cases hs'
      exact hs.2.2
  | «while» condition body =>
    rw [Stmt.Scoped] at hs
    rw [Stmt.declared, hs.2.1, Scope.addNames_nil] at hawaits
    exact ⟨hstore, scopes, none, hlive, hs.1, hs, hawaits⟩
  | function f =>
    rw [Stmt.Scoped] at hs
    rw [Stmt.declared] at hawaits
    obtain ⟨hname, hinitializer, hscoped⟩ := hs
    exact sound_execute_function hstore hlive hname hinitializer hscoped hawaits
  | «return» line value =>
    rw [Stmt.Scoped] at hs
    rw [Stmt.declared, Scope.addNames_nil] at hawaits
    cases value with
    | none => exact ⟨hstore, scopes, none, hlive, trivial, hawaits⟩
    | some e => exact ⟨hstore, scopes, none, hlive, hs, hawaits⟩
  | «class» declaration =>
    rw [Stmt.Scoped] at hs
    rw [Stmt.declared] at hawaits
    exact sound_execute_class hstore hlive hs hawaits

/-- A branch or a loop body is started in the scopes it stands in. -/
theorem sound_exec (hstore : st.store.Fits L)
    (hlive : st.store.Live st.frame scopes opening) {s : Stmt}
    (hs : FitsBranch L scopes s)
    (hawaits : Awaits L st.store stack st.frame scopes none) :
    Sound L ⟨.exec s, stack, st⟩ := by
  refine ⟨hstore, scopes, hlive.closed, hs.2, ?_⟩
  rw [hs.1, Scope.addNames_nil]
  exact hawaits

/-! ## Results -/

theorem ne_undefined_unary (op : UnaryOp) (line : Nat) (v : Value)
    (name : String) (line' : Nat) :
    op.apply line v ≠ .error (.undefinedVariable name line') := by
  unfold UnaryOp.apply
  split <;> rintro ⟨⟩

theorem ne_undefined_binary (op : BinaryOp) (line : Nat) (v v' : Value)
    (name : String) (line' : Nat) :
    op.apply line v v' ≠ .error (.undefinedVariable name line') := by
  cases op with
  | equal | notEqual => rintro ⟨⟩
  | add =>
    simp only [BinaryOp.apply, BinaryOp.sum]
    split <;> rintro ⟨⟩
  | _ =>
    simp only [BinaryOp.apply, BinaryOp.onNumbers]
    split <;> rintro ⟨⟩

/-- The target of an assignment is found at its distance, unless it is still
without a value. -/
theorem owner?_of_assigns (h : Here L stack st scopes opening)
    (hset : set.Suits L) {target : Ref}
    (htarget : L.Assigns opening scopes target) {d : Nat}
    (hd : set.distances.find? target.id = some d) :
    ∃ f, st.store.ancestor? st.frame d = some f ∧
      (target.id ∈ L.own → d = 0) ∧
      (owner? set st target = none ↔ target.id ∈ L.own) ∧
      (owner? set st target = some f ↔ target.id ∉ L.own) := by
  have hentry : (if opening = some target.name then some 0
      else Scope.distance scopes target.name) = some d := by
    rw [← htarget.records.find, ← hset.distances, hd]
  rw [htarget.own]
  by_cases hopening : opening = some target.name
  · rw [if_pos hopening] at hentry
    cases hentry
    have hunset := h.live.unset _ hopening
    have howner : owner? set st target = none := by
      simp only [owner?, hd, Store.ownerAt?, Store.ancestor?, hunset]
      rfl
    exact ⟨st.frame, rfl, fun _ => rfl, by simp [howner, hopening],
      by simp [howner, hopening]⟩
  · rw [if_neg hopening] at hentry
    obtain ⟨f, v, hf, hv, -⟩ := h.live.shape.ancestor hentry
    have howner : owner? set st target = some f := by
      simp only [owner?, hd, Store.ownerAt?, hf, hv]
      rfl
    exact ⟨f, hf, fun heq => absurd heq hopening, by simp [howner, hopening],
      by simp [howner, hopening]⟩

theorem sound_assign (h : Here L stack st scopes opening) (hset : set.Suits L)
    {target : Ref} (htarget : L.Assigns opening scopes target) {v : Value}
    (hv : v.Fits L st.store) :
    Sound L (assign set target v stack st) ∨
      (Unbound L.program set ⟨.value v, .assign target :: stack, st⟩ ∧
        Fails st (assign set target v stack st)) := by
  cases howner : owner? set st target with
  | some owner =>
    left
    have hheld : (st.store.valueIn? owner target.name).isSome = true := by
      unfold owner? at howner
      split at howner
      · unfold Store.ownerAt? at howner
        split at howner
        · split at howner
          · next hsome =>
            cases howner
            exact hsome
          · cases howner
        · cases howner
      · exact Store.isSome_of_owner? howner
    have hevolves : Evolves (st.frame + 1) st.store
        (st.store.define owner target.name v) :=
      .define (fun hsuper => absurd hsuper htarget.unreserved.2) v (.inr hheld)
    have hv' := hv.evolve hevolves
    have hthere := h.evolve hevolves (h.store.define hevolves hv')
    rw [assign, howner]
    exact hthere.value hv'
  | none =>
    right
    have hfails : Fails st (assign set target v stack st) := by
      rw [assign, howner]
      exact ⟨⟨_, rfl⟩, rfl⟩
    refine ⟨?_, hfails⟩
    cases hd : set.distances.find? target.id with
    | some d =>
      obtain ⟨f, -, -, hown, -⟩ := owner?_of_assigns h hset htarget hd
      exact .own (by simp [hd]) (hown.1 howner)
    | none =>
      refine .write hd ?_
      simp only [owner?, hd] at howner
      simp only [Store.get?, howner]

theorem sound_resume {pending : Pending} {v : Value}
    (h : Here L (pending :: stack) st scopes opening) (hset : set.Suits L)
    (hv : v.Fits L st.store) :
    Sound L (resume set v pending stack st) ∨
      (Unbound L.program set ⟨.value v, pending :: stack, st⟩ ∧
        Fails st (resume set v pending stack st)) := by
  obtain ⟨hstore, hlive, hawaits⟩ := h
  cases pending with
  | unary op line =>
    have hrest : Here L stack st scopes opening := ⟨hstore, hlive, hawaits⟩
    exact .inl (hrest.deliver (fun _ hw => (UnaryOp.isData_apply hw).isPlain.fits)
      (ne_undefined_unary op line v))
  | binaryLeft op line right =>
    exact .inl ⟨hstore, scopes, opening, hlive, hawaits.1, hawaits.2⟩
  | binaryRight left op line =>
    have hrest : Here L stack st scopes opening := ⟨hstore, hlive, hawaits⟩
    exact .inl (hrest.deliver (fun _ hw => (BinaryOp.isData_apply hw).isPlain.fits)
      (ne_undefined_binary op line left v))
  | logical op right =>
    have hrest : Here L stack st scopes opening := ⟨hstore, hlive, hawaits.2⟩
    simp only [resume]
    split
    · exact .inl (hrest.value hv)
    · exact .inl (hrest.eval hawaits.1)
  | assign target =>
    have hrest : Here L stack st scopes opening := ⟨hstore, hlive, hawaits.2⟩
    exact sound_assign hrest hset hawaits.1 hv
  | callee line arguments =>
    have hrest : Here L stack st scopes opening := ⟨hstore, hlive, hawaits.2⟩
    simp only [resume]
    split
    · next c hc =>
      exact .inl (sound_passArguments hrest hset (hv.callable? hc) line (by simp)
        hawaits.1)
    · exact .inl (hrest.failed (by rintro _ _ ⟨⟩))
  | argument c line earlier later =>
    obtain ⟨⟨hcallee, hearlier, hlater⟩, hwaits⟩ := hawaits
    have hrest : Here L stack st scopes opening := ⟨hstore, hlive, hwaits⟩
    have hvalues : ∀ w ∈ v :: earlier, w.Fits L st.store :=
      List.forall_mem_cons.2 ⟨hv, hearlier⟩
    exact .inl (sound_passArguments hrest hset hcallee line hvalues hlater)
  | get name =>
    have hrest : Here L stack st scopes opening := ⟨hstore, hlive, hawaits⟩
    exact .inl (sound_getProperty hrest hset hv name)
  | setObject name value =>
    have hrest : Here L stack st scopes opening := ⟨hstore, hlive, hawaits.2⟩
    simp only [resume]
    split
    · exact .inl ⟨hstore, scopes, opening, hlive, hawaits.1, hawaits.2⟩
    · exact .inl (hrest.failed (by rintro _ _ ⟨⟩))
  | setValue object name =>
    have hrest : Here L stack st scopes opening := ⟨hstore, hlive, hawaits⟩
    have hevolves : Evolves (st.frame + 1) st.store
        (st.store.setField object name v) := .of_frames rfl
    exact .inl ((hrest.evolve hevolves (hstore.setField object name hv)).value
      (hv.evolve hevolves))
  | construct object =>
    have hrest : Here L stack st scopes opening := ⟨hstore, hlive, hawaits.2⟩
    have hobject : (Value.inst object).Fits L st.store := hawaits.1
    exact .inl (hrest.value hobject)
  | invocation =>
    have hrest : Here L stack st scopes opening := ⟨hstore, hlive, hawaits⟩
    exact .inl ((hrest.withDepth _).value hv)
  | discard =>
    have hrest : Here L stack st scopes none := ⟨hstore, hlive.closed, hawaits⟩
    exact .inl (hrest.completed trivial)
  | print =>
    simp only [resume, printValue]
    split
    · exact .inl ⟨hstore, scopes, none, hlive.closed, trivial, hawaits⟩
    · exact .inl ⟨hstore, by rintro _ _ ⟨⟩⟩
  | define name =>
    have hevolves := evolves_define st.store st.frame hawaits.1 v
    exact .inl ((here_define hstore hlive hawaits.1 hawaits.2
      (hv.evolve hevolves)).completed trivial)
  | branch thenBranch elseBranch =>
    obtain ⟨⟨hthen, helse⟩, hwaits⟩ := hawaits
    simp only [resume]
    split
    · exact .inl (sound_exec hstore hlive hthen hwaits)
    · cases elseBranch with
      | none => exact .inl ⟨hstore, scopes, none, hlive.closed, trivial, hwaits⟩
      | some elseBranch =>
        exact .inl (sound_exec hstore hlive (helse elseBranch rfl) hwaits)
  | loopTest condition inner =>
    obtain ⟨⟨hcondition, hinner⟩, hwaits⟩ := hawaits
    simp only [resume]
    split
    · have hloop : Awaits L st.store (.loopBody condition inner :: stack) st.frame
          scopes none := ⟨⟨hcondition, hinner⟩, hwaits⟩
      exact .inl (sound_exec hstore hlive hinner hloop)
    · exact .inl ⟨hstore, scopes, none, hlive.closed, trivial, hwaits⟩
  | giveBack => exact .inl ⟨hstore, scopes, none, hlive.closed, hv, hawaits⟩
  | superclass declaration line =>
    obtain ⟨⟨hheld, hname, hmembers⟩, hwaits⟩ := hawaits
    have hrest : Here L stack st scopes none := ⟨hstore, hlive.closed, hwaits⟩
    cases v with
    | cls parent =>
      exact .inl (sound_makeClass_derived hrest hname hheld hv hmembers)
    | _ => exact .inl (hrest.failed (by rintro _ _ ⟨⟩))
  | loopBody | block | body | program => exact .inl ⟨hstore, trivial⟩

/-- The value of a call.  An initializer finds its instance in the frame it
is bound in. -/
theorem sound_resultOf (h : Here L stack st scopes opening) {f : Closure}
    (hf : f.Fits L st.store) (line : Nat) {c : Completion}
    (hc : c.Fits L st.store) :
    Sound L (deliver (resultOf f line c st.store) stack st) := by
  obtain ⟨outer, hmatches, -, hinitializer⟩ := hf
  unfold resultOf
  split
  · next htrue =>
    obtain ⟨g, v, hg, hv, -⟩ := hmatches.ancestor (hinitializer htrue)
    have hread : st.store.readAt f.frame 0 Keyword.kwThis.lexeme line =
        .ok v := by
      rw [Store.readAt, Store.getAt?, hg]
      simp only [hv, Store.orUndefined]
    rw [hread]
    exact h.value (h.store.values _ _ _ hv)
  · cases c with
    | normal => exact h.value trivial
    | returned v => exact h.value hc

theorem sound_complete {pending : Pending} {c : Completion}
    (h : Here L (pending :: stack) st scopes opening) (hc : c.Fits L st.store) :
    Sound L (complete c pending stack st) := by
  obtain ⟨hstore, hlive, hawaits⟩ := h
  cases pending with
  | loopBody condition inner =>
    obtain ⟨⟨hcondition, hinner⟩, hwaits⟩ := hawaits
    cases c with
    | normal =>
      exact ⟨hstore, scopes, none, hlive.closed, hcondition,
        ⟨hcondition, hinner⟩, hwaits⟩
    | returned v => exact ⟨hstore, scopes, none, hlive.closed, hc, hwaits⟩
  | block later saved =>
    obtain ⟨hlater, hlt, scopes', opening', hlive', hwaits⟩ := hawaits
    cases c with
    | normal =>
      cases later with
      | nil => exact ⟨hstore, scopes', opening', hlive', hc, hwaits⟩
      | cons s later =>
        rw [Stmt.AllScoped] at hlater
        exact ⟨hstore, scopes, hlive.closed, hlater.1, hlater.2, hlt, scopes',
          opening', hlive', hwaits⟩
    | returned v => exact ⟨hstore, scopes', opening', hlive', hc, hwaits⟩
  | body f line =>
    have hrest : Here L stack st scopes opening := ⟨hstore, hlive, hawaits.2⟩
    exact sound_resultOf hrest hawaits.1 line hc
  | program later =>
    obtain ⟨hlater, rfl⟩ := hawaits
    cases c with
    | normal =>
      cases later with
      | nil => exact ⟨hstore, scopes, none, hlive.closed, hc, trivial⟩
      | cons s later =>
        rw [Stmt.AllScoped] at hlater
        exact ⟨hstore, scopes, hlive.closed, hlater.1, hlater.2, rfl⟩
    | returned v => exact ⟨hstore, scopes, none, hlive.closed, hc, trivial⟩
  | _ => exact ⟨hstore, trivial⟩

end

/-! ## Runs -/

variable {L : Ledger} {set : Setting}

/-- A step keeps a machine sound, unless it looks up an occurrence that
nothing binds. -/
theorem sound_step {m : Machine} (h : Sound L m) (hset : set.Suits L) :
    Sound L (step set m) ∨
      (Unbound L.program set m ∧ Fails m.state (step set m)) := by
  obtain ⟨control, stack, st⟩ := m
  obtain ⟨hstore, hcontrol⟩ := h
  cases control with
  | eval e =>
    obtain ⟨scopes, opening, hlive, he, hawaits⟩ := hcontrol
    exact sound_evaluate ⟨hstore, hlive, hawaits⟩ hset he
  | exec s =>
    obtain ⟨scopes, hlive, hs, hawaits⟩ := hcontrol
    exact .inl (sound_execute hstore hlive hs hawaits)
  | value v =>
    cases stack with
    | nil => exact .inl ⟨hstore, hcontrol⟩
    | cons pending stack =>
      obtain ⟨scopes, opening, hlive, hv, hawaits⟩ := hcontrol
      exact sound_resume ⟨hstore, hlive, hawaits⟩ hset hv
  | completed c =>
    cases stack with
    | nil => exact .inl ⟨hstore, hcontrol⟩
    | cons pending stack =>
      obtain ⟨scopes, opening, hlive, hc, hawaits⟩ := hcontrol
      exact .inl (sound_complete ⟨hstore, hlive, hawaits⟩ hc)
  | failed f =>
    cases stack with
    | nil => exact .inl ⟨hstore, hcontrol⟩
    | cons pending stack =>
      have hunwind : (unwind pending st).store = st.store := by
        cases pending <;> rfl
      exact .inl ⟨hunwind ▸ hstore, hcontrol⟩
  | stuck => exact .inl ⟨hstore, trivial⟩

/-- The machine is sound, or it has failed and left behind a store that
fits. -/
def Safe (L : Ledger) (m : Machine) : Prop :=
  Sound L m ∨ (∃ f, m.control = .failed f) ∧ m.state.store.Fits L

theorem Safe.store {m : Machine} (h : Safe L m) : m.state.store.Fits L :=
  h.elim Sound.store And.right

theorem safe_step {m : Machine} (h : Safe L m) (hset : set.Suits L) :
    Safe L (step set m) := by
  rcases h with hsound | ⟨⟨f, hf⟩, hstore⟩
  · rcases sound_step hsound hset with hsound' | ⟨-, hfails⟩
    · exact .inl hsound'
    · refine .inr ⟨hfails.control, ?_⟩
      rw [hfails.state]
      exact hsound.store
  · obtain ⟨control, stack, st⟩ := m
    cases hf
    cases stack with
    | nil => exact .inr ⟨⟨f, rfl⟩, hstore⟩
    | cons pending stack =>
      have hunwind : (unwind pending st).store = st.store := by
        cases pending <;> rfl
      exact .inr ⟨⟨f, rfl⟩, hunwind ▸ hstore⟩

/-- Every machine of a run that starts safe is safe. -/
theorem safe_runAlong {setting : Float → Setting}
    (hset : ∀ now, (setting now).Suits L) {m : Machine} (h : Safe L m)
    (times : List Float) : Safe L (runAlong setting times m) :=
  runAlong_induction (fun now _ hm => safe_step hm (hset now)) h times

/-! ## What is found -/

/-- The scope rules and the machine agree on what is looked up next. -/
structure Agrees (program : List Stmt) (set : Setting) (m : Machine) :
    Prop where
  /-- A variable with a distance is found at that distance. -/
  read : ∀ ref d, m.control = .eval (.variable ref) →
    set.distances.find? ref.id = some d →
    ∃ f v, m.state.store.ancestor? m.state.frame d = some f ∧
      m.state.store.valueIn? f ref.name = some v ∧
      step set m = ⟨.value v, m.stack, m.state⟩
  /-- So is a `this` with a distance. -/
  this : ∀ id line d, m.control = .eval (.this id line) →
    set.distances.find? id = some d →
    ∃ f v, m.state.store.ancestor? m.state.frame d = some f ∧
      m.state.store.valueIn? f Keyword.kwThis.lexeme = some v ∧
      step set m = ⟨.value v, m.stack, m.state⟩
  /-- A `super` of the program has a distance, where a class is found, and
  `this` is found one frame further in. -/
  super : ∀ id line method, m.control = .eval (.super id line method) →
    id ∈ Stmt.idsAll program →
    ∃ d f c g v, set.distances.find? id = some (d + 1) ∧
      m.state.store.ancestor? m.state.frame (d + 1) = some f ∧
      m.state.store.valueIn? f Keyword.kwSuper.lexeme = some (.cls c) ∧
      m.state.store.ancestor? m.state.frame d = some g ∧
      m.state.store.valueIn? g Keyword.kwThis.lexeme = some v
  /-- An assignment with a distance has a frame there.  It fails if it lies
  inside the initializer of its own variable, which is one of the current
  frame, and stores the value in that frame otherwise. -/
  assign : ∀ v target rest d, m.control = .value v →
    m.stack = .assign target :: rest →
    set.distances.find? target.id = some d →
    ∃ f, m.state.store.ancestor? m.state.frame d = some f ∧
      (target.id ∈ Stmt.ownAssignsAll program false → d = 0) ∧
      ((step set m).control =
          .failed (.undefinedVariable target.name target.line) ↔
        target.id ∈ Stmt.ownAssignsAll program false) ∧
      (target.id ∉ Stmt.ownAssignsAll program false →
        step set m = ⟨.value v, rest, { m.state with
          store := m.state.store.define f target.name v }⟩)
  /-- A variable is undefined only if nothing binds it. -/
  undefined : ∀ name line, (∀ f, m.control ≠ .failed f) →
    (step set m).control = .failed (.undefinedVariable name line) →
    Unbound program set m

/-- A name that the scopes hold is found at its distance. -/
theorem found_of_records {stack : List Pending} {st : State}
    {scopes : List (Table Bool)} {opening : Option String}
    (h : Here L stack st scopes opening) (hset : set.Suits L) {id d : Nat}
    {name : String} (hrecords : L.Records id (Scope.distance scopes name))
    (hd : set.distances.find? id = some d) (line : Nat) :
    ∃ f v, st.store.ancestor? st.frame d = some f ∧
      st.store.valueIn? f name = some v ∧
      deliver (lookUp set st id name line) stack st = ⟨.value v, stack, st⟩ := by
  have hdistance : Scope.distance scopes name = some d := by
    rw [← hrecords.find, ← hset.distances, hd]
  obtain ⟨f, v, hf, hv, -⟩ := h.live.shape.ancestor hdistance
  refine ⟨f, v, hf, hv, ?_⟩
  rw [lookUp, hd]
  simp only [Store.readAt, Store.getAt?, hf, hv, Store.orUndefined, deliver]

/-- In a sound machine every lookup finds what the scope rules promise. -/
theorem agrees_of_sound {m : Machine} (h : Sound L m) (hset : set.Suits L) :
    Agrees L.program set m := by
  have hstep := sound_step h hset
  obtain ⟨control, stack, st⟩ := m
  obtain ⟨hstore, hcontrol⟩ := h
  refine ⟨?_, ?_, ?_, ?_, ?_⟩
  · rintro ref d rfl hd
    obtain ⟨scopes, opening, hlive, he, hawaits⟩ := hcontrol
    rw [Expr.Scoped] at he
    have hhere : Here L stack st scopes opening := ⟨hstore, hlive, hawaits⟩
    exact found_of_records hhere hset he hd ref.line
  · rintro id line d rfl hd
    obtain ⟨scopes, opening, hlive, he, hawaits⟩ := hcontrol
    rw [Expr.Scoped] at he
    have hhere : Here L stack st scopes opening := ⟨hstore, hlive, hawaits⟩
    exact found_of_records hhere hset he hd line
  · rintro id line method rfl hran
    obtain ⟨scopes, opening, hlive, he, -⟩ := hcontrol
    rw [Expr.Scoped] at he
    obtain ⟨hrecords, hplace⟩ := he
    obtain ⟨d, hsuper, hthis⟩ := hplace.resolve_right fun hout => hout.2 hran
    obtain ⟨f, v, hf, hv, hclass⟩ := hlive.shape.ancestor hsuper
    obtain ⟨g, w, hg, hw, -⟩ := hlive.shape.ancestor hthis
    obtain ⟨c, rfl⟩ := hclass rfl
    refine ⟨d, f, c, g, w, ?_, hf, hv, hg, hw⟩
    rw [hset.distances, hrecords.find, hsuper]
  · rintro v target rest d rfl rfl hd
    obtain ⟨scopes, opening, hlive, -, htarget, hawaits⟩ := hcontrol
    have hhere : Here L rest st scopes opening := ⟨hstore, hlive, hawaits⟩
    obtain ⟨f, hf, hinnermost, hnone, hsome⟩ :=
      owner?_of_assigns hhere hset htarget hd
    refine ⟨f, hf, hinnermost, ?_, ?_⟩
    · have hcases : (step set ⟨.value v, .assign target :: rest, st⟩).control =
          .failed (.undefinedVariable target.name target.line) ↔
          owner? set st target = none := by
        simp only [step, resume, assign]
        cases owner? set st target <;> simp
      rw [hcases]
      exact hnone
    · intro hown
      simp only [step, resume, assign, hsome.2 hown]
  · intro name line hrunning hfailed
    rcases hstep with hsound | ⟨hunbound, -⟩
    · have hfits := hsound.control
      rw [hfailed] at hfits
      exact absurd rfl (hfits name line)
    · exact hunbound

/-- In a machine that has failed nothing is looked up. -/
theorem agrees_of_failed {program : List Stmt} {m : Machine}
    (h : ∃ f, m.control = .failed f) : Agrees program set m := by
  obtain ⟨f, hf⟩ := h
  refine ⟨?_, ?_, ?_, ?_, ?_⟩
  · intro ref d hcontrol
    rw [hf] at hcontrol
    cases hcontrol
  · intro id line d hcontrol
    rw [hf] at hcontrol
    cases hcontrol
  · intro id line method hcontrol
    rw [hf] at hcontrol
    cases hcontrol
  · intro v target rest d hcontrol
    rw [hf] at hcontrol
    cases hcontrol
  · exact fun name line hrunning => absurd hf (hrunning f)

theorem agrees_of_safe {m : Machine} (h : Safe L m) (hset : set.Suits L) :
    Agrees L.program set m :=
  h.elim (fun hsound => agrees_of_sound hsound hset)
    fun hfailed => agrees_of_failed hfailed.1

end Lox.Machine
