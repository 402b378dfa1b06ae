import Lox.Proofs.Machine.Returning
import Lox.Proofs.Session.Fields

/-!
# Frames of `this` and `super` are constant

On the course of an interpreter, with whatever distances, a frame that holds
`this` or `super` was made for it: by binding a method, or by declaring a class.
It holds that one name, and it keeps it (`Course.steady`).  Code that assigns to
variables cannot get at it, for no name of a program is `this` or `super`; and
no code is ever run in it, so that nothing is declared in it.

So the receiver of an initializer is there when its body has ended, whatever the
body has done, and calls of classes and of initializers give their instance
(`constructors_give_instances`).
-/

namespace Lox

open Machine (Behaviour Call Has Log Sane Setting eq_of_class_call
  eq_of_initializer_call housed_nextCall idle later_alone leads_step nextCall?
  objectId? of_nextCall? resultOf_initializer runAlong step_eq_alone)
open Store (Grows Later)

namespace Machine

/-- The step has made the frame, which holds the name with the value: it has
bound a method, or taken up the superclass of a class. -/
def MadeBy (x : Setting × Machine) (frame : FrameId) (name : String)
    (v : Value) : Prop :=
  ∃ s s', Grows x.2.state.store s ∧ s.Makes frame name v s' ∧
    Grows s' (step x.1 x.2).state.store

/-- All values that a machine has at hand while it hands on a value are
housed. -/
theorem housed_has {C : Chronicle} {m : Machine} (h : C.Live m)
    (hstore : m.state.store.All (Value.Housed C m.state.store)) {v : Value}
    (hv : m.control = .value v) {w : Value} (hw : m.Has w) :
    w.Housed C m.state.store := by
  obtain ⟨control, stack, st⟩ := m
  cases hv
  obtain ⟨home, -, hvalue, hstack⟩ := h.of_value
  have hwaits {pending : Pending} (hmem : pending ∈ stack)
      (hne : ∀ declaration line, pending ≠ .superclass declaration line) :
      pending.Housed C st.store :=
    (hstack pending hmem).resolve_right fun ⟨_, _, heq⟩ => hne _ _ heq
  cases hw with
  | «variable» held => exact hstore.values _ _ w held
  | field held => exact hstore.fields _ _ w held
  | result control =>
    cases control
    exact hvalue
  | returned control => cases control
  | operand waits => exact hwaits waits (by rintro _ _ ⟨⟩)
  | argument waits given => exact (hwaits waits (by rintro _ _ ⟨⟩)).2 w given
  | object waits => exact hwaits waits (by rintro _ _ ⟨⟩)

/-- The objects among them are those of the store. -/
theorem lt_of_objectId? {C : Chronicle} {s : Store} {v : Value}
    (h : v.Housed C s) {id : ObjectId} (hid : objectId? v = some id) :
    id < s.fields.size := by
  cases v with
  | inst object =>
    cases hid
    exact h.1
  | cls c =>
    cases hid
    have hclass : c.Housed C s := h
    exact hclass.objects c c.mem_lineage_self
  | _ => cases hid

theorem isGetter_of_isInitializer {f : Closure}
    (h : f.declaration.isInitializer = true) : f.isGetter = false := by
  simp only [FunctionDecl.isInitializer, Bool.and_eq_true, beq_iff_eq] at h
  simp [Closure.isGetter, h.1]

end Machine

open Machine (MadeBy housed_has isGetter_of_isInitializer lt_of_objectId?)

/-! ## Frames -/

/-- What holds on the course of an interpreter: code is housed, the frame of the
globals is a root, and where `this` and `super` are found. -/
structure Steady (given : List String) (log : Log) (m : Machine) : Prop where
  housed : Chronicle.any.Housed m
  inside : Session.globals < m.state.store.frames.size
  root : m.state.store.parent? Session.globals = none
  origin : ∀ frame name v, ¬ Unreserved name →
    m.state.store.valueIn? frame name = some v →
    (frame = Session.globals ∧ name ∈ given) ∨
      (m.state.store.Sealed frame name v ∧ ∃ x ∈ log, MadeBy x frame name v)
  later : ∀ x ∈ log, Later x.2.state.store m.state.store
  sealed : ∀ x ∈ log, ∀ frame name v, frame ≠ Session.globals →
    ¬ Unreserved name → x.2.state.store.valueIn? frame name = some v →
    x.2.state.store.Sealed frame name v

namespace Steady

variable {given : List String} {log : Log} {m : Machine}

/-- Code of no home can run in the frame of the globals. -/
theorem lives (h : Steady given log m) :
    Chronicle.any.Lives m.state.store Session.globals none :=
  ⟨h.inside, .inl h.root, trivial⟩

/-- A machine that starts in the same store. -/
theorem start (h : Steady given log m) {m' : Machine}
    (hstore : m'.state.store = m.state.store)
    (hlive : Chronicle.any.Live m') : Steady given log m' where
  housed := ⟨by rw [hstore]; exact h.housed.store, fun _ _ => hlive⟩
  inside := by rw [hstore]; exact h.inside
  root := by rw [hstore]; exact h.root
  origin := by rw [hstore]; exact h.origin
  later := by rw [hstore]; exact h.later
  sealed := h.sealed

theorem native (h : Steady given log m) (n : Native) :
    Steady (n.name :: given) log (idle { m.state with
      store := m.state.store.define Session.globals n.name (.native n)
      frame := Session.globals }) := by
  have hlater := Later.define_root h.root n.name (.native n)
  have hnative : (Value.native n).Housed Chronicle.any m.state.store := trivial
  have hroot : (m.state.store.define Session.globals n.name (.native n)).parent?
      Session.globals = none := by
    rw [Store.parent?_define, h.root]
  refine ⟨⟨?_, fun _ _ => ?_⟩, ?_, hroot, ?_, ?_, h.sealed⟩
  · exact (h.housed.store.define Session.globals n.name hnative).mono
      fun _ hv => hv.mono hlater
  · exact .completed (h.lives.mono hlater) trivial trivial
  · exact Nat.lt_of_lt_of_le h.inside hlater.size
  · intro frame name v hname hv
    have hold : (frame = Session.globals ∧ name = n.name) ∨
        m.state.store.valueIn? frame name = some v := by
      simp only [idle, Store.valueIn?_define] at hv
      split at hv
      · next hsame => exact .inl ⟨hsame.1, hsame.2.1⟩
      · exact .inr hv
    rcases hold with ⟨rfl, rfl⟩ | hold
    · exact .inl ⟨rfl, List.mem_cons_self⟩
    · rcases h.origin frame name v hname hold with ⟨rfl, hgiven⟩ | ⟨hsealed, hmade⟩
      · exact .inl ⟨rfl, List.mem_cons_of_mem _ hgiven⟩
      · exact .inr ⟨hlater.sealed _ _ _ hname hsealed, hmade⟩
  · exact fun x hx => (h.later x hx).trans hlater

theorem step (h : Steady given log m)
    {fields : ObjectId → String → Option Value} (hsane : Sane fields m)
    {set : Setting} (hset : set.All Behaviour.Honest) :
    Steady given (log ++ [(set, m)]) (Machine.step set m) := by
  have hleads : Chronicle.any.Leads m.state.store (Machine.step set m) :=
    leads_step h.housed trivial hsane hset
  have hlater := hleads.grows.later
  refine ⟨hleads.toHoused, Nat.lt_of_lt_of_le h.inside hlater.size, ?_, ?_, ?_, ?_⟩
  · rw [hlater.parent_eq _ h.inside, h.root]
  · intro frame name v hname hv
    rcases hleads.grows.origin hname hv with hold | ⟨s, s', hbefore, hmade, hafter⟩
    · rcases h.origin frame name v hname hold with hgiven | ⟨hsealed, x, hx, hmade⟩
      · exact .inl hgiven
      · exact .inr ⟨hlater.sealed _ _ _ hname hsealed, x,
          List.mem_append_left _ hx, hmade⟩
    · exact .inr ⟨hafter.later.sealed _ _ _ hname hmade.sealed, (set, m),
        List.mem_append_right _ List.mem_cons_self, s, s', hbefore, hmade, hafter⟩
  · intro x hx
    rcases List.mem_append.1 hx with hx | hx
    · exact (h.later x hx).trans hlater
    · rw [List.mem_singleton.1 hx]
      exact hlater
  · intro x hx frame name v hframe hname hv
    rcases List.mem_append.1 hx with hx | hx
    · exact h.sealed x hx frame name v hframe hname hv
    · rw [List.mem_singleton.1 hx] at hv ⊢
      exact ((h.origin frame name v hname hv).resolve_left
        fun hroot => hframe hroot.1).1

end Steady

/-- The store that holds only the frame of the globals is steady. -/
theorem steady_empty (sink : Sink) :
    Steady [] [] (idle ⟨Store.empty.addFrame none .empty, sink, Session.globals,
      0⟩) := by
  have hlives : Chronicle.any.Lives (Store.empty.addFrame none .empty)
      Session.globals none := ⟨Nat.zero_lt_one, .inl rfl, trivial⟩
  have hnone : (Store.empty.addFrame none .empty).All fun _ => False := .start
  exact ⟨⟨.start, fun _ _ => .completed hlives trivial trivial⟩,
    Nat.zero_lt_one, rfl, fun frame name v _ hv =>
      (hnone.values frame name v hv).elim, by rintro _ ⟨⟩, by rintro _ ⟨⟩⟩

/-- An interpreter is steady on its course. -/
theorem Course.steady {given : List String} {log : Log} {m : Machine}
    (h : Course Behaviour.Honest given log m) : Steady given log m := by
  induction h with
  | new maxDepth sink => exact (steady_empty sink).native ⟨0, "clock", 0⟩
  | native _ n ih => exact ih.native n
  | @program given log m _ source firstId st store frame ih =>
    have hlives : Chronicle.any.Lives st.store st.frame none := by
      rw [frame, store]
      exact ih.lives
    exact ih.start store (.completed hlives
      ⟨Chronicle.covers_any _, trivial, none, rfl, trivial⟩ trivial)
  | @expr given log m _ source firstId e parsed st store frame ih =>
    have hlives : Chronicle.any.Lives st.store st.frame none := by
      rw [frame, store]
      exact ih.lives
    exact ih.start store (.eval hlives trivial (Chronicle.covers_any _))
  | step hcourse allowed ih =>
    exact ih.step (hcourse.mono fun _ => Behaviour.Honest.sparing).sane allowed

/-! ## Constructors -/

namespace Steady

variable {given : List String} {log : Log} {m : Machine} {set : Setting}
  {c : Call} {setting : Float → Setting} {times : List Float}
  {v : Value}

/-- The call of a class gives a new instance. -/
theorem class_call (h : Steady given log m) (hc : nextCall? set m = some c)
    {cls : Class} (hcls : c.callee = .cls cls)
    (hv : (runAlong setting times (c.alone set)).outcome? = some (.value v)) :
    ∃ object, v = .inst object ∧ object.cls = cls ∧
      ∀ w, m.Has w → objectId? w ≠ some object.id := by
  have hgetter : ∀ f, c.callee = .closure f → f.isGetter = false := by
    rw [hcls]
    rintro f ⟨⟩
  have hlive := h.housed.live set trivial
  obtain ⟨hstate, -⟩ := housed_nextCall hlive hc hgetter
  have hcontrol : ∃ u, m.control = .value u := by
    rcases of_nextCall? hc with ⟨f, hf, -⟩ | ⟨u, pending, hm, -⟩
    · rw [hcls] at hf
      cases hf
    · exact ⟨u, congrArg Machine.control hm⟩
  obtain ⟨u, hu⟩ := hcontrol
  rw [Call.alone, hcls, hstate] at hv
  refine ⟨_, eq_of_class_call hv, rfl, fun w hw hid => ?_⟩
  have hlt := lt_of_objectId? (housed_has hlive h.housed.store hu hw) hid
  exact Nat.lt_irrefl _ hlt

/-- The call of an initializer gives its receiver. -/
theorem initializer_call (h : Steady given log m)
    {fields : ObjectId → String → Option Value} (hsane : Sane fields m)
    (hset : set.All Behaviour.Honest) (hc : nextCall? set m = some c)
    {f : Closure} (hf : c.callee = .closure f)
    (hinit : f.declaration.isInitializer = true)
    (hsetting : ∀ now, (setting now).All Behaviour.Honest)
    (hv : (runAlong setting times (c.alone set)).outcome? = some (.value v)) :
    m.state.store.Sealed f.frame Keyword.kwThis.lexeme v := by
  have hgetter : ∀ g, c.callee = .closure g → g.isGetter = false := by
    rw [hf]
    rintro g ⟨⟩
    exact isGetter_of_isInitializer hinit
  obtain ⟨-, hcallee, -⟩ :=
    housed_nextCall (h.housed.live set trivial) hc hgetter
  rw [hf] at hcallee
  have hhoused : f.Housed Chronicle.any m.state.store := hcallee
  obtain ⟨receiver, hreceiver⟩ := hhoused.receiver hinit
  have hkept (first : List Float) := (later_alone h.housed hsane hset hc hgetter
    hsetting first).sealed _ _ _ not_unreserved_this hreceiver
  simp only [Call.alone, hf] at hkept hv
  rw [eq_of_initializer_call hinit hkept hv]
  exact hreceiver

/-- The receiver of an initializer is there when its body has ended. -/
theorem initializer_end (h : Steady given log m) {e : Completion} {f : Closure}
    {line : Nat} {rest : List Machine.Pending}
    (hcontrol : m.control = .completed e)
    (hstack : m.stack = .body f line :: rest)
    (hinit : f.declaration.isInitializer = true) :
    ∃ receiver, m.state.store.Sealed f.frame Keyword.kwThis.lexeme receiver ∧
      ∀ set, Machine.step set m = ⟨.value receiver, rest, m.state⟩ := by
  obtain ⟨control, stack, st⟩ := m
  cases hcontrol
  cases hstack
  have hlive := h.housed.live ⟨0, .empty, #[], 0, 0⟩ trivial
  cases hlive with
  | completed lives waits housed =>
    have hhoused : f.Housed Chronicle.any st.store := waits.2.1
    obtain ⟨receiver, hreceiver⟩ := hhoused.receiver hinit
    refine ⟨receiver, hreceiver, fun set => ?_⟩
    show Machine.deliver (Machine.resultOf f line e st.store) rest st = _
    rw [resultOf_initializer hinit hreceiver]
    rfl

end Steady

namespace Session

variable {given : List String} {log : Log} {m : Machine}

/-- A frame that holds `this` or `super` was made for it and holds nothing else,
unless it is that of the globals and the host has given the name; and it stays
as it is.  A call of a class that comes to a value gives an instance of the
class that the machine has not had before, and a call of an initializer gives
the receiver that it is bound to; at the end of its body the receiver is
there. -/
theorem constructors_give_instances
    (h : Course Behaviour.Honest given log m) :
    (∀ frame name v, ¬ Unreserved name →
      m.state.store.valueIn? frame name = some v →
      (frame = globals ∧ name ∈ given) ∨
        (m.state.store.Sealed frame name v ∧ ∃ x ∈ log, MadeBy x frame name v)) ∧
    (∀ x ∈ log, ∀ frame name v, frame ≠ globals → ¬ Unreserved name →
      x.2.state.store.valueIn? frame name = some v →
      ∀ name', m.state.store.valueIn? frame name' =
        x.2.state.store.valueIn? frame name') ∧
    (∀ set c, set.All Behaviour.Honest → nextCall? set m = some c →
      Machine.step set m = (c.alone set).onTop c.stack ∧
      ∀ setting times v, (∀ now, (setting now).All Behaviour.Honest) →
        (runAlong setting times (c.alone set)).outcome? = some (.value v) →
        (∀ cls, c.callee = .cls cls → ∃ object, v = .inst object ∧
          object.cls = cls ∧ ∀ w, m.Has w → objectId? w ≠ some object.id) ∧
        ∀ f, c.callee = .closure f → f.declaration.isInitializer = true →
          m.state.store.Sealed f.frame Keyword.kwThis.lexeme v) ∧
    ∀ c f line rest, m.control = .completed c → m.stack = .body f line :: rest →
      f.declaration.isInitializer = true → ∃ receiver,
        m.state.store.Sealed f.frame Keyword.kwThis.lexeme receiver ∧
        ∀ set, Machine.step set m = ⟨.value receiver, rest, m.state⟩ := by
  have hsteady := h.steady
  have hsane := (h.mono fun _ => Behaviour.Honest.sparing).sane
  refine ⟨hsteady.origin, ?_, ?_, ?_⟩
  · intro x hx frame name v hframe hname hv name'
    have hsealed := hsteady.sealed x hx frame name v hframe hname hv
    rw [hsealed.2, ((hsteady.later x hx).sealed _ _ _ hname hsealed).2]
  · intro set c hset hc
    refine ⟨step_eq_alone hc, fun setting times v hsetting hv => ⟨?_, ?_⟩⟩
    · exact fun cls hcls => hsteady.class_call hc hcls hv
    · exact fun f hf hinit =>
        hsteady.initializer_call hsane hset hc hf hinit hsetting hv
  · intro c f line rest hcontrol hstack hinit
    exact hsteady.initializer_end hcontrol hstack hinit

/-- A class with an initializer that gives back nothing, and a call of the
initializer of a new instance. -/
def sampleInit : List Stmt :=
  [.class ⟨⟨"A", 1⟩, none, [⟨⟨"init", 1⟩, [], [.return 1 none], .method⟩]⟩,
    .expression (.call (.get (.call (.variable ⟨0, "A", 1⟩) 1 []) ⟨"init", 1⟩) 1
      [])]

/-- Their text. -/
def sampleInitText : String :=
  "class A \x7b init() \x7b return; \x7d \x7d A().init();"

/-- The machine after so many steps. -/
def sampleInitAfter (steps : Nat) : Machine :=
  runAlong sampleSetting (List.replicate steps 0)
    (.ofProgram sampleInit (Session.new 8 .unlimited).start)

theorem reads_sampleInit :
    Stmt.Reads 0 (.declarations sampleInit)
      (Token.scan sampleInitText).tokens 1 := by
  have hclass : Stmt.Reads 0 (.declaration false (.class ⟨⟨"A", 1⟩, none,
      [⟨⟨"init", 1⟩, [], [.return 1 none], .method⟩]⟩))
      [⟨.keyword .kwClass, 1⟩, ⟨.identifier "A", 1⟩, ⟨.symbol .leftBrace, 1⟩,
        ⟨.identifier "init", 1⟩, ⟨.symbol .leftParen, 1⟩,
        ⟨.symbol .rightParen, 1⟩, ⟨.symbol .leftBrace, 1⟩,
        ⟨.keyword .kwReturn, 1⟩, ⟨.symbol .semicolon, 1⟩,
        ⟨.symbol .rightBrace, 1⟩, ⟨.symbol .rightBrace, 1⟩] 0 :=
    .class (w := [⟨.identifier "A", 1⟩, ⟨.symbol .leftBrace, 1⟩]) .base
      (.member .noMember (.method .empty)
        (.snoc .nil (.statement (.return (.intro .none)))))
  have hcall : Stmt.Reads 0 (.statement false (.expression
      (.call (.get (.call (.variable ⟨0, "A", 1⟩) 1 []) ⟨"init", 1⟩) 1 [])))
      [⟨.identifier "A", 1⟩, ⟨.symbol .leftParen, 1⟩, ⟨.symbol .rightParen, 1⟩,
        ⟨.symbol .dot, 1⟩, ⟨.identifier "init", 1⟩, ⟨.symbol .leftParen, 1⟩,
        ⟨.symbol .rightParen, 1⟩, ⟨.symbol .semicolon, 1⟩] 1 :=
    .expression (.intro (.of_call (.callEmpty (.get (.callEmpty .name)))))
  have hreads : Stmt.Reads 0 (.declarations sampleInit) _ 1 :=
    .snoc (.snoc .nil hclass) (.statement hcall)
  convert hreads using 1
  with_unfolding_all rfl

theorem honest_clock : Behaviour.Honest clock := by
  intro now arguments v hv
  cases hv
  exact .inl trivial

theorem course_sampleInit (steps : Nat) :
    ∃ log, Course Behaviour.Honest ["clock"] log (sampleInitAfter steps) := by
  have hnew : Course Behaviour.Honest ["clock"] [] _ := .new 8 .unlimited
  have hprogram := hnew.program sampleInitText 0 rfl rfl
  rw [Stmt.parse_of_reads reads_sampleInit] at hprogram
  exact ⟨_, hprogram.run (sampleSetting_all honest_clock) (List.replicate steps 0)⟩

/-- Whether a call is of a class. -/
def isClassCall (c : Call) : Bool :=
  match c.callee with
  | .cls _ => true
  | _ => false

/-- Whether a call is of an initializer. -/
def isInitializerCall (c : Call) : Bool :=
  match c.callee with
  | .closure f => f.declaration.isInitializer
  | _ => false

/-- What the call comes to in six steps on its own. -/
def sampleOutcome? (c : Call) : Option Machine.Outcome :=
  (runAlong sampleSetting (List.replicate 6 0) (c.alone (sampleSetting 0))).outcome?

/-- Whether the next call after so many steps is of the sort, and comes to an
instance. -/
def sampleGives (sort : Call → Bool) (steps : Nat) : Bool :=
  match nextCall? (sampleSetting 0) (sampleInitAfter steps) with
  | none => false
  | some c =>
    match sampleOutcome? c with
    | some (.value (.inst _)) => sort c
    | _ => false

theorem exists_of_sampleGives {sort : Call → Bool} {steps : Nat}
    (h : sampleGives sort steps = true) :
    ∃ c object, nextCall? (sampleSetting 0) (sampleInitAfter steps) = some c ∧
      sampleOutcome? c = some (.value (.inst object)) ∧ sort c = true := by
  unfold sampleGives at h
  split at h
  · cases h
  · next c hc =>
    split at h
    · next object hvalue => exact ⟨c, object, hc, hvalue, h⟩
    · cases h

/-- The class gives a new instance, and its initializer gives the instance,
too. -/
theorem constructors_give_instances_sample :
    (∃ c object, nextCall? (sampleSetting 0) (sampleInitAfter 8) = some c ∧
      sampleOutcome? c = some (.value (.inst object)) ∧
      ∀ w, (sampleInitAfter 8).Has w → objectId? w ≠ some object.id) ∧
    ∃ c f object, nextCall? (sampleSetting 0) (sampleInitAfter 16) = some c ∧
      c.callee = .closure f ∧
      sampleOutcome? c = some (.value (.inst object)) ∧
      (sampleInitAfter 16).state.store.Sealed f.frame Keyword.kwThis.lexeme
        (.inst object) := by
  have hset := sampleSetting_all honest_clock
  have hclass : sampleGives isClassCall 8 = true := by with_unfolding_all rfl
  have hinitializer : sampleGives isInitializerCall 16 = true := by
    with_unfolding_all rfl
  constructor
  · obtain ⟨c, object, hc, hvalue, hsort⟩ := exists_of_sampleGives hclass
    obtain ⟨log, hcourse⟩ := course_sampleInit 8
    obtain ⟨-, -, hcalls, -⟩ := constructors_give_instances hcourse
    unfold isClassCall at hsort
    split at hsort
    · next cls hcallee =>
      obtain ⟨object', heq, -, hnew⟩ :=
        ((hcalls _ c (hset 0) hc).2 _ _ _ hset hvalue).1 cls hcallee
      cases heq
      exact ⟨c, object, hc, hvalue, hnew⟩
    · cases hsort
  · obtain ⟨c, object, hc, hvalue, hsort⟩ := exists_of_sampleGives hinitializer
    obtain ⟨log, hcourse⟩ := course_sampleInit 16
    obtain ⟨-, -, hcalls, -⟩ := constructors_give_instances hcourse
    unfold isInitializerCall at hsort
    split at hsort
    · next f hcallee =>
      exact ⟨c, f, object, hc, hcallee, hvalue,
        ((hcalls _ c (hset 0) hc).2 _ _ _ hset hvalue).2 f hcallee hsort⟩
    · cases hsort

end Session

end Lox
