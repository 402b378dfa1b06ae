import Lox.Proofs.Machine.Calls
import Lox.Proofs.Machine.Getters
import Lox.Proofs.Session.Course
import Lox.Proofs.Stmt.Recovery

/-!
# Fields read back what was stored

On the course of an interpreter no getter is ever a value: none is in a frame,
in a field, among the arguments of a call, returned, or the result of an
expression (`Course.sane`).  So what is read from a field is handed on as it
is.  It is what the last `set` of that field of that object has stored
(`lastStored`): a `set` leaves the field with its value, and nothing else
changes a field (`fields_read_back`).
-/

namespace Lox

namespace Machine

/-! ## The values of a machine -/

/-- The machine has the value at hand: in a frame or in a field, as the result
of an expression, as what a body returns, or in a construct that waits. -/
inductive Has (m : Machine) : Value → Prop where
  | variable {frame : FrameId} {name : String} {v : Value}
      (held : m.state.store.valueIn? frame name = some v) : Has m v
  | field {object : ObjectId} {name : String} {v : Value}
      (held : m.state.store.field? object name = some v) : Has m v
  | result {v : Value} (control : m.control = .value v) : Has m v
  | returned {v : Value} (control : m.control = .completed (.returned v)) :
      Has m v
  | operand {v : Value} {op : BinaryOp} {line : Nat}
      (waits : .binaryRight v op line ∈ m.stack) : Has m v
  | argument {v : Value} {callee : Callable} {line : Nat}
      {earlier : List Value} {later : List Expr}
      (waits : .argument callee line earlier later ∈ m.stack)
      (given : v ∈ earlier) : Has m v
  | object {object : Instance} (waits : .construct object ∈ m.stack) :
      Has m (.inst object)

theorem Sane.has {fields : ObjectId → String → Option Value} {m : Machine}
    (h : Sane fields m) {v : Value} (hv : m.Has v) : v.Sane := by
  cases hv with
  | «variable» held => exact h.store.values _ _ v held
  | field held => exact h.store.fields _ _ v held
  | result control =>
    have hcontrol := h.control
    rw [control] at hcontrol
    exact hcontrol
  | returned control =>
    have hcontrol := h.control
    rw [control] at hcontrol
    exact hcontrol
  | operand waits => exact h.stack _ waits
  | argument waits given => exact (h.stack _ waits).2.1 v given
  | object waits => exact h.stack _ waits

/-! ## What was stored last -/

/-- The value that the next step stores in the field. -/
def storedIn? (object : ObjectId) (name : String) (m : Machine) :
    Option Value :=
  match storing? m with
  | some (object', name', v) =>
    if object' = object ∧ name' = name then some v else none
  | none => none

/-- The value that the steps of the log have last stored in the field. -/
def lastStored (log : Log) (object : ObjectId) (name : String) :
    Option Value :=
  log.reverse.findSome? fun x => storedIn? object name x.2

theorem lastStored_append (log : Log) (set : Setting) (m : Machine)
    (object : ObjectId) (name : String) :
    lastStored (log ++ [(set, m)]) object name =
      (storedIn? object name m).or (lastStored log object name) := by
  rw [lastStored, List.reverse_append, List.reverse_singleton,
    List.singleton_append, List.findSome?_cons]
  cases storedIn? object name m <;> rfl

end Machine

open Machine (Behaviour Has Log Sane Setting getterCall? getCall? lastStored
  nextCall? objectId? runAlong sane_after sane_step sane_storing step storedIn?
  storing? storing?_eq_some trail)

namespace Course

variable {given : List String} {log : Log} {m : Machine}

/-- What is on a course is sane. -/
theorem sane (h : Course Behaviour.Sparing given log m) :
    Sane m.state.store.field? m := by
  have hstart {m : Machine} (hstore : m.state.store.All Value.Sane)
      (hcontrol : m.control.Sane) (hstack : ∀ p ∈ m.stack, p.Sane) :
      Sane m.state.store.field? m :=
    ⟨⟨hstack, hstore, rfl⟩, hcontrol⟩
  induction h with
  | new maxDepth sink =>
    exact hstart (Store.All.start.define _ _ trivial) trivial (by rintro _ ⟨⟩)
  | native _ n ih =>
    exact hstart (ih.store.define _ _ trivial) trivial (by rintro _ ⟨⟩)
  | @program given log m _ source firstId st store frame ih =>
    refine hstart (store ▸ ih.store) trivial ?_
    intro pending hpending
    rw [List.mem_singleton.1 hpending]
    exact Stmt.wellFormed_parse (Token.named_scan source) firstId
  | expr _ source firstId parsed store frame ih =>
    exact hstart (store ▸ ih.store)
      (Expr.wellFormed_parse (Token.named_scan source) parsed) (by rintro _ ⟨⟩)
  | step _ allowed ih => exact sane_after ih allowed

/-- What a field holds is what was last stored there. -/
theorem field?_eq_lastStored (h : Course Behaviour.Sparing given log m)
    {object : ObjectId} {name : String} {v : Value}
    (hv : m.state.store.field? object name = some v) :
    lastStored log object name = some v := by
  induction h generalizing v with
  | new maxDepth sink => cases hv
  | native _ n ih => exact ih hv
  | program _ source firstId store frame ih => exact ih (store ▸ hv)
  | expr _ source firstId parsed store frame ih => exact ih (store ▸ hv)
  | @step given log m hcourse set allowed ih =>
    rw [Machine.lastStored_append, storedIn?]
    cases hstoring : storing? m with
    | none =>
      rw [(sane_step hcourse.sane allowed hstoring).fields] at hv
      exact ih hv
    | some x =>
      obtain ⟨object', name', w⟩ := x
      rw [(sane_storing hcourse.sane hstoring).2, Store.field?_setField] at hv
      by_cases hsame : object' = object ∧ name' = name
      · -- The value was stored just now, or the object does not exist.
        simp only [if_pos hsame, Option.some_or]
        obtain ⟨rfl, rfl⟩ := hsame
        split at hv
        · exact hv
        · next hlt =>
          have hnone : m.state.store.fields[object']? = none :=
            Array.getElem?_eq_none (Nat.le_of_not_lt fun h => hlt ⟨rfl, rfl, h⟩)
          rw [Store.field?, hnone] at hv
          cases hv
      · have hother : ¬ (object = object' ∧ name = name' ∧
            object' < m.state.store.fields.size) :=
          fun h => hsame ⟨h.1.symm, h.2.1.symm⟩
        simp only [if_neg hsame, Option.none_or]
        rw [if_neg hother] at hv
        exact ih hv

end Course

namespace Session

/-- On any course, with any distances: no value is a getter.  If an object has
a field, a `get` of it gives what was last stored there, and calls nothing.  The
last step of a `set` gives the value, and leaves the field with it if the object
is one of the store.  And a step changes a field only if it is the last one of a
`set` of that field of that object. -/
theorem fields_read_back {given : List String} {log : Log} {m : Machine}
    (h : Course Behaviour.Sparing given log m) {set : Setting}
    (hset : set.All Behaviour.Sparing) :
    (∀ f, m.Has (.function f) → f.isGetter = false) ∧
    (∀ object id name v rest, m.control = .value object →
      m.stack = .get name :: rest → objectId? object = some id →
      m.state.store.field? id name.name = some v →
      step set m = ⟨.value v, rest, m.state⟩ ∧ nextCall? set m = none ∧
        lastStored log id name.name = some v) ∧
    (∀ id name v rest, m.control = .value v →
      m.stack = .setValue id name :: rest → id < m.state.store.fields.size →
      ∃ st, step set m = ⟨.value v, rest, st⟩ ∧
        st.store.field? id name = some v) ∧
    (∀ id name, (step set m).state.store.field? id name ≠
        m.state.store.field? id name →
      ∃ v rest, m.control = .value v ∧
        m.stack = .setValue id name :: rest ∧
        (step set m).state.store.field? id name = some v) := by
  have hsane := h.sane
  refine ⟨fun f hf => (hsane.has hf).1, ?_, ?_, ?_⟩
  · intro object id name v rest hcontrol hstack hobject hv
    have hlast := h.field?_eq_lastStored hv
    have hplain : v.Sane := hsane.has (.field hv)
    obtain ⟨control, stack, st⟩ := m
    cases hcontrol
    cases hstack
    have hv : st.store.field? id name.name = some v := hv
    -- A value that is no getter is handed on, and no call is made for it.
    have hsettle : Machine.settle set v name.line rest st =
        ⟨.value v, rest, st⟩ ∧ getterCall? v name.line rest st = none := by
      cases v with
      | function f =>
        have hgetter : ¬ f.isGetter = true := by rw [hplain.1]; decide
        exact ⟨if_neg hgetter, if_neg hgetter⟩
      | _ => exact ⟨rfl, rfl⟩
    have hread : Machine.getProperty set object name rest st =
          ⟨.value v, rest, st⟩ ∧
        getCall? object name rest st = none := by
      cases object with
      | inst o | cls c =>
        cases hobject
        simp only [Machine.getProperty, Machine.readProperty, getCall?,
          Machine.propertyCall?, hv]
        exact hsettle
      | _ => cases hobject
    exact ⟨hread.1, hread.2, hlast⟩
  · intro id name v rest hcontrol hstack hlt
    obtain ⟨control, stack, st⟩ := m
    cases hcontrol
    cases hstack
    exact ⟨{ st with store := st.store.setField id name v }, rfl, by
      rw [Store.field?_setField, if_pos ⟨rfl, rfl, hlt⟩]⟩
  · intro id name hne
    cases hstoring : storing? m with
    | none =>
      rw [(sane_step hsane hset hstoring).fields] at hne
      exact absurd rfl hne
    | some x =>
      obtain ⟨object, field, v⟩ := x
      obtain ⟨rest, hcontrol, hstack⟩ := storing?_eq_some.1 hstoring
      rw [(sane_storing hsane hstoring).2, Store.field?_setField] at hne ⊢
      split at hne
      · next hsame =>
        obtain ⟨rfl, rfl, hlt⟩ := hsame
        exact ⟨v, rest, hcontrol, hstack, if_pos ⟨rfl, rfl, hlt⟩⟩
      · exact absurd rfl hne

/-- A class without members, a field stored in it, and the field read. -/
def sampleFields : List Stmt :=
  [.class ⟨⟨"A", 1⟩, none, []⟩,
    .expression (.set (.variable ⟨0, "A", 1⟩) ⟨"f", 1⟩ (.literal (.bool true))),
    .expression (.get (.variable ⟨1, "A", 1⟩) ⟨"f", 1⟩)]

/-- Their text. -/
def sampleFieldsText : String :=
  "class A \x7b\x7d A.f = true; A.f;"

/-- The setting of a new session, without distances. -/
def sampleSetting : Float → Setting :=
  (Session.new 8 .unlimited).setting

/-- The machine that runs them. -/
def sampleFieldsStart : Machine :=
  .ofProgram sampleFields (Session.new 8 .unlimited).start

/-- The machine that is about to store in the field. -/
def sampleAtSet : Machine :=
  runAlong sampleSetting (List.replicate 8 0) sampleFieldsStart

/-- The machine that has got to the field. -/
def sampleAtField : Machine :=
  runAlong sampleSetting (List.replicate 14 0) sampleFieldsStart

theorem reads_sampleFields :
    Stmt.Reads 0 (.declarations sampleFields)
      (Token.scan sampleFieldsText).tokens 2 := by
  have hclass : Stmt.Reads 0 (.declaration false (.class ⟨⟨"A", 1⟩, none, []⟩))
      [⟨.keyword .kwClass, 1⟩, ⟨.identifier "A", 1⟩, ⟨.symbol .leftBrace, 1⟩,
        ⟨.symbol .rightBrace, 1⟩] 0 :=
    .class (w := [⟨.identifier "A", 1⟩, ⟨.symbol .leftBrace, 1⟩]) .base .noMember
  have hset : Stmt.Reads 0 (.statement false (.expression
      (.set (.variable ⟨0, "A", 1⟩) ⟨"f", 1⟩ (.literal (.bool true)))))
      [⟨.identifier "A", 1⟩, ⟨.symbol .dot, 1⟩, ⟨.identifier "f", 1⟩,
        ⟨.symbol .equal, 1⟩, ⟨.keyword .kwTrue, 1⟩, ⟨.symbol .semicolon, 1⟩] 1 :=
    .expression (.intro (.set .name (.of_call (.literal rfl))))
  have hget : Stmt.Reads 1 (.statement false (.expression
      (.get (.variable ⟨1, "A", 1⟩) ⟨"f", 1⟩)))
      [⟨.identifier "A", 1⟩, ⟨.symbol .dot, 1⟩, ⟨.identifier "f", 1⟩,
        ⟨.symbol .semicolon, 1⟩] 2 :=
    .expression (.intro (.of_call (.get .name)))
  have hreads : Stmt.Reads 0 (.declarations sampleFields) _ 2 :=
    .snoc (.snoc (.snoc .nil hclass) (.statement hset)) (.statement hget)
  convert hreads using 1
  with_unfolding_all rfl

theorem sparing_clock : Behaviour.Sparing clock := by
  intro now arguments v _ hv
  cases hv
  trivial

theorem sampleSetting_all {P : Behaviour → Prop} (h : P clock) (now : Float) :
    (sampleSetting now).All P := by
  intro i behaviour hi
  have hnatives : (sampleSetting now).natives = #[clock] := rfl
  rw [hnatives, List.getElem?_toArray, List.getElem?_singleton] at hi
  split at hi
  · cases hi
    exact h
  · cases hi

/-- The field of the class is stored, and then read back. -/
theorem fields_read_back_sample :
    (∃ rest st, sampleAtSet.stack = .setValue 0 "f" :: rest ∧
      step (sampleSetting 0) sampleAtSet = ⟨.value (.bool true), rest, st⟩ ∧
      st.store.field? 0 "f" = some (.bool true)) ∧
    ∃ rest, sampleAtField.stack = .get ⟨"f", 1⟩ :: rest ∧
      step (sampleSetting 0) sampleAtField =
        ⟨.value (.bool true), rest, sampleAtField.state⟩ ∧
      lastStored (trail sampleSetting (List.replicate 14 0) sampleFieldsStart)
        0 "f" = some (.bool true) := by
  have hstart : Course Behaviour.Sparing ["clock"] [] sampleFieldsStart := by
    have hnew : Course Behaviour.Sparing ["clock"] [] _ := .new 8 .unlimited
    have hprogram := hnew.program sampleFieldsText 0 rfl rfl
    rw [Stmt.parse_of_reads reads_sampleFields] at hprogram
    exact hprogram
  have hcourse (n : Nat) :=
    hstart.run (sampleSetting_all sparing_clock) (List.replicate n 0)
  constructor
  · obtain ⟨-, -, hset, -⟩ := fields_read_back (hcourse 8)
      (sampleSetting_all sparing_clock 0)
    have hwaits : sampleAtSet.stack =
        [.setValue 0 "f", .discard, .program [sampleFields[2]]] := by
      with_unfolding_all rfl
    have hcontrol : sampleAtSet.control = .value (.bool true) := by
      with_unfolding_all rfl
    obtain ⟨st, hstep, hfield⟩ := hset 0 "f" (.bool true) _ hcontrol hwaits
      (by decide +kernel)
    exact ⟨_, st, hwaits, hstep, hfield⟩
  · obtain ⟨-, hread, -⟩ := fields_read_back (hcourse 14)
      (sampleSetting_all sparing_clock 0)
    have hcontrol : sampleAtField.control =
        .value (.cls (.base ⟨0, "A", .empty, .empty⟩)) := by
      with_unfolding_all rfl
    have hfield : sampleAtField.state.store.field? 0 "f" = some (.bool true) := by
      with_unfolding_all rfl
    have hwaits : sampleAtField.stack =
        [.get ⟨"f", 1⟩, .discard, .program []] := by with_unfolding_all rfl
    obtain ⟨hstep, -, hlast⟩ := hread _ 0 ⟨"f", 1⟩ _ _ hcontrol hwaits rfl hfield
    exact ⟨_, hwaits, hstep, hlast⟩

end Session

end Lox
