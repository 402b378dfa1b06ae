import Lox.Proofs.Machine.Calls
import Lox.Proofs.Machine.Housing
import Lox.Proofs.Machine.Stack

/-!
# What calls give

A call that a step makes runs on top of the stack it was made on
(`Call.make_eq`), and if it comes to a value, that is the value it gives.  Two
sorts of calls give a value that does not depend on what the body of the callee
does: the call of a class gives the new instance (`eq_of_class_call`), and the
call of an initializer gives its receiver (`eq_of_initializer_call`).
-/

namespace Lox

/-- No more is known of the execution than that it is one. -/
def Chronicle.any : Chronicle :=
  ⟨fun _ _ => True, fun _ _ => True⟩

theorem Chronicle.covers_any (sites : List (Expr × Home)) :
    Chronicle.any.Covers sites :=
  fun _ _ _ _ => trivial

theorem Chronicle.Waits.housed {C : Chronicle} {s : Store}
    {stack : List Machine.Pending} {home : Home} (h : C.Waits s stack home) :
    ∀ pending ∈ stack, pending.Housed C s := by
  induction stack generalizing home with
  | nil => rintro _ ⟨⟩
  | cons pending rest ih =>
    obtain ⟨-, hpending, outer, -, hrest⟩ := h
    exact List.forall_mem_cons.2 ⟨hpending, ih hrest⟩

/-- A machine that hands on a value: it is housed, and so is what waits, but
for a class statement that waits for its superclass. -/
theorem Chronicle.Live.of_value {C : Chronicle} {v : Value}
    {stack : List Machine.Pending} {st : Machine.State}
    (h : C.Live ⟨.value v, stack, st⟩) :
    ∃ home, C.Lives st.store st.frame home ∧ v.Housed C st.store ∧
      ∀ pending ∈ stack, pending.Housed C st.store ∨
        ∃ declaration line, pending = .superclass declaration line := by
  cases h with
  | value lives waits housed =>
    exact ⟨_, lives, housed, fun p hp => .inl (waits.housed p hp)⟩
  | inherits lives waits housed =>
    exact ⟨_, lives, housed, List.forall_mem_cons.2
      ⟨.inr ⟨_, _, rfl⟩, fun p hp => .inl (waits.housed p hp)⟩⟩

namespace Machine

open Store (Grows Later)

variable {setting : Float → Setting}

/-! ## Runs -/

/-- A failure does not turn into a value. -/
theorem outcome?_of_failed {m : Machine} (h : ∃ f, m.control = .failed f)
    (times : List Float) (v : Value) :
    (runAlong setting times m).outcome? ≠ some (.value v) := by
  have hrun : ∃ f, (runAlong setting times m).control = .failed f := by
    refine runAlong_induction (motive := fun m => ∃ f, m.control = .failed f)
      ?_ h times
    rintro now ⟨control, stack, st⟩ ⟨f, rfl⟩
    cases stack <;> exact ⟨f, rfl⟩
  obtain ⟨f, hf⟩ := hrun
  rw [outcome?, hf]
  split <;> simp_all

/-- A machine that comes to a value on top of a construct hands a value or a
completion to it first, and the construct then comes to the value. -/
theorem cut_of_value {pending : Pending} {base : List Pending} {times : List Float}
    {m : Machine} {v : Value}
    (h : (runAlong setting times (m.onTop (pending :: base))).outcome? =
      some (.value v)) :
    ∃ first now rest control st,
      runAlong setting first (m.onTop (pending :: base)) =
        ⟨control, pending :: base, st⟩ ∧
      (runAlong setting rest
        (step (setting now) ⟨control, pending :: base, st⟩)).outcome? =
          some (.value v) ∧
      ((∃ w, control = .value w) ∨ ∃ c, control = .completed c) := by
  obtain ⟨first, rest, rfl, hcut, htop⟩ := runAlong_cut setting times m
  specialize htop (pending :: base)
  rw [runAlong_append, htop] at h
  generalize hm : runAlong setting first m = m' at hcut htop h
  obtain ⟨control, stack, st⟩ := m'
  have hwaits :
      ((⟨control, stack, st⟩ : Machine).onTop (pending :: base)).outcome? =
        none := by
    by_contra hne
    obtain ⟨hnil, -⟩ := eq_nil_of_outcome?_ne hne
    exact List.cons_ne_nil _ _ (List.append_eq_nil_iff.1 hnil).2
  cases rest with
  | nil =>
    rw [runAlong, hwaits] at h
    cases h
  | cons now rest =>
    obtain ⟨rfl, hcontrol⟩ :=
      eq_nil_of_outcome?_ne (hcut.resolve_left (List.cons_ne_nil _ _))
    refine ⟨first, now, rest, control, st, htop, h, ?_⟩
    rcases hcontrol with hvalue | hcompleted | hfailed
    · exact .inl hvalue
    · exact .inr hcompleted
    · exact absurd h (outcome?_of_failed hfailed (now :: rest) v)

/-- The value that a call comes to is handed on. -/
theorem eq_of_invocation {w v : Value} {st : State} {times : List Float}
    (h : (runAlong setting times ⟨.value w, [.invocation], st⟩).outcome? =
      some (.value v)) : v = w := by
  cases times with
  | nil => cases h
  | cons now rest =>
    rw [runAlong, runAlong_of_halted rfl] at h
    cases h
    rfl

theorem not_of_stuck {m : Machine} (h : m.control = .stuck) {v : Value}
    {times : List Float} :
    (runAlong setting times m).outcome? ≠ some (.value v) := by
  have hhalted : m.halted = true := by
    obtain ⟨control, stack, st⟩ := m
    cases h
    rfl
  rw [runAlong_of_halted hhalted, outcome?_of_stuck h]
  exact nofun

/-! ## Calls on their own -/

/-- The machine that has only the call to do. -/
def Call.alone (set : Setting) (c : Call) : Machine :=
  invoke set c.callee c.arguments c.line [] c.state

/-- A call goes on top of the stack as it does on its own. -/
theorem Call.make_eq (set : Setting) (c : Call) :
    c.make set = (c.alone set).onTop c.stack :=
  invoke_onTop set c.stack [] c.state c.callee c.arguments c.line

/-- A step that makes a call does nothing else. -/
theorem step_eq_alone {set : Setting} {m : Machine} {c : Call}
    (h : nextCall? set m = some c) :
    step set m = (c.alone set).onTop c.stack := by
  have hfailed : ∀ f, m.control ≠ .failed f := by
    intro f hf
    obtain ⟨control, stack, st⟩ := m
    cases hf
    cases h
  have hmakes := makes_step set hfailed
  rw [h] at hmakes
  cases hmakes with
  | call level printed made => exact (made set.maxDepth).trans (c.make_eq set)

/-- A call that comes to a value enters the callee. -/
theorem enter_of_value {set : Setting} {callee : Callable}
    {arguments : List Value} {line : Nat} {st : State} {times : List Float}
    {v : Value}
    (h : (runAlong setting times
      (invoke set callee arguments line [] st)).outcome? = some (.value v)) :
    invoke set callee arguments line [] st =
      enter set callee arguments line [.invocation]
        { st with depth := st.depth + 1 } := by
  unfold invoke at h ⊢
  split at h
  · exact absurd h (outcome?_of_failed ⟨_, rfl⟩ times v)
  · next harity =>
    split at h
    · exact absurd h (outcome?_of_failed ⟨_, rfl⟩ times v)
    · next hdepth => rw [if_neg harity, if_neg hdepth]

/-- The call of a class that comes to a value gives the new instance. -/
theorem eq_of_class_call {set : Setting} {cls : Class} {arguments : List Value}
    {line : Nat} {st : State} {times : List Float} {v : Value}
    (h : (runAlong setting times
      (invoke set (.cls cls) arguments line [] st)).outcome? = some (.value v)) :
    v = .inst ⟨st.store.nextObject, cls⟩ := by
  rw [enter_of_value h] at h
  simp only [enter, construct] at h
  split at h
  · exact eq_of_invocation h
  · next method hmethod =>
    -- The body runs on top of the construct that has the instance.
    have hbody (f : Closure) (stack base : List Pending) (st : State) :
        enterBody f arguments line (stack ++ base) st =
          (enterBody f arguments line stack st).onTop base := rfl
    have hbase : [Pending.construct ⟨st.store.nextObject, cls⟩, .invocation] =
        [] ++ [.construct ⟨st.store.nextObject, cls⟩, .invocation] := rfl
    rw [hbase, hbody] at h
    obtain ⟨first, now, rest, control, st', -, hrest, ⟨w, rfl⟩ | ⟨c, rfl⟩⟩ :=
      cut_of_value h
    · exact eq_of_invocation hrest
    · exact absurd hrest (not_of_stuck rfl)

/-- The body of an initializer gives its receiver. -/
theorem resultOf_initializer {s : Store} {f : Closure}
    (hinit : f.declaration.isInitializer = true) {receiver : Value}
    (hreceiver : s.Sealed f.frame Keyword.kwThis.lexeme receiver) (line : Nat)
    (c : Completion) : resultOf f line c s = .ok receiver := by
  unfold resultOf
  rw [if_pos hinit]
  simp only [Store.readAt, Store.getAt?, Store.ancestor?, hreceiver.value,
    Store.orUndefined]

/-- The call of an initializer that comes to a value gives its receiver, if that
stays in its frame. -/
theorem eq_of_initializer_call {set : Setting} {f : Closure}
    (hinit : f.declaration.isInitializer = true) {arguments : List Value}
    {line : Nat} {st : State} {receiver : Value}
    (hkept : ∀ first, (runAlong setting first
      (invoke set (.closure f) arguments line [] st)).state.store.Sealed f.frame
        Keyword.kwThis.lexeme receiver)
    {times : List Float} {v : Value}
    (h : (runAlong setting times
      (invoke set (.closure f) arguments line [] st)).outcome? =
        some (.value v)) : v = receiver := by
  have hbody (stack : List Pending) (st : State) :
      ∃ m : Machine, enterBody f arguments line stack st =
        m.onTop (.body f line :: stack) :=
    ⟨⟨.completed .normal, [.block f.declaration.body st.frame], _⟩, rfl⟩
  have henter := enter_of_value h
  rw [henter, enter] at h hkept
  obtain ⟨m, hm⟩ := hbody [.invocation] { st with depth := st.depth + 1 }
  rw [hm] at h hkept
  obtain ⟨first, now, rest, control, st', hfirst, hrest, ⟨w, rfl⟩ | ⟨c, rfl⟩⟩ :=
    cut_of_value h
  · exact absurd hrest (not_of_stuck rfl)
  · have hsealed := hkept first
    rw [hfirst] at hsealed
    rw [step, complete, resultOf_initializer hinit hsealed] at hrest
    exact eq_of_invocation hrest

/-! ## Which calls are made -/

theorem getter_of_getterCall? {v : Value} {line : Nat} {stack : List Pending}
    {st : State} {c : Call} (h : getterCall? v line stack st = some c) :
    ∃ f, c.callee = .closure f ∧ f.isGetter = true := by
  unfold getterCall? at h
  split at h
  · next f =>
    split at h
    · next hgetter =>
      cases h
      exact ⟨f, rfl, hgetter⟩
    · cases h
  · cases h

theorem getter_of_propertyCall? {object : Value} {id : ObjectId}
    {method? : String → Option Closure} {name : Ident} {stack : List Pending}
    {st : State} {c : Call}
    (h : propertyCall? object id method? name stack st = some c) :
    ∃ f, c.callee = .closure f ∧ f.isGetter = true := by
  unfold propertyCall? at h
  split at h
  · exact getter_of_getterCall? h
  · split at h
    · exact getter_of_getterCall? h
    · cases h

theorem getter_of_superCall? {set : Setting} {id line : Nat} {method : Ident}
    {stack : List Pending} {st : State} {c : Call}
    (h : superCall? set id line method stack st = some c) :
    ∃ f, c.callee = .closure f ∧ f.isGetter = true := by
  unfold superCall? bindSuperCall? at h
  split at h
  · cases h
  · split at h
    · split at h
      · cases h
      · split at h
        · cases h
        · split at h
          · cases h
          · exact getter_of_getterCall? h
    · cases h

/-- A call is that of a getter, or its callee and its arguments come from the
call expression that waits. -/
theorem of_nextCall? {set : Setting} {m : Machine} {c : Call}
    (h : nextCall? set m = some c) :
    (∃ f, c.callee = .closure f ∧ f.isGetter = true) ∨
      ∃ v pending, m = ⟨.value v, pending :: c.stack, c.state⟩ ∧
        ((v.callable? = some c.callee ∧ c.arguments = []) ∨
          ∃ line earlier, pending = .argument c.callee line earlier [] ∧
            c.arguments = (v :: earlier).reverse) := by
  unfold nextCall? at h
  split at h
  · exact .inl (getter_of_superCall? h)
  · next v pending stack st =>
    unfold resumeCall? at h
    split at h
    · next line arguments =>
      split at h
      · next callee hcallee =>
        cases arguments with
        | cons => cases h
        | nil =>
          cases h
          exact .inr ⟨v, _, rfl, .inl ⟨hcallee, rfl⟩⟩
      · cases h
    · next callee line earlier later =>
      cases later with
      | cons => cases h
      | nil =>
        cases h
        exact .inr ⟨v, _, rfl, .inr ⟨line, earlier, rfl, rfl⟩⟩
    · left
      unfold getCall? at h
      split at h
      · exact getter_of_propertyCall? h
      · exact getter_of_propertyCall? h
      · cases h
    · cases h
  · cases h

/-! ## Calls of housed machines -/

section

variable {set : Setting} {m : Machine} {c : Call}

/-- The callee and the arguments of a call are housed. -/
theorem housed_nextCall {C : Chronicle} (h : C.Live m)
    (hc : nextCall? set m = some c)
    (hgetter : ∀ f, c.callee = .closure f → f.isGetter = false) :
    c.state = m.state ∧ c.callee.Housed C m.state.store ∧
      (∀ a ∈ c.arguments, a.Housed C m.state.store) ∧
      ∃ home, C.Lives m.state.store m.state.frame home := by
  rcases of_nextCall? hc with ⟨f, hf, htrue⟩ | ⟨v, pending, rfl, hcallee⟩
  · rw [hgetter f hf] at htrue
    cases htrue
  · obtain ⟨home, hlives, hv, hstack⟩ := h.of_value
    have hpending := hstack pending List.mem_cons_self
    refine ⟨rfl, ?_⟩
    rcases hcallee with ⟨hcallable, hnil⟩ | ⟨line, earlier, rfl, harguments⟩
    · rw [hnil]
      exact ⟨hv.callable? hcallable, by rintro _ ⟨⟩, home, hlives⟩
    · obtain ⟨hhoused, hearlier⟩ :=
        hpending.resolve_right (by rintro ⟨_, _, ⟨⟩⟩)
      rw [harguments]
      refine ⟨hhoused, fun a ha => ?_, home, hlives⟩
      exact List.forall_mem_cons.2 ⟨hv, hearlier⟩ a (List.mem_reverse.1 ha)

/-- They are sane as well. -/
theorem sane_nextCall {fields : ObjectId → String → Option Value}
    (h : Sane fields m) (hc : nextCall? set m = some c)
    (hgetter : ∀ f, c.callee = .closure f → f.isGetter = false) :
    c.callee.Sane ∧ ∀ a ∈ c.arguments, a.Sane := by
  rcases of_nextCall? hc with ⟨f, hf, htrue⟩ | ⟨v, pending, rfl, hcallee⟩
  · rw [hgetter f hf] at htrue
    cases htrue
  · have hv : v.Sane := h.control
    have hpending := h.stack pending List.mem_cons_self
    rcases hcallee with ⟨hcallable, hnil⟩ | ⟨line, earlier, rfl, harguments⟩
    · rw [hnil]
      exact ⟨hv.callable? hcallable, by rintro _ ⟨⟩⟩
    · rw [harguments]
      refine ⟨hpending.1, fun a ha => ?_⟩
      exact List.forall_mem_cons.2 ⟨hv, hpending.2.1⟩ a (List.mem_reverse.1 ha)

/-- While the call goes on by itself, the store becomes what it becomes as
programs change it. -/
theorem later_alone (h : Chronicle.any.Housed m)
    {fields : ObjectId → String → Option Value} (hsane : Sane fields m)
    (hset : set.All Behaviour.Honest) (hc : nextCall? set m = some c)
    (hgetter : ∀ f, c.callee = .closure f → f.isGetter = false)
    {setting : Float → Setting}
    (hsetting : ∀ now, (setting now).All Behaviour.Honest) (times : List Float) :
    Later m.state.store
      (runAlong setting times (c.alone set)).state.store := by
  obtain ⟨hstate, hcallee, harguments, home, hlives⟩ :=
    housed_nextCall (h.live set trivial) hc hgetter
  obtain ⟨hcalleeSane, hargumentsSane⟩ := sane_nextCall hsane hc hgetter
  have hrests : Chronicle.any.Rests m.state.store [] m.state home :=
    ⟨.refl _, h.store, hlives, trivial⟩
  have hremains : Remains fields [] m.state :=
    ⟨by rintro _ ⟨⟩, hsane.store, hsane.fields⟩
  have hsparing := hset.mono fun _ => Behaviour.Honest.sparing
  have hleads := housed_invoke hrests hset hcallee harguments c.line
  have hstart := sane_invoke hremains hsparing hcalleeSane hargumentsSane c.line
  rw [Call.alone, hstate]
  exact hleads.grows.later.trans
    (leads_runAlong hsetting hleads.toHoused hstart fun _ _ => trivial).grows.later

end

end Machine

end Lox
