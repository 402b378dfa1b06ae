import Lox.Proofs.Machine.Objects
import Lox.Proofs.Session.Constancy

/-!
# Classes and their members

On the course of an interpreter, with whatever distances, every object that a
machine meets was made by a step of the log, and its number tells it from all
others (`Course.recorded`).  A class was made from the declaration of a class
statement, after its superclass.  So no class is among its own ancestors, even
if names are given to other classes while the course goes on: the numbers fall
along a lineage.

What is read from an object is its own field, or else the nearest member of its
class, bound to it (`lookup_finds_nearest`).  `Provides` says which member that
is, from the declarations of the classes alone.
-/

namespace Lox

open Machine (Behaviour Creates Declares Enrolled Has Log Pending Sane Setting
  enrolled_step housed_has objectId? readProperty runAlong settle trail)

/-! ## Declarations -/

/-- A step of the log has made the class from the declaration. -/
def DeclaredIn (log : Log) (declaration : ClassDecl) (c : Class) : Prop :=
  ∃ x ∈ log, Declares x.2 declaration c

theorem DeclaredIn.members {log : Log} {declaration : ClassDecl} {c : Class}
    (h : DeclaredIn log declaration c) (static : Bool) (name : String) :
    ((c.info.members static).find? name).map Closure.declaration =
      declaration.member? static name := by
  obtain ⟨x, -, hdeclares⟩ := h
  exact hdeclares.members static name

/-- The class provides the member of this sort and name: its declaration has
one, and of several the last counts; or else its superclass provides it. -/
inductive Provides (log : Log) (static : Bool) (name : String) :
    Class → FunctionDecl → Prop where
  | own {c : Class} {declaration : ClassDecl} {f : FunctionDecl}
      (declared : DeclaredIn log declaration c)
      (last : declaration.member? static name = some f) :
      Provides log static name c f
  | inherited {info : ClassInfo} {superclass : Class} {declaration : ClassDecl}
      {f : FunctionDecl}
      (declared : DeclaredIn log declaration (.derived info superclass))
      (lacks : declaration.member? static name = none)
      (provides : Provides log static name superclass f) :
      Provides log static name (.derived info superclass) f

/-- What the nearest class has of its own is what the lineage provides. -/
theorem provides_iff {log : Log} {static : Bool} {name : String} {c : Class}
    {f : FunctionDecl}
    (hdeclared : ∀ d ∈ c.lineage, ∃ declaration, DeclaredIn log declaration d) :
    Provides log static name c f ↔
      (c.find? static name).map Closure.declaration = some f := by
  constructor
  · intro h
    clear hdeclared
    induction h with
    | @own c declaration f declared last =>
      obtain ⟨method, hmethod, rfl⟩ :=
        Option.map_eq_some_iff.1 ((declared.members static name).trans last)
      cases c with
      | base info => exact congrArg _ (Class.find?_base.trans hmethod)
      | derived info superclass =>
        have hown : (info.members static).find? name = some method := hmethod
        rw [Class.find?_derived, hown]
        rfl
    | @inherited info superclass declaration f declared lacks provides ih =>
      have hnone : (info.members static).find? name = none :=
        Option.map_eq_none_iff.1 ((declared.members static name).trans lacks)
      rw [Class.find?_derived, hnone]
      exact ih
  · intro h
    induction c with
    | base info =>
      obtain ⟨declaration, hbase⟩ := hdeclared _ List.mem_cons_self
      rw [Class.find?_base] at h
      exact .own hbase ((hbase.members static name).symm.trans h)
    | derived info superclass ih =>
      obtain ⟨⟨declaration, hderived⟩, hrest⟩ := List.forall_mem_cons.1 hdeclared
      have hmembers := hderived.members static name
      rw [Class.find?_derived] at h
      cases hown : (info.members static).find? name with
      | some method =>
        rw [hown] at h
        exact .own hderived
          (hmembers.symm.trans ((congrArg (Option.map _) hown).trans h))
      | none =>
        rw [hown] at h
        exact .inherited hderived
          (hmembers.symm.trans (congrArg (Option.map _) hown)) (ih hrest h)

/-! ## Objects -/

namespace Machine

/-- The machine meets the object: it has it at hand or calls it, or it does so
with an instance of it or with a class below it. -/
inductive Meets (m : Machine) (v : Value) : Prop where
  | had {w : Value} (has : m.Has w) (part : v ∈ w.parts)
  | called {c : Class} {line : Nat} {earlier : List Value} {later : List Expr}
      (waits : .argument (.cls c) line earlier later ∈ m.stack)
      (part : v ∈ (Value.cls c).parts)

theorem Enrolled.has {roll : List Value} {m : Machine} (h : Enrolled roll m)
    {v : Value} (hv : m.Has v) : v.Enrolled roll := by
  have hcontrol := h.control
  cases hv with
  | «variable» held => exact h.store.values _ _ v held
  | field held => exact h.store.fields _ _ v held
  | result control =>
    rw [control] at hcontrol
    exact hcontrol
  | returned control =>
    rw [control] at hcontrol
    exact hcontrol
  | operand waits => exact h.stack _ waits
  | argument waits given => exact (h.stack _ waits).2 v given
  | object waits => exact h.stack _ waits

theorem Enrolled.meets {roll : List Value} {m : Machine} (h : Enrolled roll m)
    {v : Value} (hv : m.Meets v) : v.Enrolled roll := by
  cases hv with
  | had has part => exact (h.has has).part part
  | called waits part =>
    exact Value.Enrolled.part (v := .cls _) (h.stack _ waits).1 part

/-- An object stands on the roll under its number. -/
theorem entry_of_objectId? {roll : List Value} {v : Value}
    (h : v.Enrolled roll) {id : ObjectId} (hid : objectId? v = some id) :
    roll[id]? = some v := by
  cases v with
  | inst object =>
    cases hid
    exact h.1
  | cls c =>
    cases hid
    exact Class.Enrolled.entry h
  | _ => cases hid

/-- What a value from the store is settled to is the value, for no getter is in
the store. -/
theorem settle_of_sane {v : Value} (h : v.Sane) (set : Setting) (line : Nat)
    (stack : List Pending) (st : State) :
    settle set v line stack st = ⟨.value v, stack, st⟩ := by
  cases v with
  | function f =>
    have hgetter : ¬ f.isGetter = true := by rw [h.1]; decide
    exact if_neg hgetter
  | _ => rfl

end Machine

open Machine (Meets entry_of_objectId? settle_of_sane)

/-- All that the machine has at hand is on a roll of objects that the steps of
the log have made. -/
def Recorded (log : Log) (m : Machine) : Prop :=
  ∃ roll, Enrolled roll m ∧ ∀ v ∈ roll, ∃ x ∈ log, Creates x.1 x.2 v

section

variable {log : Log} {m : Machine}

theorem Recorded.step (h : Recorded log m) {set : Setting}
    (hset : set.All Behaviour.Honest) :
    Recorded (log ++ [(set, m)]) (Machine.step set m) := by
  obtain ⟨roll, henrolled, hmade⟩ := h
  have hlonger : ∀ v ∈ roll, ∃ x ∈ log ++ [(set, m)], Creates x.1 x.2 v := by
    intro v hv
    obtain ⟨x, hx, hcreates⟩ := hmade v hv
    exact ⟨x, List.mem_append_left _ hx, hcreates⟩
  rcases enrolled_step henrolled hset with hsame | ⟨v, hcreates, hnext⟩
  · exact ⟨roll, hsame, hlonger⟩
  · refine ⟨roll ++ [v], hnext, fun w hw => ?_⟩
    rcases List.mem_append.1 hw with hw | hw
    · exact hlonger w hw
    · rw [List.mem_singleton.1 hw]
      exact ⟨_, List.mem_append_right _ List.mem_cons_self, hcreates⟩

/-- On the course of an interpreter all objects are recorded. -/
theorem Course.recorded {given : List String}
    (h : Course Behaviour.Honest given log m) : Recorded log m := by
  have hstart {roll : List Value} {m m' : Machine} (h : Enrolled roll m)
      (hcontrol : m'.control.Enrolled roll) (hstack : ∀ p ∈ m'.stack, p.Enrolled roll)
      (hstore : m'.state.store.All (Value.Enrolled roll))
      (hfields : m'.state.store.fields = m.state.store.fields) :
      Enrolled roll m' :=
    ⟨⟨hstack, hstore, (congrArg Array.size hfields).trans h.count⟩, hcontrol⟩
  induction h with
  | new maxDepth sink =>
    exact ⟨[], ⟨⟨by rintro _ ⟨⟩, Store.All.start.define _ _ trivial, rfl⟩, trivial⟩,
      by rintro _ ⟨⟩⟩
  | native _ n ih =>
    obtain ⟨roll, henrolled, hmade⟩ := ih
    exact ⟨roll, hstart henrolled trivial (by rintro _ ⟨⟩)
      (henrolled.store.define _ _ trivial) rfl, hmade⟩
  | program _ source firstId store frame ih =>
    obtain ⟨roll, henrolled, hmade⟩ := ih
    refine ⟨roll, hstart henrolled trivial ?_ (store ▸ henrolled.store)
      (congrArg Store.fields store), hmade⟩
    intro pending hpending
    rw [List.mem_singleton.1 hpending]
    trivial
  | expr _ source firstId parsed store frame ih =>
    obtain ⟨roll, henrolled, hmade⟩ := ih
    exact ⟨roll, hstart henrolled trivial (by rintro _ ⟨⟩)
      (store ▸ henrolled.store) (congrArg Store.fields store), hmade⟩
  | step _ allowed ih => exact ih.step allowed

/-- The class and its ancestors were made by class statements. -/
theorem Class.Enrolled.declared {roll : List Value} {c : Class}
    (h : c.Enrolled roll)
    (hmade : ∀ v ∈ roll, ∃ x ∈ log, Creates x.1 x.2 v) :
    ∀ d ∈ c.lineage, ∃ declaration, DeclaredIn log declaration d := by
  intro d hd
  obtain ⟨x, hx, hcreates⟩ :=
    hmade _ (List.mem_of_getElem? (h.ancestor hd).entry)
  cases hcreates with
  | declared declares => exact ⟨_, x, hx, declares⟩

end

/-! ## Properties -/

/-- The step reads the property of the object, which has these fields and these
classes.  A field of its own is handed on as it is.  If there is none, the
member that the class provides is bound to the object, and handed on or, if it
is a getter, called.  And if there is no such member, the property is
undefined. -/
structure ReadsNearest (log : Log) (static : Bool) (set : Setting) (m : Machine)
    (object : Value) (id : ObjectId) (c : Class) (name : Ident)
    (rest : List Pending) : Prop where
  own : ∀ v, m.state.store.field? id name.name = some v →
    Machine.step set m = ⟨.value v, rest, m.state⟩
  member : ∀ f, m.state.store.field? id name.name = none →
    Provides log static name.name c f → ∃ method store bound,
      c.find? static name.name = some method ∧ method.declaration = f ∧
      m.state.store.bindMethod method object = (store, bound) ∧
      store.Sealed bound.frame Keyword.kwThis.lexeme object ∧
      Machine.step set m = settle set (.function bound) name.line rest
        { m.state with store := store }
  missing : m.state.store.field? id name.name = none →
    (∀ f, ¬ Provides log static name.name c f) →
    Machine.step set m =
      ⟨.failed (.undefinedProperty name.name object.display name.line), rest,
        m.state⟩

section

variable {log : Log} {m : Machine} {static : Bool} {set : Setting}
  {object : Value} {id : ObjectId} {c : Class} {name : Ident}
  {rest : List Pending}

theorem readsNearest_of_readProperty
    {method? : String → Option Closure}
    (hmethod : ∀ name, method? name = c.find? static name)
    (hstep : Machine.step set m =
      readProperty set object id method? object.display name rest m.state)
    (hstore : m.state.store.All Value.Sane)
    (hfree : c.All (Closure.Free Chronicle.any m.state.store))
    (hdeclared : ∀ d ∈ c.lineage, ∃ declaration, DeclaredIn log declaration d) :
    ReadsNearest log static set m object id c name rest := by
  constructor
  · intro v hv
    rw [hstep]
    simp only [readProperty, hv]
    exact settle_of_sane (hstore.fields _ _ v hv) set _ _ _
  · intro f hnone hprovides
    obtain ⟨method, hfound, hf⟩ :=
      Option.map_eq_some_iff.1 ((provides_iff hdeclared).1 hprovides)
    obtain ⟨-, _, -, hencloses, -⟩ := hfree.find? hfound
    have hmakes : m.state.store.Makes m.state.store.nextFrame
        Keyword.kwThis.lexeme object (m.state.store.bindMethod method object).1 :=
      .bind object hencloses.1
    refine ⟨method, _, _, hfound, hf, rfl, hmakes.sealed, ?_⟩
    rw [hstep]
    simp only [readProperty, hnone, hmethod, hfound]
    rfl
  · intro hnone hlacks
    have hnothing : c.find? static name.name = none := by
      cases hfound : c.find? static name.name with
      | none => rfl
      | some method =>
        have hprovides := (provides_iff hdeclared).2
          (congrArg (Option.map Closure.declaration) hfound)
        exact absurd hprovides (hlacks method.declaration)
    rw [hstep]
    simp only [readProperty, hnone, hmethod, hnothing]

end

namespace Session

variable {given : List String} {log : Log} {m : Machine}

/-- On any course, with any distances.  Along the lineage of a class the numbers
fall, so that no class is among its own ancestors; a lineage is no longer than
there are objects, and each class in it was made by a class statement.  The
number of an object tells it from all others.  And what is read from an instance
is its own field or the nearest method of its class, and from a class its own
field or its nearest static method. -/
theorem lookup_finds_nearest (h : Course Behaviour.Honest given log m) :
    (∀ c, m.Meets (.cls c) →
      c.lineage.Pairwise (fun d e => e.id < d.id) ∧
      c.lineage.length ≤ m.state.store.nextObject ∧
      ∀ d ∈ c.lineage, ∃ declaration, DeclaredIn log declaration d) ∧
    (∀ v w id, m.Meets v → m.Meets w → objectId? v = some id →
      objectId? w = some id → v = w) ∧
    (∀ set object name rest, m.control = .value (.inst object) →
      m.stack = .get name :: rest →
      ReadsNearest log false set m (.inst object) object.id object.cls name
        rest) ∧
    ∀ set c name rest, m.control = .value (.cls c) →
      m.stack = .get name :: rest →
      ReadsNearest log true set m (.cls c) c.id c name rest := by
  obtain ⟨roll, henrolled, hmade⟩ := h.recorded
  have hsane := (h.mono fun _ => Behaviour.Honest.sparing).sane
  have hhoused := h.steady.housed
  have hlive := hhoused.live ⟨0, .empty, #[], 0, 0⟩ trivial
  refine ⟨fun c hmeets => ?_, fun v w id hv hw hid hid' => ?_, ?_, ?_⟩
  · have hc : c.Enrolled roll := henrolled.meets hmeets
    have hlt : c.id < m.state.store.nextObject :=
      henrolled.count ▸ (List.getElem?_eq_some_iff.1 hc.entry).1
    exact ⟨hc.falls, Nat.le_trans hc.length_lineage hlt, hc.declared hmade⟩
  · have hentry := entry_of_objectId? (henrolled.meets hv) hid
    have hentry' := entry_of_objectId? (henrolled.meets hw) hid'
    exact Option.some.inj (hentry.symm.trans hentry')
  · intro set object name rest hcontrol hstack
    have hobject : (Value.inst object).Housed Chronicle.any m.state.store :=
      housed_has hlive hhoused.store hcontrol (.result hcontrol)
    have hroll : (Value.inst object).Enrolled roll :=
      henrolled.has (.result hcontrol)
    refine readsNearest_of_readProperty object.cls.findMethod?_eq ?_ hsane.store
      hobject.2.members (hroll.2.declared hmade)
    obtain ⟨control, stack, st⟩ := m
    cases hcontrol
    cases hstack
    rfl
  · intro set c name rest hcontrol hstack
    have hclass : c.Housed Chronicle.any m.state.store :=
      housed_has hlive hhoused.store hcontrol (.result hcontrol)
    have hroll : c.Enrolled roll := henrolled.has (.result hcontrol)
    refine readsNearest_of_readProperty c.findStatic?_eq ?_ hsane.store
      hclass.members (hroll.declared hmade)
    obtain ⟨control, stack, st⟩ := m
    cases hcontrol
    cases hstack
    rfl

/-- The second method of a class that has another one and a static method of the
same name. -/
def sampleLast : FunctionDecl :=
  ⟨⟨"m", 1⟩, [], [.return 1 none], .method⟩

/-- The class, and one below it, and a read of the method. -/
def sampleMembers : List Stmt :=
  [.class ⟨⟨"A", 1⟩, none, [⟨⟨"m", 1⟩, [], [], .method⟩, sampleLast,
      ⟨⟨"m", 1⟩, [], [], .static⟩]⟩,
    .class ⟨⟨"B", 1⟩, some ⟨0, "A", 1⟩, []⟩,
    .expression (.get (.call (.variable ⟨1, "B", 1⟩) 1 []) ⟨"m", 1⟩)]

/-- Their text. -/
def sampleMembersText : String :=
  "class A \x7b m() \x7b\x7d m() \x7b return; \x7d class m() \x7b\x7d \x7d " ++
    "class B < A \x7b\x7d B().m;"

/-- The machine that runs them. -/
def sampleMembersStart : Machine :=
  .ofProgram sampleMembers (Session.new 8 .unlimited).start

/-- The machine that has got to the method. -/
def sampleAtMethod : Machine :=
  runAlong sampleSetting (List.replicate 13 0) sampleMembersStart

/-- The instance that the method is read from. -/
def sampleReceiver? : Option Instance :=
  match sampleAtMethod.control with
  | .value (.inst object) => some object
  | _ => none

theorem control_sampleAtMethod {object : Instance}
    (h : sampleReceiver? = some object) :
    sampleAtMethod.control = .value (.inst object) := by
  unfold sampleReceiver? at h
  split at h
  · next hcontrol =>
    cases h
    exact hcontrol
  · cases h

theorem reads_sampleMembers :
    Stmt.Reads 0 (.declarations sampleMembers)
      (Token.scan sampleMembersText).tokens 2 := by
  have hbase : Stmt.Reads 0 (.declaration false (.class ⟨⟨"A", 1⟩, none,
      [⟨⟨"m", 1⟩, [], [], .method⟩, sampleLast, ⟨⟨"m", 1⟩, [], [], .static⟩]⟩))
      [⟨.keyword .kwClass, 1⟩, ⟨.identifier "A", 1⟩, ⟨.symbol .leftBrace, 1⟩,
        ⟨.identifier "m", 1⟩, ⟨.symbol .leftParen, 1⟩, ⟨.symbol .rightParen, 1⟩,
        ⟨.symbol .leftBrace, 1⟩, ⟨.symbol .rightBrace, 1⟩,
        ⟨.identifier "m", 1⟩, ⟨.symbol .leftParen, 1⟩, ⟨.symbol .rightParen, 1⟩,
        ⟨.symbol .leftBrace, 1⟩, ⟨.keyword .kwReturn, 1⟩, ⟨.symbol .semicolon, 1⟩,
        ⟨.symbol .rightBrace, 1⟩, ⟨.keyword .kwClass, 1⟩,
        ⟨.identifier "m", 1⟩, ⟨.symbol .leftParen, 1⟩, ⟨.symbol .rightParen, 1⟩,
        ⟨.symbol .leftBrace, 1⟩, ⟨.symbol .rightBrace, 1⟩,
        ⟨.symbol .rightBrace, 1⟩] 0 :=
    .class (w := [⟨.identifier "A", 1⟩, ⟨.symbol .leftBrace, 1⟩]) .base
      (.member (.member (.member .noMember (.method .empty) .nil)
        (.method .empty) (.snoc .nil (.statement (.return (.intro .none)))))
        (.static .empty) .nil)
  have hderived : Stmt.Reads 0 (.declaration false
      (.class ⟨⟨"B", 1⟩, some ⟨0, "A", 1⟩, []⟩))
      [⟨.keyword .kwClass, 1⟩, ⟨.identifier "B", 1⟩, ⟨.symbol .less, 1⟩,
        ⟨.identifier "A", 1⟩, ⟨.symbol .leftBrace, 1⟩,
        ⟨.symbol .rightBrace, 1⟩] 1 :=
    .class (w := [⟨.identifier "B", 1⟩, ⟨.symbol .less, 1⟩,
      ⟨.identifier "A", 1⟩, ⟨.symbol .leftBrace, 1⟩]) .derived .noMember
  have hget : Stmt.Reads 1 (.statement false (.expression
      (.get (.call (.variable ⟨1, "B", 1⟩) 1 []) ⟨"m", 1⟩)))
      [⟨.identifier "B", 1⟩, ⟨.symbol .leftParen, 1⟩, ⟨.symbol .rightParen, 1⟩,
        ⟨.symbol .dot, 1⟩, ⟨.identifier "m", 1⟩, ⟨.symbol .semicolon, 1⟩] 2 :=
    .expression (.intro (.of_call (.get (.callEmpty .name))))
  have hreads : Stmt.Reads 0 (.declarations sampleMembers) _ 2 :=
    .snoc (.snoc (.snoc .nil hbase) hderived) (.statement hget)
  convert hreads using 1
  with_unfolding_all rfl

/-- An instance of the class below gets the second method, bound to it. -/
theorem lookup_finds_nearest_sample :
    ∃ object rest store bound,
      sampleAtMethod.control = .value (.inst object) ∧
      sampleAtMethod.stack = .get ⟨"m", 1⟩ :: rest ∧
      bound.declaration = sampleLast ∧
      store.Sealed bound.frame Keyword.kwThis.lexeme (.inst object) ∧
      Machine.step (sampleSetting 0) sampleAtMethod =
        settle (sampleSetting 0) (.function bound) 1 rest
          { sampleAtMethod.state with store := store } := by
  have hstart : Course Behaviour.Honest ["clock"] [] sampleMembersStart := by
    have hnew : Course Behaviour.Honest ["clock"] [] _ := .new 8 .unlimited
    have hprogram := hnew.program sampleMembersText 0 rfl rfl
    rw [Stmt.parse_of_reads reads_sampleMembers] at hprogram
    exact hprogram
  have hcourse := hstart.run (sampleSetting_all honest_clock)
    (List.replicate 13 0)
  obtain ⟨hclasses, -, hinstances, -⟩ := lookup_finds_nearest hcourse
  have hsome : sampleReceiver?.isSome = true := by with_unfolding_all rfl
  obtain ⟨object, hobject⟩ := Option.isSome_iff_exists.1 hsome
  have hcontrol := control_sampleAtMethod hobject
  have hwaits : sampleAtMethod.stack =
      [.get ⟨"m", 1⟩, .discard, .program []] := by with_unfolding_all rfl
  have hfield : (sampleReceiver?.bind fun o =>
      sampleAtMethod.state.store.field? o.id "m").isNone = true := by
    with_unfolding_all rfl
  have hmember : (sampleReceiver?.bind fun o =>
      (o.cls.find? false "m").map Closure.declaration) = some sampleLast := by
    with_unfolding_all rfl
  rw [hobject] at hfield hmember
  have hmeets : Meets sampleAtMethod (.cls object.cls) :=
    .had (.result hcontrol)
      (List.mem_cons_of_mem _ (List.mem_map_of_mem object.cls.mem_lineage_self))
  have hprovides := (provides_iff (hclasses _ hmeets).2.2).2 hmember
  obtain ⟨method, store, bound, -, hmethod, hbind, hsealed, hstep⟩ :=
    (hinstances (sampleSetting 0) object _ _ hcontrol hwaits).member _
      (Option.isNone_iff_eq_none.1 hfield) hprovides
  have hbound : bound.declaration = method.declaration :=
    congrArg (fun made => made.2.declaration) hbind.symm
  exact ⟨object, _, store, bound, hcontrol, hwaits, hbound.trans hmethod,
    hsealed, hstep⟩

end Session

end Lox
