import Lox.Proofs.Machine.Balance
import Lox.Proofs.Machine.Returning
import Lox.Proofs.Machine.Supply

/-!
# Which bodies a step enters

The bodies of functions that are under way stand on the stack.  A step puts one
more there only if it makes a call (`bodiesIn_step_le`), and the call then enters
the body of its callee, or that of the initializer of the class that is called
(`entered_of_lt`).  The frame of the body holds the parameters of the function;
if there are as many arguments, each parameter has one (`bound_enterBody`).

A getter that is read is called without arguments (`Call.Reads`), and every other
call has an application of the program to it, with as many arguments
(`Call.Applies`).  A machine gets stuck only at a function that is unknown, so one
whose functions are all known does not (`isStuck_step`).
-/

namespace Lox

/-! ## Tables -/

theorem Table.find?_insertAll_of_not_mem {α : Type} {items : List (String × α)}
    {t : Table α} {name : String} (h : name ∉ items.map Prod.fst) :
    (t.insertAll items).find? name = t.find? name := by
  unfold Table.insertAll
  induction items generalizing t with
  | nil => rfl
  | cons item rest ih =>
    rw [List.map_cons, List.mem_cons, not_or] at h
    rw [List.foldl_cons, ih h.2, Table.find?_insert_of_ne _ _ h.1]

/-- The last parameter of a name has the argument at its place. -/
theorem Table.find?_insertAll_zip {α : Type} {names : List String}
    {values : List α} {i : Nat} {name : String} {v : α} (t : Table α)
    (hname : names[i]? = some name) (hv : values[i]? = some v)
    (hlast : ∀ j, i < j → names[j]? ≠ some name) :
    (t.insertAll (names.zip values)).find? name = some v := by
  induction names generalizing values i t with
  | nil => cases hname
  | cons first names ih =>
    cases values with
    | nil => cases hv
    | cons w values =>
      have hrest : ∀ j, names[j]? = some name → i = j + 1 ∨ j + 1 < i := by
        intro j hj
        by_cases hlt : i < j + 1
        · exact absurd hj (hlast (j + 1) hlt)
        · omega
      show ((t.insert first w).insertAll (names.zip values)).find? name = _
      cases i with
      | zero =>
        cases hname
        cases hv
        rw [Table.find?_insertAll_of_not_mem, Table.find?_insert_self]
        intro hmem
        obtain ⟨⟨x, u⟩, hpair, rfl⟩ := List.mem_map.1 hmem
        obtain ⟨j, hj⟩ := List.getElem?_of_mem (List.of_mem_zip hpair).1
        have := hrest j hj
        omega
      | succ i =>
        exact ih _ hname hv fun j hj => hlast (j + 1) (Nat.succ_lt_succ hj)

/-! ## Callees -/

/-- Any functions that are declared, and the native functions with the first so
many numbers. -/
def Supply.known (natives : Nat) : Supply :=
  ⟨fun _ => True, fun n => n.id < natives⟩

/-- How many parameters the callee has: those of the function, of the nearest
initializer of the class, or those that a native function was given with. -/
def Callable.parameters : Callable → Nat
  | .native n => n.arity
  | .closure f => f.declaration.params.length
  | .cls c =>
    match c.find? false initializerName with
    | some f => f.declaration.params.length
    | none => 0

theorem Callable.arity_eq (callee : Callable) :
    callee.arity = callee.parameters := by
  cases callee with
  | native | closure => rfl
  | cls c =>
    show c.arity = _
    rw [Class.arity, c.findMethod?_eq, parameters]
    cases c.find? false initializerName <;> rfl

namespace Machine

variable {set : Setting} {stack : List Pending} {st : State}

/-! ## Bodies under way -/

/-- How many bodies of functions wait on the stack. -/
def bodiesIn : List Pending → Nat
  | [] => 0
  | .body _ _ :: rest => bodiesIn rest + 1
  | _ :: rest => bodiesIn rest

theorem bodiesIn_le_cons (pending : Pending) (stack : List Pending) :
    bodiesIn stack ≤ bodiesIn (pending :: stack) := by
  cases pending with
  | body => exact Nat.le_succ _
  | _ => exact Nat.le_refl _

theorem bodiesIn_le_of_suffix {stack' : List Pending} (h : stack <:+ stack') :
    bodiesIn stack ≤ bodiesIn stack' := by
  obtain ⟨above, rfl⟩ := h
  induction above with
  | nil => exact Nat.le_refl _
  | cons pending above ih =>
    exact Nat.le_trans ih (bodiesIn_le_cons pending (above ++ stack))

/-- There is nothing that the machine could do next. -/
def Control.isStuck : Control → Bool
  | .stuck => true
  | _ => false

/-- The machine goes on above what waits: it is not stuck, and no body was put
on the stack. -/
structure GoesOn (stack : List Pending) (m : Machine) : Prop where
  bodies : bodiesIn m.stack = bodiesIn stack
  control : m.control.isStuck = false

theorem goesOn_deliver (result : Except Failure Value) :
    GoesOn stack (deliver result stack st) := by
  cases result <;> exact ⟨rfl, rfl⟩

theorem goesOn_settle (set : Setting) {v : Value} {line : Nat}
    (h : getterCall? v line stack st = none) :
    GoesOn stack (settle set v line stack st) := by
  cases v with
  | function f =>
    rw [getterCall?] at h
    split at h
    · cases h
    · next hgetter =>
      rw [settle, if_neg hgetter]
      exact ⟨rfl, rfl⟩
  | _ => exact ⟨rfl, rfl⟩

theorem goesOn_readProperty {object : Value} {id : ObjectId}
    {method? : String → Option Closure} {owner : String} {name : Ident}
    (h : propertyCall? object id method? name stack st = none) :
    GoesOn stack (readProperty set object id method? owner name stack st) := by
  unfold propertyCall? at h
  unfold readProperty
  split
  · next hfield =>
    rw [hfield] at h
    exact goesOn_settle set h
  · next hfield =>
    rw [hfield] at h
    split
    · next hmethod =>
      rw [hmethod] at h
      obtain ⟨hbodies, hcontrol⟩ := goesOn_settle set h
      exact ⟨hbodies, hcontrol⟩
    · exact ⟨rfl, rfl⟩

theorem goesOn_getProperty {object : Value} {name : Ident}
    (h : getCall? object name stack st = none) :
    GoesOn stack (getProperty set object name stack st) := by
  cases object with
  | inst | cls =>
    simp only [getCall?] at h
    simp only [getProperty]
    exact goesOn_readProperty h
  | _ => exact ⟨rfl, rfl⟩

theorem goesOn_bindSuper {superclass : Class} {distance line : Nat}
    {method : Ident}
    (h : bindSuperCall? superclass distance line method stack st = none) :
    GoesOn stack (bindSuper set superclass distance line method stack st) := by
  cases distance with
  | zero => exact ⟨rfl, rfl⟩
  | succ inner =>
    simp only [bindSuperCall?] at h
    simp only [bindSuper]
    split
    · exact ⟨rfl, rfl⟩
    · next hobject =>
      rw [hobject] at h
      split
      · exact ⟨rfl, rfl⟩
      · next hmethod =>
        simp only [hmethod] at h
        exact goesOn_settle set h

theorem goesOn_getSuper {id line : Nat} {method : Ident}
    (h : superCall? set id line method stack st = none) :
    GoesOn stack (getSuper set id line method stack st) := by
  unfold superCall? at h
  unfold getSuper
  split
  · exact ⟨rfl, rfl⟩
  · next hdistance =>
    rw [hdistance] at h
    split
    · exact ⟨rfl, rfl⟩
    · next hclass =>
      simp only [hclass] at h
      exact goesOn_bindSuper h
    · exact ⟨rfl, rfl⟩

theorem goesOn_makeClass (declaration : ClassDecl) (superclass : Option Class) :
    GoesOn stack (makeClass declaration superclass stack st) := by
  have hname (c : Class) (store : Store) :
      GoesOn stack (nameClass declaration.name c store stack st) := by
    unfold nameClass
    split <;> exact ⟨rfl, rfl⟩
  cases superclass with
  | none => exact hname _ _
  | some c => exact hname _ _

theorem goesOn_passArguments {callee : Callable} {line : Nat}
    {earlier : List Value} {later : List Expr}
    (h : argumentsCall? callee line earlier later stack st = none) :
    GoesOn stack (passArguments set callee line earlier later stack st) := by
  cases later with
  | nil => cases h
  | cons => exact ⟨rfl, rfl⟩

theorem goesOn_evaluate {e : Expr}
    (h : nextCall? set ⟨.eval e, stack, st⟩ = none) :
    GoesOn stack (evaluate set e stack st) := by
  cases e with
  | «variable» | this => exact goesOn_deliver _
  | super => exact goesOn_getSuper h
  | _ => exact ⟨rfl, rfl⟩

theorem goesOn_execute (s : Stmt) : GoesOn stack (execute s stack st) := by
  cases s with
  | var name initializer => cases initializer <;> exact ⟨rfl, rfl⟩
  | «return» line value => cases value <;> exact ⟨rfl, rfl⟩
  | «class» declaration =>
    simp only [execute]
    split
    · exact goesOn_makeClass declaration none
    · exact ⟨rfl, rfl⟩
  | _ => exact ⟨rfl, rfl⟩

theorem goesOn_resume {v : Value} {pending : Pending}
    (htakes : pending.takes = .value)
    (h : resumeCall? v pending stack st = none) :
    GoesOn stack (resume set v pending stack st) := by
  cases pending with
  | loopBody | block | body | program => cases htakes
  | unary | binaryRight => exact goesOn_deliver _
  | logical op right =>
    simp only [resume]
    split <;> exact ⟨rfl, rfl⟩
  | assign target =>
    simp only [resume, assign]
    split <;> exact ⟨rfl, rfl⟩
  | callee line arguments =>
    rw [resumeCall?] at h
    simp only [resume]
    split
    · next hcallee =>
      rw [hcallee] at h
      exact goesOn_passArguments h
    · exact ⟨rfl, rfl⟩
  | argument => exact goesOn_passArguments h
  | get => exact goesOn_getProperty h
  | setObject name value =>
    simp only [resume]
    split <;> exact ⟨rfl, rfl⟩
  | print =>
    simp only [resume, printValue]
    split <;> exact ⟨rfl, rfl⟩
  | branch thenBranch elseBranch =>
    simp only [resume]
    split
    · exact ⟨rfl, rfl⟩
    · split <;> exact ⟨rfl, rfl⟩
  | loopTest condition body =>
    simp only [resume]
    split <;> exact ⟨rfl, rfl⟩
  | superclass declaration line =>
    cases v with
    | cls parent => exact goesOn_makeClass declaration (some parent)
    | _ => exact ⟨rfl, rfl⟩
  | _ => exact ⟨rfl, rfl⟩

theorem goesOn_complete {c : Completion} {pending : Pending}
    (htakes : pending.takes = .completion) :
    GoesOn stack (complete c pending stack st) := by
  cases pending with
  | loopBody condition body => cases c <;> exact ⟨rfl, rfl⟩
  | block later saved => cases c <;> cases later <;> exact ⟨rfl, rfl⟩
  | body f line => exact goesOn_deliver _
  | program later => cases c <;> cases later <;> exact ⟨rfl, rfl⟩
  | _ => cases htakes

/-- A value that is handed to a construct that waits for a completion. -/
theorem resume_of_takes {pending : Pending} (h : pending.takes = .completion)
    (v : Value) : resume set v pending stack st = ⟨.stuck, stack, st⟩ := by
  cases pending with
  | loopBody | block | body | program => rfl
  | _ => cases h

/-- A completion that is handed to a construct that waits for a value. -/
theorem complete_of_takes {pending : Pending} (h : pending.takes = .value)
    (c : Completion) : complete c pending stack st = ⟨.stuck, stack, st⟩ := by
  cases pending with
  | loopBody | block | body | program => cases h
  | _ => rfl

/-- Without a call there are no more bodies under way than before. -/
theorem bodiesIn_step_le {m : Machine} (h : nextCall? set m = none) :
    bodiesIn (step set m).stack ≤ bodiesIn m.stack := by
  obtain ⟨control, stack, st⟩ := m
  cases control with
  | eval e => exact Nat.le_of_eq (goesOn_evaluate h).bodies
  | exec s => exact Nat.le_of_eq (goesOn_execute s).bodies
  | value v =>
    cases stack with
    | nil => exact Nat.le_refl _
    | cons pending stack =>
      refine Nat.le_trans (Nat.le_of_eq ?_) (bodiesIn_le_cons pending stack)
      show bodiesIn (resume set v pending stack st).stack = _
      cases htakes : pending.takes with
      | value => exact (goesOn_resume htakes h).bodies
      | completion => rw [resume_of_takes htakes]
  | completed c =>
    cases stack with
    | nil => exact Nat.le_refl _
    | cons pending stack =>
      refine Nat.le_trans (Nat.le_of_eq ?_) (bodiesIn_le_cons pending stack)
      show bodiesIn (complete c pending stack st).stack = _
      cases htakes : pending.takes with
      | value => rw [complete_of_takes htakes]
      | completion => exact (goesOn_complete htakes).bodies
  | failed f =>
    cases stack with
    | nil => exact Nat.le_refl _
    | cons pending stack => exact bodiesIn_le_cons pending stack
  | stuck => exact Nat.le_refl _

/-- Without a call a machine whose stack waits for what is handed on does not
get stuck. -/
theorem isStuck_of_noCall {m : Machine} (h : nextCall? set m = none)
    (hsuits : m.control.Suits m.stack) (hm : m.control.isStuck = false) :
    (step set m).control.isStuck = false := by
  obtain ⟨control, stack, st⟩ := m
  cases control with
  | eval e => exact (goesOn_evaluate h).control
  | exec s => exact (goesOn_execute s).control
  | value v =>
    cases stack with
    | nil => exact rfl
    | cons pending stack => exact (goesOn_resume hsuits.1 h).control
  | completed c =>
    cases stack with
    | nil => exact rfl
    | cons pending stack => exact (goesOn_complete hsuits.1).control
  | failed f => cases stack <;> exact rfl
  | stuck => exact hm

/-! ## Bodies that are entered -/

/-- The function whose body the call runs: the one that is called, or the
nearest initializer of the class that is called, bound to the instance. -/
inductive Call.Runs (c : Call) (f : Closure) : Prop where
  | function (called : c.callee = .closure f)
  | initializer {cls : Class} {method : Closure} (called : c.callee = .cls cls)
      (nearest : cls.find? false initializerName = some method)
      (same : f.declaration = method.declaration)

theorem Call.Runs.parameters {c : Call} {f : Closure} (h : c.Runs f) :
    c.callee.parameters = f.declaration.params.length := by
  cases h with
  | function called =>
    rw [called]
    rfl
  | initializer called nearest same =>
    rw [called, Callable.parameters, nearest, same]

/-- The frame holds the parameters: there are as many arguments, each parameter
has one, and the last one of a name has that at its place. -/
structure Bound (params : List Ident) (arguments : List Value) (s : Store)
    (frame : FrameId) : Prop where
  count : arguments.length = params.length
  all : ∀ x ∈ params, (s.valueIn? frame x.name).isSome = true
  own : ∀ (i : Nat) (x : Ident) (v : Value), params[i]? = some x →
    arguments[i]? = some v →
    (∀ (j : Nat) (y : Ident), i < j → params[j]? = some y → y.name ≠ x.name) →
    s.valueIn? frame x.name = some v

theorem bound_enterBody {f : Closure} {arguments : List Value}
    (h : arguments.length = f.declaration.params.length) (line : Nat) :
    Bound f.declaration.params arguments
      (enterBody f arguments line stack st).state.store
      (enterBody f arguments line stack st).state.frame := by
  have hvalue (name : String) :
      (enterBody f arguments line stack st).state.store.valueIn?
          (enterBody f arguments line stack st).state.frame name =
        (Table.empty.insertAll
          ((f.declaration.params.map Ident.name).zip arguments)).find? name := by
    show (st.store.addFrame _ _).valueIn? st.store.nextFrame name = _
    rw [Store.valueIn?_addFrame, if_pos rfl]
  refine ⟨h, fun x hx => ?_, fun i x v hi hv hlast => ?_⟩
  · have hnames : (f.declaration.params.map Ident.name).length ≤
        arguments.length := by
      rw [List.length_map]
      exact Nat.le_of_eq h.symm
    rw [hvalue, Table.isSome_find?_insertAll, List.map_fst_zip hnames]
    simp only [List.mem_map_of_mem hx, decide_true, Bool.true_or]
  · rw [hvalue]
    refine Table.find?_insertAll_zip _ (i := i) ?_ hv fun j hj hname => ?_
    · rw [List.getElem?_map, hi]
      rfl
    · rw [List.getElem?_map] at hname
      obtain ⟨y, hy, hsame⟩ := Option.map_eq_some_iff.1 hname
      exact hlast j y hj hy hsame

/-- The initializer of a class is bound to the new instance and entered. -/
theorem construct_of_some {cls : Class} {method : Closure}
    (h : cls.findMethod? initializerName = some method)
    (arguments : List Value) (line : Nat) :
    construct cls arguments line stack st =
      enterBody (st.store.addObject.bindMethod method
          (.inst ⟨st.store.nextObject, cls⟩)).2 arguments line
        (.construct ⟨st.store.nextObject, cls⟩ :: stack)
        { st with store := (st.store.addObject.bindMethod method
          (.inst ⟨st.store.nextObject, cls⟩)).1 } := by
  simp only [construct, h]

/-- A call that puts a body on the stack enters the body of the function that
it runs, with as many arguments as parameters. -/
theorem entered_of_lt {c : Call}
    (h : bodiesIn c.stack < bodiesIn (c.make set).stack) :
    c.Matches ∧ ∃ f base st, c.Runs f ∧
      c.make set = enterBody f c.arguments c.line base st := by
  unfold Call.make invoke at h
  split at h
  · exact absurd h (Nat.lt_irrefl _)
  · next harity =>
    have hmatches : c.arguments.length = c.callee.arity :=
      Decidable.not_not.1 harity
    split at h
    · exact absurd h (Nat.lt_irrefl _)
    · next hdepth =>
      refine ⟨hmatches, ?_⟩
      rw [Call.make, invoke, if_neg harity, if_neg hdepth]
      cases hcallee : c.callee with
      | closure f => exact ⟨f, _, _, .function hcallee, rfl⟩
      | native n =>
        rw [hcallee, enter] at h
        split at h
        · exact absurd h (Nat.lt_irrefl _)
        · split at h <;> exact absurd h (Nat.lt_irrefl _)
      | cls cls =>
        rw [hcallee, enter] at h
        cases hmethod : cls.findMethod? initializerName with
        | none =>
          simp only [construct, hmethod] at h
          exact absurd h (Nat.lt_irrefl _)
        | some method =>
          rw [enter, construct_of_some hmethod]
          rw [Class.findMethod?_eq] at hmethod
          refine ⟨_, _, _, ?_, rfl⟩
          exact .initializer hcallee hmethod rfl

/-! ## Getters -/

variable {K : Supply}

/-- The call is that of a getter that is read, on top of what waits: it has no
arguments. -/
structure Call.Reads (K : Supply) (c : Call) (stack : List Pending) : Prop where
  stack : c.stack = stack
  nothing : c.arguments = []
  getter : ∃ f, c.callee = .closure f ∧ f.isGetter = true ∧ f.From K

theorem reads_getterCall? {v : Value} (hv : v.From K) {line : Nat} {c : Call}
    (h : getterCall? v line stack st = some c) : c.Reads K stack := by
  unfold getterCall? at h
  split at h
  · next f =>
    split at h
    · next hgetter =>
      cases h
      exact ⟨rfl, rfl, f, rfl, hgetter, hv⟩
    · cases h
  · cases h

theorem reads_propertyCall? (hstore : st.store.All (Value.From K))
    {object : Value} {id : ObjectId} {method? : String → Option Closure}
    (hmethod : ∀ name f, method? name = some f → f.From K) {name : Ident}
    {c : Call} (h : propertyCall? object id method? name stack st = some c) :
    c.Reads K stack := by
  unfold propertyCall? at h
  split at h
  · next v hfield => exact reads_getterCall? (hstore.fields _ _ v hfield) h
  · split at h
    · next method hfound =>
      exact reads_getterCall? (v := .function
        (st.store.bindMethod method object).2) (hmethod _ method hfound) h
    · cases h

theorem reads_getCall? (hstore : st.store.All (Value.From K)) {v : Value}
    (hv : v.From K) {name : Ident} {c : Call}
    (h : getCall? v name stack st = some c) : c.Reads K stack := by
  unfold getCall? at h
  split at h
  · exact reads_propertyCall? hstore
      (fun _ f hf => Class.All.findMethod? hv hf) h
  · exact reads_propertyCall? hstore
      (fun _ f hf => Class.All.findStatic? hv hf) h
  · cases h

theorem reads_superCall? (hstore : st.store.All (Value.From K)) {id line : Nat}
    {method : Ident} {c : Call}
    (h : superCall? set id line method stack st = some c) :
    c.Reads K stack := by
  unfold superCall? bindSuperCall? at h
  split at h
  · cases h
  · split at h
    · next superclass hread =>
      have hclass : (Value.cls superclass).From K := hstore.readAt hread
      split at h
      · cases h
      · split at h
        · cases h
        · split at h
          · cases h
          · next object hobject _ f hf =>
            have hmethod : f.From K :=
              Class.All.findMethod? (P := Closure.From K) hclass hf
            exact reads_getterCall? (v := .function
              (st.store.bindMethod f object).2) hmethod h
    · cases h

/-- The next step reads a property of a value, or a method through `super`. -/
inductive ReadsProperty : Machine → Prop where
  | get {v : Value} {name : Ident} {stack : List Pending} {st : State} :
      ReadsProperty ⟨.value v, .get name :: stack, st⟩
  | super {id line : Nat} {method : Ident} {stack : List Pending} {st : State} :
      ReadsProperty ⟨.eval (.super id line method), stack, st⟩

/-- The call takes up the values of a call expression, and leaves everything
else as it is. -/
structure Call.Applies (K : Supply) (c : Call) (m : Machine) : Prop where
  callee : c.callee.From K
  stack : c.stack = m.stack.tail
  state : c.state = m.state
  noProperty : ¬ ReadsProperty m

/-- A call is made on top of what waits.  It is that of a getter that is read,
or that of a call expression. -/
theorem reads_or_applies {m : Machine} (h : m.From K) {c : Call}
    (hc : nextCall? set m = some c) :
    c.stack <:+ m.stack ∧ (c.Reads K c.stack ∨ c.Applies K m) := by
  obtain ⟨⟨hstack, hstore⟩, hcontrol⟩ := h
  unfold nextCall? at hc
  split at hc
  · have hreads := reads_superCall? hstore hc
    rw [hreads.stack]
    exact ⟨List.suffix_refl _, .inl hreads⟩
  · next v pending stack st =>
    have hbelow : stack <:+ pending :: stack := List.suffix_cons pending stack
    unfold resumeCall? at hc
    split at hc
    · next line arguments =>
      split at hc
      · next callee hcallee =>
        cases arguments with
        | nil =>
          cases hc
          have hfrom : callee.From K :=
            Value.From.callable? (v := v) hcontrol hcallee
          exact ⟨hbelow, .inr ⟨hfrom, rfl, rfl, by rintro ⟨⟩⟩⟩
        | cons => cases hc
      · cases hc
    · next callee line earlier later =>
      cases later with
      | nil =>
        cases hc
        have hfrom : callee.From K := (hstack _ List.mem_cons_self).1
        exact ⟨hbelow, .inr ⟨hfrom, rfl, rfl, by rintro ⟨⟩⟩⟩
      | cons => cases hc
    · have hreads := reads_getCall? hstore hcontrol hc
      rw [hreads.stack]
      exact ⟨hbelow, .inl hreads⟩
    · cases hc
  · cases hc

/-! ## Stuck machines -/

/-- The callee of a call is from the supply. -/
theorem from_nextCall? {m : Machine} (h : m.From K) {c : Call}
    (hc : nextCall? set m = some c) : c.callee.From K := by
  rcases (reads_or_applies h hc).2 with ⟨-, -, f, hf, -, hfrom⟩ | happlies
  · rw [hf]
    exact hfrom
  · exact happlies.callee

/-- A call of a callee whose native functions the setting has. -/
theorem isStuck_make {c : Call}
    (h : ∀ n, c.callee = .native n → n.id < set.natives.size) :
    (c.make set).control.isStuck = false := by
  unfold Call.make invoke
  split
  · exact rfl
  · split
    · exact rfl
    · cases hcallee : c.callee with
      | closure f => exact rfl
      | cls cls =>
        simp only [enter, construct]
        split <;> exact rfl
      | native n =>
        have hbehaviour := Array.getElem?_eq_getElem (h n hcallee)
        simp only [enter, hbehaviour]
        split <;> exact rfl

/-- A machine that knows its native functions, and whose stack waits for what
is handed on, does not get stuck. -/
theorem isStuck_step {m : Machine} (h : m.From (.known set.natives.size))
    (hsuits : m.control.Suits m.stack) (hm : m.control.isStuck = false) :
    (step set m).control.isStuck = false := by
  cases hc : nextCall? set m with
  | none => exact isStuck_of_noCall hc hsuits hm
  | some c =>
    rw [step_eq_alone hc, ← c.make_eq]
    refine isStuck_make fun n hn => ?_
    have hfrom := from_nextCall? h hc
    rw [hn] at hfrom
    exact hfrom

end Machine

end Lox
