import Lox.Proofs.Machine.Receivers
import Lox.Proofs.Session.Lookup

/-!
# Receivers of a session

All code that a reachable session holds is seated (`Reached.seated`).  So in
everything that is run or evaluated there, a method that is reached through
`super` is bound to an instance of a class below the one it is searched in, or
to such a class itself; the latter takes a `super` in a function nested in a
static method, which the scope rules do not see (`super_receives`).
-/

namespace Lox

namespace Scope

/-- What stands in a part of a program stands in the program. -/
theorem Stands.widen {list : List Stmt} {p : Place} {s : Stmt}
    (h : Stands list p s) (before after : List Stmt) :
    ∃ p', Stands (before ++ list ++ after) p' s := by
  induction h with
  | @top before' s after' hlist =>
    have hprogram : before ++ list ++ after =
        (before ++ before') ++ s :: (after' ++ after) := by
      simp [hlist]
    exact ⟨.top, .top hprogram⟩
  | block _ ih =>
    obtain ⟨p', hp'⟩ := ih
    exact ⟨_, hp'.block⟩
  | thenBranch _ ih =>
    obtain ⟨p', hp'⟩ := ih
    exact ⟨_, hp'.thenBranch⟩
  | elseBranch _ ih =>
    obtain ⟨p', hp'⟩ := ih
    exact ⟨_, hp'.elseBranch⟩
  | loop _ ih =>
    obtain ⟨p', hp'⟩ := ih
    exact ⟨_, hp'.loop⟩
  | function _ hbody ih =>
    obtain ⟨p', hp'⟩ := ih
    exact ⟨_, hp'.function hbody⟩
  | member _ hf hbody ih =>
    obtain ⟨p', hp'⟩ := ih
    exact ⟨_, hp'.member hf hbody⟩

end Scope

theorem SuperGuarded.part {list : List Stmt} (before after : List Stmt)
    (h : SuperGuarded (before ++ list ++ after)) : SuperGuarded list := by
  intro p c f hc hf hstatic
  obtain ⟨p', hc'⟩ := hc.widen before after
  exact h p' c f hc' hf hstatic

namespace Session

open Machine (Binds Seated runAlong)

variable {strict : Bool} {program : List Stmt} {s s' : Session}

/-! ## Loading -/

/-- Loading changes nothing that is known of earlier code. -/
theorem keeps_load (s : Session) (source : String)
    (program program' : List Stmt) :
    (s.ledger program).Keeps ((s.load source).1.ledger program') := by
  obtain ⟨n, distances, hs', hle, hfind⟩ := s.load_changes source
  rw [hs']
  intro id distance hrecords
  refine ⟨Nat.lt_of_lt_of_le hrecords.lt hle, ?_⟩
  rw [← hrecords.find]
  exact hfind id (.inl hrecords.lt)

theorem keeps_loadExpr (s : Session) (source : String) (program : List Stmt) :
    (s.ledger program).Keeps ((s.loadExpr source).1.ledger program) := by
  obtain ⟨n, hs', hle⟩ := s.loadExpr_changes source
  rw [hs']
  intro id distance hrecords
  exact ⟨Nat.lt_of_lt_of_le hrecords.lt hle, hrecords.find⟩

theorem store_load (s : Session) (source : String) :
    (s.load source).1.store = s.store := by
  obtain ⟨n, distances, hs', -⟩ := s.load_changes source
  rw [hs']

theorem store_loadExpr (s : Session) (source : String) :
    (s.loadExpr source).1.store = s.store := by
  obtain ⟨n, hs', -⟩ := s.loadExpr_changes source
  rw [hs']

/-- An accepted program starts seated. -/
theorem seated_ofProgram (h : Coherent program s)
    (hstore : s.store.Seated strict (s.ledger program)) {source : String}
    {list : List Stmt} (hload : s.load source = (s', .ok list))
    (hguarded : strict = true → SuperGuarded (program ++ list)) :
    Seated strict (s'.ledger (program ++ list)) (.ofProgram list s'.start) := by
  obtain ⟨hcoherent, hlist⟩ := h.load_ok hload
  obtain ⟨-, hreads, -⟩ := load_eq_ok.1 hload
  have hkeeps := s.keeps_load source program (program ++ list)
  have hsame := s.store_load source
  rw [hload] at hkeeps hsame
  have hseated : s'.store.Seated strict (s'.ledger (program ++ list)) :=
    hsame ▸ hstore.keep hkeeps
  have hguarded' (hstrict : strict = true) : SuperGuarded list := by
    refine SuperGuarded.part program [] ?_
    rw [List.append_nil]
    exact hguarded hstrict
  have hcode := Scope.seatedAt_program (no_breach_of_load hload) hguarded'
    (hreads.wellFormed (Token.named_scan _)) hlist
  exact ⟨hseated, none, hcoherent.store.root, trivial, hcode, trivial, none, rfl,
    trivial⟩

theorem seated_ofExpr (h : Coherent program s)
    (hstore : s.store.Seated strict (s.ledger program)) {source : String}
    {e : Expr} (hload : s.loadExpr source = (s', .ok e)) :
    Seated strict (s'.ledger program) (.ofExpr e s'.start) := by
  obtain ⟨hcoherent, he⟩ := h.loadExpr_ok hload
  have hkeeps := s.keeps_loadExpr source program
  have hsame := s.store_loadExpr source
  rw [hload] at hkeeps hsame
  have hseated : s'.store.Seated strict (s'.ledger program) :=
    hsame ▸ hstore.keep hkeeps
  exact ⟨hseated, none, hcoherent.store.root, Expr.seated_of_unbound he, trivial⟩

/-! ## Running -/

theorem seated_run (h : Coherent program s)
    (hstore : s.store.Seated strict (s.ledger program)) (times : List Float)
    (source : String)
    (hguarded : strict = true → SuperGuarded (program ++ s.accepted source)) :
    (s.runWith (driveAlong times) source).1.store.Seated strict
      ((s.runWith (driveAlong times) source).1.ledger
        (program ++ s.accepted source)) := by
  have hkeeps := s.keeps_load source program program
  have hsame := s.store_load source
  cases hload : s.load source with
  | mk s' result =>
    rw [hload] at hkeeps hsame
    simp only [runWith, accepted, hload] at hguarded ⊢
    cases result with
    | error diagnostics =>
      rw [List.append_nil]
      exact hsame ▸ hstore.keep hkeeps
    | ok list =>
      obtain ⟨hcoherent, hlist⟩ := h.load_ok hload
      have hsafe := hcoherent.safe_program hlist []
      exact (Machine.seated_runAlong hcoherent.suits hsafe
        (seated_ofProgram h hstore hload hguarded) times).store

theorem seated_eval (h : Coherent program s)
    (hstore : s.store.Seated strict (s.ledger program)) (times : List Float)
    (source : String) :
    (s.evalWith (driveAlong times) source).1.store.Seated strict
      ((s.evalWith (driveAlong times) source).1.ledger program) := by
  have hkeeps := s.keeps_loadExpr source program
  have hsame := s.store_loadExpr source
  cases hload : s.loadExpr source with
  | mk s' result =>
    rw [hload] at hkeeps hsame
    simp only [evalWith, hload]
    cases result with
    | error diagnostics => exact hsame ▸ hstore.keep hkeeps
    | ok e =>
      obtain ⟨hcoherent, he⟩ := h.loadExpr_ok hload
      have hsafe := hcoherent.safe_expr he []
      exact (Machine.seated_runAlong hcoherent.suits hsafe
        (seated_ofExpr h hstore hload) times).store

theorem seated_new (maxDepth : Nat) (sink : Sink) :
    (Session.new maxDepth sink).store.Seated strict
      ((Session.new maxDepth sink).ledger []) := by
  let base := Store.empty.addFrame none .empty
  have hbase : base.Seated strict ((Session.new maxDepth sink).ledger []) := by
    refine ⟨?_, nofun⟩
    intro frame name v hv
    rw [Store.valueIn?_addFrame] at hv
    split at hv <;> cases hv
  exact hbase.define (.define (.inr rfl) _) trivial

/-- All code of a reachable session is seated; for a strict count, if no static
method given to run holds a `super`. -/
theorem Reached.seated (h : Reached program s)
    (hguarded : strict = true → SuperGuarded program) :
    s.store.Seated strict (s.ledger program) := by
  induction h with
  | new maxDepth sink => exact seated_new maxDepth sink
  | @native program s h name arity behaviour faithful ih =>
    have hroot : s.store.parent? globals = none := by
      cases hparent : s.store.parent? globals with
      | none => rfl
      | some p => exact absurd (Store.parent?_lt hparent) (Nat.not_lt_zero p)
    exact (ih hguarded).define (.define (.inr hroot) _) trivial
  | sink h sink ih => exact ih hguarded
  | @run program s h times source ih =>
    have hearlier (hstrict : strict = true) : SuperGuarded program :=
      SuperGuarded.part [] (s.accepted source) (hguarded hstrict)
    exact seated_run h.coherent (ih hearlier) times source hguarded
  | eval h times source ih =>
    exact seated_eval h.coherent (ih hguarded) times source

/-! ## What `super` binds -/

/-- If the next step reads a method through an occurrence of `super` that has a
distance, it binds the method to an instance of a class below the one it is
searched in.  Only if a static method in `program` holds a `super`, it may bind
it to such a class itself. -/
def Receives (program : List Stmt) (set : Machine.Setting) (m : Machine) :
    Prop :=
  ∀ id line method d, m.control = .eval (.super id line method) →
    set.distances.find? id = some d →
    ∃ superclass receiver, Binds set m id method superclass receiver ∧
      ((∃ object, receiver = .inst object ∧
          superclass ∈ object.cls.ancestors) ∨
        ∃ c, receiver = .cls c ∧ superclass ∈ c.ancestors ∧
          ¬ SuperGuarded program)

theorem receives_of_seated {L : Ledger} {set : Machine.Setting} {m : Machine}
    (hset : set.Suits L)
    (h : ∀ strict, (strict = true → SuperGuarded program) → Seated strict L m) :
    Receives program set m := by
  intro id line method d hcontrol hd
  by_cases hguarded : SuperGuarded program
  · obtain ⟨superclass, receiver, hbinds, hinherits⟩ :=
      Machine.binds_of_seated (h true fun _ => hguarded) hset hcontrol hd
    refine ⟨superclass, receiver, hbinds, .inl ?_⟩
    cases receiver with
    | inst object => exact ⟨object, rfl, hinherits⟩
    | cls c => cases hinherits.1
    | _ => exact hinherits.elim
  · obtain ⟨superclass, receiver, hbinds, hinherits⟩ :=
      Machine.binds_of_seated (h false nofun) hset hcontrol hd
    refine ⟨superclass, receiver, hbinds, ?_⟩
    cases receiver with
    | inst object => exact .inl ⟨object, rfl, hinherits⟩
    | cls c => exact .inr ⟨c, rfl, hinherits.2, hguarded⟩
    | _ => exact hinherits.elim

/-- The scope rules keep `super` out of static methods, but not out of the
functions nested in them.  In a reachable session take a source that is
accepted and run, or one that is evaluated as an expression, and any machine on
the way: a method that it reaches through `super` is bound to an instance of a
class below the one it is searched in, unless a function nested in a static
method holds a `super`. -/
theorem super_receives (h : Reached program s) (source : String)
    (times : List Float) (now : Float) :
    (∀ s' list, s.load source = (s', .ok list) →
      (∀ p c f, Scope.Stands list p (.class c) → f ∈ c.methods →
        f.kind = .static → Stmt.supersAll false f.body = []) ∧
      Receives (program ++ list) (s'.setting now)
        (runAlong s'.setting times (.ofProgram list s'.start))) ∧
    (∀ s' e, s.loadExpr source = (s', .ok e) →
      Receives program (s'.setting now)
        (runAlong s'.setting times (.ofExpr e s'.start))) := by
  constructor
  · intro s' list hload
    refine ⟨fun p c f hc hf hstatic =>
      Scope.supers_of_static (no_breach_of_load hload) hc hf hstatic, ?_⟩
    obtain ⟨hcoherent, hlist⟩ := h.coherent.load_ok hload
    refine receives_of_seated (hcoherent.suits now) fun strict hguarded => ?_
    have hearlier (hstrict : strict = true) : SuperGuarded program :=
      SuperGuarded.part [] list (hguarded hstrict)
    exact Machine.seated_runAlong hcoherent.suits
      (hcoherent.safe_program hlist [])
      (seated_ofProgram h.coherent (h.seated hearlier) hload hguarded) times
  · intro s' e hload
    obtain ⟨hcoherent, he⟩ := h.coherent.loadExpr_ok hload
    refine receives_of_seated (hcoherent.suits now) fun strict hguarded => ?_
    exact Machine.seated_runAlong hcoherent.suits (hcoherent.safe_expr he [])
      (seated_ofExpr h.coherent (h.seated hguarded) hload) times

/-- A class with a method. -/
def sampleBase : Stmt :=
  .class ⟨⟨"A", 1⟩, none, [⟨⟨"m", 1⟩, [], [], .method⟩]⟩

/-- A class below it, with a `super` in a function in a static method. -/
def sampleDerived : Stmt :=
  .class ⟨⟨"B", 1⟩, some ⟨0, "A", 1⟩, [⟨⟨"s", 1⟩, [],
    [.function ⟨⟨"f", 1⟩, [],
      [.expression (.call (.super 1 1 ⟨"m", 1⟩) 1 [])], .function⟩,
      .expression (.call (.variable ⟨2, "f", 1⟩) 1 [])], .static⟩]⟩

/-- A call of the static method. -/
def sampleStaticCall : Stmt :=
  .expression (.call (.get (.variable ⟨3, "B", 1⟩) ⟨"s", 1⟩) 1 [])

/-- The three of them. -/
def sampleStaticProgram : List Stmt :=
  [sampleBase, sampleDerived, sampleStaticCall]

/-- Their text. -/
def sampleNested : String :=
  "class A \x7b m() \x7b\x7d \x7d class B < A \x7b class s() \x7b fun f() \x7b " ++
    "super.m(); \x7d f(); \x7d \x7d B.s();"

/-- The session that has loaded it. -/
def sampleStaticLoaded : Session :=
  { Session.new 8 .unlimited with
    nextId := 4
    distances := (Distances.empty.record 1 3).record 2 0 }

/-- The machine that has got to the `super`. -/
def sampleAtSuper : Machine :=
  runAlong sampleStaticLoaded.setting (List.replicate 23 0)
    (.ofProgram sampleStaticProgram sampleStaticLoaded.start)

theorem reads_sampleBase :
    Stmt.Reads 0 (.declaration false sampleBase)
      [⟨.keyword .kwClass, 1⟩, ⟨.identifier "A", 1⟩, ⟨.symbol .leftBrace, 1⟩,
        ⟨.identifier "m", 1⟩, ⟨.symbol .leftParen, 1⟩, ⟨.symbol .rightParen, 1⟩,
        ⟨.symbol .leftBrace, 1⟩, ⟨.symbol .rightBrace, 1⟩,
        ⟨.symbol .rightBrace, 1⟩] 0 :=
  .class (w := [⟨.identifier "A", 1⟩, ⟨.symbol .leftBrace, 1⟩]) .base
    (.member .noMember (.method .empty) .nil)

theorem reads_sampleDerived :
    Stmt.Reads 0 (.declaration false sampleDerived)
      [⟨.keyword .kwClass, 1⟩, ⟨.identifier "B", 1⟩, ⟨.symbol .less, 1⟩,
        ⟨.identifier "A", 1⟩, ⟨.symbol .leftBrace, 1⟩, ⟨.keyword .kwClass, 1⟩,
        ⟨.identifier "s", 1⟩, ⟨.symbol .leftParen, 1⟩, ⟨.symbol .rightParen, 1⟩,
        ⟨.symbol .leftBrace, 1⟩, ⟨.keyword .kwFun, 1⟩, ⟨.identifier "f", 1⟩,
        ⟨.symbol .leftParen, 1⟩, ⟨.symbol .rightParen, 1⟩,
        ⟨.symbol .leftBrace, 1⟩, ⟨.keyword .kwSuper, 1⟩, ⟨.symbol .dot, 1⟩,
        ⟨.identifier "m", 1⟩, ⟨.symbol .leftParen, 1⟩, ⟨.symbol .rightParen, 1⟩,
        ⟨.symbol .semicolon, 1⟩, ⟨.symbol .rightBrace, 1⟩, ⟨.identifier "f", 1⟩,
        ⟨.symbol .leftParen, 1⟩, ⟨.symbol .rightParen, 1⟩,
        ⟨.symbol .semicolon, 1⟩, ⟨.symbol .rightBrace, 1⟩,
        ⟨.symbol .rightBrace, 1⟩] 3 := by
  have hsuper : Stmt.Reads 1 (.statement false
      (.expression (.call (.super 1 1 ⟨"m", 1⟩) 1 [])))
      [⟨.keyword .kwSuper, 1⟩, ⟨.symbol .dot, 1⟩, ⟨.identifier "m", 1⟩,
        ⟨.symbol .leftParen, 1⟩, ⟨.symbol .rightParen, 1⟩,
        ⟨.symbol .semicolon, 1⟩] 2 :=
    .expression (.intro (.of_call (.callEmpty .super)))
  have hcall : Stmt.Reads 2 (.statement false
      (.expression (.call (.variable ⟨2, "f", 1⟩) 1 [])))
      [⟨.identifier "f", 1⟩, ⟨.symbol .leftParen, 1⟩, ⟨.symbol .rightParen, 1⟩,
        ⟨.symbol .semicolon, 1⟩] 3 :=
    .expression (.intro (.of_call (.callEmpty .name)))
  exact .class (w := [⟨.identifier "B", 1⟩, ⟨.symbol .less, 1⟩,
      ⟨.identifier "A", 1⟩, ⟨.symbol .leftBrace, 1⟩]) .derived
    (.member .noMember (.static .empty) (.snoc (.snoc .nil
      (.function .empty (.snoc .nil (.statement hsuper)))) (.statement hcall)))

theorem reads_sampleStaticCall :
    Stmt.Reads 3 (.declaration false sampleStaticCall)
      [⟨.identifier "B", 1⟩, ⟨.symbol .dot, 1⟩, ⟨.identifier "s", 1⟩,
        ⟨.symbol .leftParen, 1⟩, ⟨.symbol .rightParen, 1⟩,
        ⟨.symbol .semicolon, 1⟩] 4 :=
  .statement (.expression (.intro (.of_call (.callEmpty (.get .name)))))

theorem load_sampleNested :
    (Session.new 8 .unlimited).load sampleNested =
      (sampleStaticLoaded, .ok sampleStaticProgram) := by
  have hreads : Stmt.Reads 0 (.declarations sampleStaticProgram) _ 4 :=
    .snoc (.snoc (.snoc .nil reads_sampleBase) reads_sampleDerived)
      reads_sampleStaticCall
  have hresolve : Scope.resolve sampleStaticProgram .empty =
      ⟨(Distances.empty.record 1 3).record 2 0, []⟩ := by
    rw [Scope.resolve_eq]
    rfl
  refine load_eq_ok.2 ⟨by decide +kernel, ?_, congrArg _ hresolve, ?_⟩
  · change Stmt.Reads 0 _ _ 4
    convert hreads using 1
    with_unfolding_all rfl
  · rw [show (Session.new 8 .unlimited).distances = .empty from rfl, hresolve]
    rfl

/-- In the function in the static method the receiver is the class. -/
theorem super_receives_sample :
    (Session.new 8 .unlimited).load sampleNested =
        (sampleStaticLoaded, .ok sampleStaticProgram) ∧
      ¬ SuperGuarded sampleStaticProgram ∧
      ∃ superclass c, superclass ∈ c.ancestors ∧
        Binds (sampleStaticLoaded.setting 0) sampleAtSuper 1 ⟨"m", 1⟩ superclass
          (.cls c) := by
  have hcontrol : sampleAtSuper.control = .eval (.super 1 1 ⟨"m", 1⟩) := by
    with_unfolding_all rfl
  have hdistance : (sampleStaticLoaded.setting 0).distances.find? 1 = some 3 := by
    with_unfolding_all rfl
  have hclass : (sampleAtSuper.state.store.getAt? sampleAtSuper.state.frame 2
      Keyword.kwThis.lexeme).map Value.kind = some "class" := by
    with_unfolding_all rfl
  obtain ⟨-, hreceives⟩ := (super_receives (.new 8 .unlimited) sampleNested
    (List.replicate 23 0) 0).1 _ _ load_sampleNested
  have hreceives : Receives sampleStaticProgram _ sampleAtSuper := hreceives
  obtain ⟨superclass, receiver, hbinds, hreceiver⟩ :=
    hreceives 1 1 ⟨"m", 1⟩ 3 hcontrol hdistance
  obtain ⟨inner, hinner, -, hthis⟩ := hbinds.found
  have htwo : inner = 2 := by
    rw [hdistance] at hinner
    injection hinner with hinner
    omega
  subst htwo
  rw [hthis] at hclass
  rcases hreceiver with ⟨object, rfl, -⟩ | ⟨c, rfl, hc, hguarded⟩
  · simp [Value.kind] at hclass
  · exact ⟨load_sampleNested, hguarded, superclass, c, hc, hbinds⟩

end Session

end Lox
