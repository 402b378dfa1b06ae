import Lox.Proofs.Machine.Lookup
import Lox.Proofs.Scope.Fitting
import Lox.Proofs.Scope.Rules
import Lox.Proofs.Session.Reached

/-!
# Lookups of a session

All code that a reachable session holds fits the frames it will run in
(`Reached.coherent`).  So the scope rules and the machine agree in everything
that is run or evaluated in such a session, at every step and however it ends
(`lookups_agree`).
-/

namespace Lox.Session

open Machine (Agrees Safe Sound runAlong)

/-- What is known of the code of a session that was given `program` to run. -/
def ledger (s : Session) (program : List Stmt) : Ledger :=
  ⟨s.nextId, s.distances, program⟩

/-- All code that the session holds fits, and the ids of the program are
used up. -/
structure Coherent (program : List Stmt) (s : Session) : Prop where
  settled : s.Settled
  store : s.store.Fits (s.ledger program)
  used : ∀ id ∈ Stmt.idsAll program, id < s.nextId

/-- What is accepted breaks no static rule. -/
theorem no_breach_of_load {s s' : Session} {source : String} {list : List Stmt}
    (hload : s.load source = (s', .ok list)) : ¬ Scope.Breach list := by
  obtain ⟨-, hreads, haccepted, -⟩ := load_eq_ok.1 hload
  rw [Scope.resolve_eq, List.reverse_eq_nil_iff] at haccepted
  exact Scope.no_breach_of_accepted (hreads.wellFormed (Token.named_scan _))
    hreads.fresh.nodup haccepted

namespace Coherent

variable {program : List Stmt} {s s' : Session}

theorem used_own (h : Coherent program s) {id : Nat}
    (hid : id ∈ Stmt.ownAssignsAll program false) : id < s.nextId :=
  h.used id ((Scope.ownAssigns_stmts_sublist program false).subset hid)

/-! ## Loading -/

/-- A source that is loaded uses ids up and changes no others. -/
theorem load (h : Coherent program s) (source : String) :
    Coherent program (s.load source).1 := by
  have hsettled := h.settled.load source
  obtain ⟨n, distances, hs', hle, hfind⟩ := s.load_changes source
  rw [hs'] at hsettled ⊢
  have hextends : (s.ledger program).Extends ⟨n, distances, program⟩ :=
    ⟨hle, fun id hid => hfind id (.inl hid), fun _ _ => .rfl, fun _ _ => .rfl⟩
  exact ⟨hsettled, h.store.extend hextends,
    fun id hid => Nat.lt_of_lt_of_le (h.used id hid) hle⟩

/-- A program that is accepted fits the top level. -/
theorem load_ok (h : Coherent program s) {source : String} {list : List Stmt}
    (hload : s.load source = (s', .ok list)) :
    Coherent (program ++ list) s' ∧
      Stmt.AllScoped (s'.ledger (program ++ list)) list [] := by
  have hsettled := h.settled.load source
  have hchanges := s.load_changes source
  rw [hload] at hsettled hchanges
  obtain ⟨n, distances, rfl, hle, hfind⟩ := hchanges
  obtain ⟨-, hreads, haccepted, hs'⟩ := load_eq_ok.1 hload
  have hdistances : distances = (Scope.resolve list s.distances).distances :=
    congrArg Session.distances hs'
  have hfresh := hreads.fresh
  have hnew (id : Nat) (hid : id ∈ Stmt.idsAll list) : s.nextId ≤ id ∧ id < n :=
    hfresh.range id hid
  have hown {id : Nat} (hid : id ∈ Stmt.ownAssignsAll list false) :
      id ∈ Stmt.idsAll list :=
    (Scope.ownAssigns_stmts_sublist list false).subset hid
  let L : Ledger := ⟨n, distances, program ++ list⟩
  have hran_iff (id : Nat) :
      id ∈ L.ran ↔ id ∈ Stmt.idsAll program ∨ id ∈ Stmt.idsAll list := by
    rw [Ledger.ran, Stmt.idsAll_append, List.mem_append]
  have hown_iff (id : Nat) :
      id ∈ L.own ↔ id ∈ Stmt.ownAssignsAll program false ∨
        id ∈ Stmt.ownAssignsAll list false := by
    rw [Ledger.own, Stmt.ownAssignsAll_append, List.mem_append]
  have hextends : (s.ledger program).Extends L := by
    refine ⟨hle, fun id hid => hfind id (.inl hid), ?_, ?_⟩
    · intro id hid
      have hid : id < s.nextId := hid
      refine (hran_iff id).trans (or_iff_left fun hmem => ?_)
      have := hnew id hmem
      omega
    · intro id hid
      have hid : id < s.nextId := hid
      refine (hown_iff id).trans (or_iff_left fun hmem => ?_)
      have := hnew id (hown hmem)
      omega
  refine ⟨⟨hsettled, h.store.extend hextends, ?_⟩, ?_⟩
  · intro id hid
    rcases (hran_iff id).1 hid with hmem | hmem
    · exact Nat.lt_of_lt_of_le (h.used id hmem) hle
    · exact (hnew id hmem).2
  · refine Scope.allScoped_of_accepted (hreads.wellFormed (Token.named_scan _))
      haccepted hfresh.nodup ?_ ?_ ?_
    · exact fun id hid => h.settled.distances id (hnew id hid).1
    · intro id hid
      rw [← hdistances]
      exact ⟨(hnew id hid).2, rfl⟩
    · intro id hid
      refine (hown_iff id).trans (or_iff_right fun hmem => ?_)
      have := h.used_own hmem
      have := hnew id hid
      omega

/-- An expression that is read fits the top level, where nothing binds it. -/
theorem loadExpr_ok (h : Coherent program s) {source : String} {e : Expr}
    (hload : s.loadExpr source = (s', .ok e)) :
    Coherent program s' ∧ e.Scoped (s'.ledger program) none [] := by
  have hsettled := h.settled.loadExpr source
  have hchanges := s.loadExpr_changes source
  rw [hload] at hsettled hchanges
  obtain ⟨n, rfl, hle⟩ := hchanges
  obtain ⟨-, hreads, -⟩ := loadExpr_eq_ok.1 hload
  have hextends : (s.ledger program).Extends ⟨n, s.distances, program⟩ :=
    ⟨hle, fun _ _ => rfl, fun _ _ => .rfl, fun _ _ => .rfl⟩
  have hnew (id : Nat) (hid : id ∈ e.ids) : s.nextId ≤ id ∧ id < n :=
    hreads.fresh.range id hid
  refine ⟨⟨hsettled, h.store.extend hextends, ?_⟩, ?_⟩
  · exact fun id hid => Nat.lt_of_lt_of_le (h.used id hid) hle
  · refine Scope.scoped_of_unresolved (hreads.wellFormed (Token.named_scan _))
      ⟨?_, ?_, ?_⟩
    · intro id hid
      exact ⟨(hnew id hid).2, h.settled.distances id (hnew id hid).1⟩
    · intro id hid hown
      have := h.used_own hown
      have := hnew id hid
      omega
    · intro id hid hran
      have := h.used id hran
      have := hnew id hid
      omega

/-! ## Running -/

theorem suits (h : Coherent program s) (now : Float) :
    (s.setting now).Suits (s.ledger program) :=
  ⟨rfl, h.settled.faithful⟩

theorem live_globals (h : Coherent program s) :
    s.start.store.Live s.start.frame [] none :=
  ⟨h.store.root, nofun, nofun⟩

/-- The run of a program that fits the top level is safe. -/
theorem safe_program (h : Coherent program s) {list : List Stmt}
    (hlist : Stmt.AllScoped (s.ledger program) list []) (times : List Float) :
    Safe (s.ledger program)
      (runAlong s.setting times (.ofProgram list s.start)) := by
  have hsound : Sound (s.ledger program) (.ofProgram list s.start) :=
    ⟨h.store, [], none, h.live_globals, trivial, hlist, rfl⟩
  exact Machine.safe_runAlong h.suits (.inl hsound) times

/-- So is the evaluation of an expression. -/
theorem safe_expr (h : Coherent program s) {e : Expr}
    (he : e.Scoped (s.ledger program) none []) (times : List Float) :
    Safe (s.ledger program) (runAlong s.setting times (.ofExpr e s.start)) := by
  have hsound : Sound (s.ledger program) (.ofExpr e s.start) :=
    ⟨h.store, [], none, h.live_globals, he, trivial⟩
  exact Machine.safe_runAlong h.suits (.inl hsound) times

theorem run (h : Coherent program s) (times : List Float) (source : String) :
    Coherent (program ++ s.accepted source)
      (s.runWith (driveAlong times) source).1 := by
  have hsettled := h.settled.run times source
  have hload := h.load source
  cases hresult : s.load source with
  | mk s' result =>
    rw [hresult] at hload
    simp only [runWith, accepted, hresult] at hsettled ⊢
    cases result with
    | error diagnostics =>
      rw [List.append_nil]
      exact hload
    | ok list =>
      obtain ⟨hcoherent, hlist⟩ := h.load_ok hresult
      exact ⟨hsettled, (hcoherent.safe_program hlist times).store,
        hcoherent.used⟩

theorem eval (h : Coherent program s) (times : List Float) (source : String) :
    Coherent program (s.evalWith (driveAlong times) source).1 := by
  have hsettled := h.settled.eval times source
  obtain ⟨n, hs', hle⟩ := s.loadExpr_changes source
  cases hresult : s.loadExpr source with
  | mk s' result =>
    rw [hresult] at hs'
    simp only [evalWith, hresult] at hsettled ⊢
    cases result with
    | error diagnostics =>
      have hextends : (s.ledger program).Extends ⟨n, s.distances, program⟩ :=
        ⟨hle, fun _ _ => rfl, fun _ _ => .rfl, fun _ _ => .rfl⟩
      refine ⟨hsettled, ?_, ?_⟩
      · simp only at hs'
        subst hs'
        exact h.store.extend hextends
      · simp only at hs'
        subst hs'
        exact fun id hid => Nat.lt_of_lt_of_le (h.used id hid) hle
    | ok e =>
      obtain ⟨hcoherent, he⟩ := h.loadExpr_ok hresult
      exact ⟨hsettled, (hcoherent.safe_expr he times).store, hcoherent.used⟩

theorem defineNative (h : Coherent program s) (name : String) (arity : Nat)
    {behaviour : Machine.Behaviour} (faithful : behaviour.Faithful) :
    Coherent program (s.defineNative name arity behaviour) := by
  have hroot : s.store.parent? globals = none := by
    cases hparent : s.store.parent? globals with
    | none => rfl
    | some p => exact absurd (Store.parent?_lt hparent) (Nat.not_lt_zero p)
  have hevolves : Store.Evolves 0 s.store
      (s.defineNative name arity behaviour).store :=
    .define (fun _ => hroot) _ (.inl (Nat.zero_le _))
  exact ⟨h.settled.defineNative name arity faithful,
    h.store.define hevolves trivial, h.used⟩

end Coherent

theorem fits_new (maxDepth : Nat) (sink : Sink) :
    (Session.new maxDepth sink).store.Fits
      ((Session.new maxDepth sink).ledger []) := by
  let base := Store.empty.addFrame none .empty
  have hbase : base.Fits ((Session.new maxDepth sink).ledger []) := by
    refine ⟨by simp [base, Store.addFrame], ?_, nofun⟩
    intro frame name v hv
    rw [Store.valueIn?_addFrame] at hv
    split at hv <;> cases hv
  have hevolves : Store.Evolves 0 base (Session.new maxDepth sink).store :=
    .define (fun _ => rfl) _ (.inl (Nat.zero_le _))
  exact hbase.define hevolves trivial

theorem Reached.coherent {program : List Stmt} {s : Session}
    (h : Reached program s) : Coherent program s := by
  induction h with
  | new maxDepth sink =>
    exact ⟨(Reached.new maxDepth sink).settled, fits_new maxDepth sink, nofun⟩
  | native h name arity faithful ih => exact ih.defineNative name arity faithful
  | sink h sink ih =>
    exact ⟨(Reached.sink h sink).settled, ih.store, ih.used⟩
  | run h times source ih => exact ih.run times source
  | eval h times source ih => exact ih.eval times source

/-- The scope rules and the machine agree.  In a reachable session, take a
source that is accepted and run, or one that is evaluated as an expression,
and any machine on the way: what it looks up next at a distance is there, and
a variable is undefined only if nothing binds it. -/
theorem lookups_agree {program : List Stmt} {s : Session}
    (h : Reached program s) (source : String) (times : List Float)
    (now : Float) :
    (∀ s' list, s.load source = (s', .ok list) →
      Agrees (program ++ list) (s'.setting now)
        (runAlong s'.setting times (.ofProgram list s'.start))) ∧
    (∀ s' e, s.loadExpr source = (s', .ok e) →
      Agrees program (s'.setting now)
        (runAlong s'.setting times (.ofExpr e s'.start))) := by
  constructor
  · intro s' list hload
    obtain ⟨hcoherent, hlist⟩ := h.coherent.load_ok hload
    exact Machine.agrees_of_safe (hcoherent.safe_program hlist times)
      (hcoherent.suits now)
  · intro s' e hload
    obtain ⟨hcoherent, he⟩ := h.coherent.loadExpr_ok hload
    exact Machine.agrees_of_safe (hcoherent.safe_expr he times)
      (hcoherent.suits now)

/-- A local variable that is assigned to in its own initializer. -/
def sampleOwn : List Stmt :=
  [.block [.var ⟨"a", 1⟩ (some (.assign ⟨1, "a", 1⟩ (.literal .nil)))]]

theorem load_sampleOwn {s : Session} (hn : s.nextId = 0) :
    s.load "\x7b var a = a = nil; \x7d" =
      ({ s with
          nextId := 2
          distances := (Scope.resolve sampleOwn s.distances).distances },
        .ok sampleOwn) := by
  refine load_eq_ok.2 ⟨by decide +kernel, ?_, ?_, rfl⟩
  · have htokens : (Token.scan "\x7b var a = a = nil; \x7d").tokens =
        [] ++ ⟨.symbol .leftBrace, 1⟩ :: (([] ++ ⟨.keyword .kwVar, 1⟩ ::
          ⟨.identifier "a", 1⟩ :: ⟨.symbol .equal, 1⟩ ::
            ((⟨.identifier "a", 1⟩ :: ⟨.symbol .equal, 1⟩ ::
              [⟨.keyword .kwNil, 1⟩]) ++ [⟨.symbol .semicolon, 1⟩])) ++
          [⟨.symbol .rightBrace, 1⟩]) := by with_unfolding_all rfl
    rw [htokens, hn]
    exact .snoc .nil (.statement (.block (.snoc .nil (.var (.initialized
      (.assign (.of_call (.literal rfl))))))))
  · rw [Scope.resolve_eq]
    rfl

/-- The assignment has a distance, but its variable has no value yet. -/
theorem lookups_agree_sample :
    ∃ s', (Session.new 8 .unlimited).load "\x7b var a = a = nil; \x7d" =
        (s', .ok sampleOwn) ∧
      s'.distances.find? 1 = some 0 ∧
      (Machine.step (s'.setting 0) (runAlong s'.setting [0, 0, 0, 0, 0, 0]
        (.ofProgram sampleOwn s'.start))).control =
          .failed (.undefinedVariable "a" 1) := by
  let s := Session.new 8 .unlimited
  have hload := load_sampleOwn (s := s) rfl
  have hfind : (Scope.resolve sampleOwn s.distances).distances.find? 1 =
      some 0 := by
    rw [Scope.resolve_eq]
    exact Scope.find?_bind (Distances.find?_empty 1)
  obtain ⟨f, -, -, hfails, -⟩ := ((lookups_agree (.new 8 .unlimited)
    "\x7b var a = a = nil; \x7d" [0, 0, 0, 0, 0, 0] 0).1 _ _ hload).assign .nil
      ⟨1, "a", 1⟩ _ 0 rfl rfl hfind
  exact ⟨_, hload, hfind, hfails.2 (by decide)⟩

end Lox.Session
