import Lox.Proofs.Ids
import Lox.Proofs.Machine.Run
import Lox.Proofs.Scope.Effect
import Lox.Proofs.Stmt.NextId
import Lox.Proofs.Stmt.Reading
import Lox.Session

/-!
# Reachable sessions

A session is reached from a new one by defining native functions, by running
programs and by evaluating expressions, accepted or not, each for any number
of steps and on any clock (`Reached`).

In a reachable session the ids are used up in order: no code in the store has
an id that is still free, and no free id has a distance (`Settled`).  So new
code and its distances cannot be mistaken for old ones.
-/

namespace Lox

namespace Session

/-- Drives a machine one step at each of the times. -/
def driveAlong (times : List Float) : Drive Id := fun setting m =>
  Machine.runAlong setting times m

/-- Driving a machine for some steps is driving it along a clock that stands
still. -/
theorem driveFor_eq_driveAlong (steps : Nat) (now : Float) :
    driveFor steps now = driveAlong (List.replicate steps now) := by
  funext setting m
  exact Machine.run_eq_runAlong now steps m

/-- The statements that running a source executes: none if it is rejected. -/
def accepted (s : Session) (source : String) : List Stmt :=
  match (s.load source).2 with
  | .ok program => program
  | .error _ => []

/-- The session can be reached, with `program` all that was given to run. -/
inductive Reached : (program : List Stmt) → Session → Prop where
  | new (maxDepth : Nat) (sink : Sink) : Reached [] (Session.new maxDepth sink)
  | native {program s} (h : Reached program s) (name : String) (arity : Nat)
      {behaviour : Machine.Behaviour} (faithful : behaviour.Faithful) :
      Reached program (s.defineNative name arity behaviour)
  | sink {program s} (h : Reached program s) (sink : Sink) :
      Reached program { s with sink := sink }
  | run {program s} (h : Reached program s) (times : List Float)
      (source : String) :
      Reached (program ++ s.accepted source)
        (s.runWith (driveAlong times) source).1
  | eval {program s} (h : Reached program s) (times : List Float)
      (source : String) :
      Reached program (s.evalWith (driveAlong times) source).1

/-! ## Loading -/

theorem parse_eq_ok {s s' : Session} {source : String} {program : List Stmt}
    (h : s.parse source = (s', .ok program)) :
    (Token.scan source).diagnostics = [] ∧
      Stmt.Reads s.nextId (.declarations program) (Token.scan source).tokens
        s'.nextId ∧
      s' = { s with nextId := s'.nextId } := by
  simp only [parse] at h
  split at h
  · next hnone =>
    obtain ⟨hscan, hparse⟩ := List.append_eq_nil_iff.1 hnone
    cases h
    refine ⟨hscan, Stmt.parse_eq_iff.1 ?_, rfl⟩
    rw [← hparse]
  · cases h

theorem resolve_eq_ok {s s' : Session} {program program' : List Stmt}
    (h : s.resolve program = (s', .ok program')) :
    program' = program ∧ (Scope.resolve program s.distances).diagnostics = [] ∧
      s' = { s with
        distances := (Scope.resolve program s.distances).distances } := by
  simp only [resolve] at h
  split at h
  · next hnone =>
    cases h
    exact ⟨rfl, hnone, rfl⟩
  · cases h

/-- What it means that a source is accepted. -/
theorem load_eq_ok {s s' : Session} {source : String} {program : List Stmt} :
    s.load source = (s', .ok program) ↔
      (Token.scan source).diagnostics = [] ∧
      Stmt.Reads s.nextId (.declarations program) (Token.scan source).tokens
        s'.nextId ∧
      (Scope.resolve program s.distances).diagnostics = [] ∧
      s' = { s with
        nextId := s'.nextId
        distances := (Scope.resolve program s.distances).distances } := by
  constructor
  · intro h
    simp only [load] at h
    split at h
    · next s₁ program₁ hparse =>
      obtain ⟨hscan, hreads, hs₁⟩ := parse_eq_ok hparse
      obtain ⟨rfl, hresolve, hs'⟩ := resolve_eq_ok h
      have hdistances : s₁.distances = s.distances := by rw [hs₁]
      have hnext : s'.nextId = s₁.nextId := by rw [hs']
      rw [hdistances] at hresolve hs'
      rw [← hnext] at hreads
      refine ⟨hscan, hreads, hresolve, ?_⟩
      rw [hs', hs₁]
    · cases h
  · rintro ⟨hscan, hreads, hresolve, hs'⟩
    have hparse := Stmt.parse_of_reads hreads
    simp only [load, parse, hscan, hparse, List.append_nil, resolve, hresolve]
    rw [hs']

theorem runWith_of_load {s s' : Session} {source : String}
    {program : List Stmt} (h : s.load source = (s', .ok program))
    (times : List Float) :
    s.runWith (driveAlong times) source =
      s'.finish (Machine.runAlong s'.setting times
        (.ofProgram program s'.start)) := by
  simp only [runWith, h]
  rfl

/-- Loading uses ids up and gives distances to those ids only, whether or not
the source is accepted. -/
theorem load_changes (s : Session) (source : String) :
    ∃ n distances, (s.load source).1 =
        { s with nextId := n, distances := distances } ∧ s.nextId ≤ n ∧
      ∀ id, id < s.nextId ∨ n ≤ id → distances.find? id = s.distances.find? id := by
  have hle := Stmt.le_nextId_parse (Token.scan source) s.nextId
  cases hparse : s.parse source with
  | mk s₁ result =>
    have hs₁ : s₁ = { s with
        nextId := (Stmt.parse (Token.scan source) s.nextId).nextId } := by
      have hfirst := congrArg Prod.fst hparse
      simp only [parse] at hfirst
      split at hfirst <;> exact hfirst.symm
    cases result with
    | error diagnostics =>
      refine ⟨_, s.distances, ?_, hle, fun _ _ => rfl⟩
      simp only [load, hparse, hs₁]
    | ok program =>
      obtain ⟨-, hreads, -⟩ := parse_eq_ok hparse
      refine ⟨_, (Scope.resolve program s.distances).distances, ?_, hle, ?_⟩
      · simp only [load, hparse, resolve, hs₁]
        split <;> rfl
      · intro id hid
        refine Scope.find?_resolve fun hmem => ?_
        have hrange := hreads.fresh.range id hmem
        simp only [hs₁] at hrange
        omega

/-- Loading sees no more of a session than ids and distances.  It commutes with
every change of the other parts. -/
theorem load_commutes (change : Session → Session)
    (hid : ∀ s, (change s).nextId = s.nextId)
    (hids : ∀ (s : Session) n,
      { change s with nextId := n } = change { s with nextId := n })
    (hdistance : ∀ s, (change s).distances = s.distances)
    (hdistances : ∀ (s : Session) distances,
      { change s with distances := distances } =
        change { s with distances := distances })
    (s : Session) (source : String) :
    (change s).load source = (change (s.load source).1, (s.load source).2) := by
  have hparse : (change s).parse source =
      (change (s.parse source).1, (s.parse source).2) := by
    simp only [parse, hid, hids]
    split <;> rfl
  simp only [load, hparse]
  cases s.parse source with
  | mk s' result =>
    cases result with
    | error diagnostics => rfl
    | ok program =>
      simp only [resolve, hdistance, hdistances]
      split <;> rfl

/-- The same for an expression, which gets no distances at all. -/
theorem loadExpr_changes (s : Session) (source : String) :
    ∃ n, (s.loadExpr source).1 = { s with nextId := n } ∧ s.nextId ≤ n := by
  simp only [loadExpr]
  split
  · exact ⟨_, rfl, Expr.le_nextId_parse _ _⟩
  · exact ⟨s.nextId, rfl, Nat.le_refl _⟩

/-- What it means that a source is accepted as an expression. -/
theorem loadExpr_eq_ok {s s' : Session} {source : String} {e : Expr} :
    s.loadExpr source = (s', .ok e) ↔
      (Token.scan source).diagnostics = [] ∧
      Expr.Reads s.nextId (.expr (.rank .assignment) e)
        (Token.scan source).tokens s'.nextId ∧
      s' = { s with nextId := s'.nextId } := by
  constructor
  · intro h
    simp only [loadExpr] at h
    split at h
    · next hscan =>
      simp only [Prod.mk.injEq] at h
      obtain ⟨rfl, hresult⟩ := h
      exact ⟨hscan, Expr.parse_eq_iff.1 (Expr.Parsed.eq_of_result hresult), rfl⟩
    · cases h
  · rintro ⟨hscan, hreads, hs'⟩
    simp only [loadExpr, hscan, Expr.parse_eq_iff.2 hreads]
    rw [hs']

end Session

/-! ## Ids that are still free -/

/-- The labeling keeps all lines and changes no ids but those from `n` on,
and those to such ids. -/
structure Labeling.Beyond (ρ : Labeling) (n : Nat) : Prop where
  line : ∀ line, ρ.line line = line
  below : ∀ id, id < n → ρ.id id = id
  above : ∀ id, n ≤ id → n ≤ ρ.id id

theorem Labeling.Beyond.mono {ρ : Labeling} {n n' : Nat} (h : ρ.Beyond n')
    (hle : n ≤ n') : ρ.Beyond n where
  line := h.line
  below := fun id hid => h.below id (by omega)
  above := by
    intro id hid
    by_cases hlt : id < n'
    · rw [h.below id hlt]
      exact hid
    · have := h.above id (by omega)
      omega

theorem Labeling.Beyond.keeps {ρ : Labeling} {n : Nat} (h : ρ.Beyond n)
    {ids : List Nat} (hids : ∀ id ∈ ids, id < n) : ρ.Keeps ids :=
  ⟨h.line, fun id hid => h.below id (hids id hid)⟩

namespace Session

/-- The ids that are still free stand for nothing. -/
structure Settled (s : Session) : Prop where
  faithful : ∀ (i : Nat) (behaviour : Machine.Behaviour),
    s.natives[i]? = some behaviour → behaviour.Faithful
  distances : ∀ id, s.nextId ≤ id → s.distances.find? id = none
  store : ∀ ρ : Labeling, ρ.Beyond s.nextId → s.store.relabel ρ = s.store

theorem Settled.load {s : Session} (h : s.Settled) (source : String) :
    (s.load source).1.Settled := by
  obtain ⟨n, distances, hs', hle, hfind⟩ := s.load_changes source
  rw [hs']
  refine ⟨h.faithful, ?_, fun ρ hρ => h.store ρ (hρ.mono hle)⟩
  intro id hid
  have hid : n ≤ id := hid
  rw [hfind id (.inr hid)]
  exact h.distances id (Nat.le_trans hle hid)

theorem Settled.loadExpr {s : Session} (h : s.Settled) (source : String) :
    (s.loadExpr source).1.Settled := by
  obtain ⟨n, hs', hle⟩ := s.loadExpr_changes source
  rw [hs']
  refine ⟨h.faithful, ?_, fun ρ hρ => h.store ρ (hρ.mono hle)⟩
  intro id hid
  exact h.distances id (Nat.le_trans hle hid)

/-- A change of free ids is not seen in the distances. -/
theorem Settled.agrees {s : Session} (h : s.Settled) {ρ : Labeling}
    (hρ : ρ.Beyond s.nextId) (now : Float) :
    (s.setting now).Agrees ρ (s.setting now) where
  maxDepth := rfl
  natives := rfl
  now := rfl
  globals := rfl
  blind := fun i behaviour hi => (h.faithful i behaviour hi).blind
  distances := by
    intro id
    by_cases hid : id < s.nextId
    · rw [hρ.below id hid]
    · have hid : s.nextId ≤ id := Nat.le_of_not_lt hid
      exact (h.distances _ (hρ.above id hid)).trans (h.distances id hid).symm

/-- Code without free ids leaves none behind. -/
theorem Settled.finish {s : Session} (h : s.Settled) {m : Machine}
    (hm : ∀ ρ : Labeling, ρ.Beyond s.nextId → m.relabel ρ = m)
    (times : List Float) :
    (s.finish (Machine.runAlong s.setting times m)).1.Settled := by
  refine ⟨h.faithful, h.distances, ?_⟩
  intro ρ hρ
  have hrun := Machine.runAlong_relabel (h.agrees hρ) times m
  rw [hm ρ hρ] at hrun
  exact (congrArg (fun m => m.state.store) hrun).symm

theorem Settled.start {s : Session} (h : s.Settled) {ρ : Labeling}
    (hρ : ρ.Beyond s.nextId) : s.start.relabel ρ = s.start := by
  simp only [Session.start, Machine.State.relabel, h.store ρ hρ]

theorem Settled.ofProgram {s : Session} (h : s.Settled) {program : List Stmt}
    (hids : ∀ id ∈ Stmt.idsAll program, id < s.nextId) {ρ : Labeling}
    (hρ : ρ.Beyond s.nextId) :
    (Machine.ofProgram program s.start).relabel ρ =
      .ofProgram program s.start := by
  have hprogram := Stmt.relabelAll_eq_self (hρ.keeps hids)
  simp only [Machine.ofProgram, Machine.relabel, h.start hρ, List.map_cons,
    List.map_nil, Machine.Pending.relabel, hprogram]
  rfl

theorem Settled.run {s : Session} (h : s.Settled) (times : List Float)
    (source : String) : (s.runWith (driveAlong times) source).1.Settled := by
  have hload := h.load source
  simp only [runWith]
  cases hresult : s.load source with
  | mk s' result =>
    rw [hresult] at hload
    cases result with
    | error diagnostics => exact hload
    | ok program =>
      obtain ⟨-, hreads, -, -⟩ := load_eq_ok.1 hresult
      have hids : ∀ id ∈ Stmt.idsAll program, id < s'.nextId :=
        fun id hid => (hreads.fresh.range id hid).2
      exact hload.finish (fun ρ hρ => hload.ofProgram hids hρ) times

theorem Settled.eval {s : Session} (h : s.Settled) (times : List Float)
    (source : String) : (s.evalWith (driveAlong times) source).1.Settled := by
  have hload := h.loadExpr source
  simp only [evalWith]
  cases hresult : s.loadExpr source with
  | mk s' result =>
    rw [hresult] at hload
    cases result with
    | error diagnostics => exact hload
    | ok e =>
      obtain ⟨-, hreads, -⟩ := loadExpr_eq_ok.1 hresult
      have hids : ∀ id ∈ e.ids, id < s'.nextId :=
        fun id hid => (hreads.fresh.range id hid).2
      refine hload.finish (fun ρ hρ => ?_) times
      simp only [Machine.ofExpr, Machine.relabel, hload.start hρ,
        Machine.Control.relabel, Expr.relabel_eq_self (hρ.keeps hids)]
      rfl

theorem Settled.defineNative {s : Session} (h : s.Settled) (name : String)
    (arity : Nat) {behaviour : Machine.Behaviour}
    (faithful : behaviour.Faithful) :
    (s.defineNative name arity behaviour).Settled where
  distances := h.distances
  faithful := by
    intro i other hi
    simp only [Session.defineNative, Array.getElem?_push] at hi
    split at hi
    · cases hi
      exact faithful
    · exact h.faithful i other hi
  store := by
    intro ρ hρ
    have hdefine := Store.define_relabel ρ s.store globals name
      (.native ⟨s.natives.size, name, arity⟩)
    rw [h.store ρ hρ] at hdefine
    exact hdefine.symm

theorem faithful_clock : Machine.Behaviour.Faithful clock :=
  ⟨fun _ _ _ => rfl, fun _ _ v h => .inl (by cases h; trivial)⟩

theorem Reached.settled {program : List Stmt} {s : Session}
    (h : Reached program s) : s.Settled := by
  induction h with
  | new maxDepth sink =>
    refine Settled.defineNative ?_ "clock" 0 faithful_clock
    refine ⟨fun _ _ h => (by simp at h), fun id _ => Distances.find?_empty id,
      fun ρ _ => ?_⟩
    have hempty : Store.empty.relabel ρ = .empty :=
      Store.ext_of_parts (by simp [Store.relabel, Store.empty])
        (by simp [Store.relabel, Store.empty]) rfl
    have hroot := Store.addFrame_relabel ρ .empty none .empty
    rw [hempty, Table.map_empty] at hroot
    exact hroot.symm
  | native h name arity faithful ih => exact ih.defineNative name arity faithful
  | sink h sink ih => exact ⟨ih.faithful, ih.distances, ih.store⟩
  | run h times source ih => exact ih.run times source
  | eval h times source ih => exact ih.eval times source

end Session

end Lox
