import Lox.Proofs.Session.Joining

/-!
# Rejected sources

A source that is rejected leaves something behind all the same: the ids it
used are used up, and a program that breaks a scope rule has given distances
to some of them.  None of it is ever seen.  From the next source on, a session
that was given the rejected sources and one that was not go on side by side:
what they hold is the same once the ids of the one are changed to those of the
other (`Renumbered`).  A rejected source changes nothing about this
(`Renumbered.skip`), and an accepted one is accepted by both and answered in
the same way (`Renumbered.run`, `Renumbered.eval`).

So if all rejected sources are left out of what a session was given, every
other answer is shown as before (`play_kept`).
-/

namespace Lox

theorem Failure.relabel_eq_self {ρ : Labeling} (h : ∀ line, ρ.line line = line)
    (f : Failure) : f.relabel ρ = f := by
  cases f <;> simp only [Failure.relabel, h]

namespace Session

/-! ## Requests and answers -/

/-- A source that is given to a session, and the times at which the machine
does its steps. -/
inductive Request where
  | run (source : String) (times : List Float)
  | eval (source : String) (times : List Float)

/-- Answers a request. -/
def answer (s : Session) : Request → Session × Answer
  | .run source times => s.runWith (driveAlong times) source
  | .eval source times => s.evalWith (driveAlong times) source

/-- Answers requests one after another. -/
def play (s : Session) : List Request → List (Request × Answer)
  | [] => []
  | request :: rest =>
    (request, (s.answer request).2) :: (s.answer request).1.play rest

/-- What can be seen of a result.  A value is seen as it is displayed. -/
inductive Shown where
  | rejected (diagnostics : List Diagnostic)
  | failed (f : Failure)
  | completed
  | value (text : String)
  | unfinished

/-- What is shown of a result. -/
def Result.shown : Result → Shown
  | rejected diagnostics => .rejected diagnostics
  | failed f => .failed f
  | completed => .completed
  | value v => .value v.display
  | unfinished => .unfinished

/-- What is shown of an answer: what was printed, and the result. -/
def Answer.shown (a : Answer) : String × Shown :=
  (a.output, a.result.shown)

/-- Whether the source was rejected by the lexer, the parser or the scope
rules. -/
def Answer.isRejected (a : Answer) : Bool :=
  match a.result with
  | .rejected _ => true
  | _ => false

theorem isRejected_finish (s : Session) (m : Machine) :
    (s.finish m).2.isRejected = false := by
  simp only [finish, Answer.isRejected, resultOf]
  split
  · next h =>
    split at h
    · cases h
    · cases h
    · split at h <;> cases h
    · cases h
  · rfl

/-- Ids are not shown. -/
theorem shown_relabel {ρ : Labeling} (h : ∀ line, ρ.line line = line)
    (result : Result) : (result.relabel ρ).shown = result.shown := by
  cases result with
  | failed f => simp only [Result.relabel, Result.shown, f.relabel_eq_self h]
  | value v => simp only [Result.relabel, Result.shown, Value.display_relabel]
  | _ => rfl

/-! ## Sessions side by side -/

/-- The sessions are the same once the ids of the first are changed to those
of the second, which may have used up more of them. -/
structure Renumbered (ρ : Labeling) (s s' : Session) : Prop where
  line : ∀ line, ρ.line line = line
  injective : Function.Injective ρ.id
  below : ∀ id, id < s.nextId → ρ.id id < s'.nextId
  above : ∀ k, ρ.id (s.nextId + k) = s'.nextId + k
  distances : Scope.Carries ρ s.distances s'.distances
  store : s'.store = s.store.relabel ρ
  sink : s'.sink = s.sink
  natives : s'.natives = s.natives
  maxDepth : s'.maxDepth = s.maxDepth

/-- Counts ids on from `n` that were counted on from `m`. -/
def countFrom (m n : Nat) : Labeling :=
  ⟨fun id => id - m + n, fun line => line⟩

theorem steps_countFrom (m n : Nat) : (countFrom m n).Steps m := by
  intro id hid
  show id + 1 - m + n = id - m + n + 1
  omega

theorem id_countFrom (m n : Nat) : (countFrom m n).id m = n := by
  show m - m + n = n
  omega

theorem map_countFrom (m n : Nat) (tokens : List Token) :
    tokens.map (Token.relabel (countFrom m n)) = tokens :=
  List.map_id tokens

theorem Renumbered.refl (s : Session) (h : s.store.relabel ⟨id, id⟩ = s.store) :
    Renumbered ⟨id, id⟩ s s :=
  ⟨fun _ => rfl, Function.injective_id, fun _ h => h, fun _ => rfl,
    fun _ => rfl, h.symm, rfl, rfl, rfl⟩

namespace Renumbered

variable {ρ : Labeling} {s s' : Session}

/-- The session has more of its ids used up, and distances for those only. -/
theorem skip (h : Renumbered ρ s s') (hs : s.Settled) {n : Nat}
    {distances : Distances} (hle : s'.nextId ≤ n)
    (hfind : ∀ id, id < s'.nextId ∨ n ≤ id →
      distances.find? id = s'.distances.find? id) :
    ∃ ρ', Renumbered ρ' s { s' with nextId := n, distances := distances } := by
  -- Free ids of the first session are moved behind those that are used up.
  let β : Labeling :=
    ⟨fun id => if id < s.nextId then id else id + (n - s'.nextId),
      fun line => line⟩
  have hbelow (id : Nat) (hid : id < s.nextId) : β.id id = id := if_pos hid
  have habove (id : Nat) (hid : s.nextId ≤ id) :
      β.id id = id + (n - s'.nextId) := if_neg (Nat.not_lt.2 hid)
  have hβ : β.Beyond s.nextId := by
    refine ⟨fun _ => rfl, hbelow, ?_⟩
    intro id hid
    rw [habove id hid]
    omega
  have hfree (k : Nat) : ρ.id (β.id (s.nextId + k)) = n + k := by
    rw [habove _ (Nat.le_add_right _ _), Nat.add_assoc, h.above]
    omega
  refine ⟨β.andThen ρ, ?_⟩
  exact
    { line := h.line
      injective := by
        intro id id' hid
        have hid : β.id id = β.id id' := h.injective hid
        by_cases hlt : id < s.nextId <;> by_cases hlt' : id' < s.nextId
        · rwa [hbelow id hlt, hbelow id' hlt'] at hid
        · rw [hbelow id hlt, habove id' (by omega)] at hid
          omega
        · rw [habove id (by omega), hbelow id' hlt'] at hid
          omega
        · rw [habove id (by omega), habove id' (by omega)] at hid
          omega
      below := by
        intro id hid
        show ρ.id (β.id id) < n
        rw [hbelow id hid]
        exact Nat.lt_of_lt_of_le (h.below id hid) hle
      above := hfree
      distances := by
        intro id
        show distances.find? (ρ.id (β.id id)) = _
        by_cases hid : id < s.nextId
        · rw [hbelow id hid, hfind _ (.inl (h.below id hid))]
          exact h.distances id
        · obtain ⟨k, rfl⟩ := Nat.exists_eq_add_of_le (Nat.not_lt.1 hid)
          have hnone : s'.distances.find? (ρ.id (s.nextId + (n - s'.nextId + k))) =
              none := by
            rw [h.distances]
            exact hs.distances _ (Nat.le_add_right _ _)
          rw [h.above] at hnone
          rw [hfree, hfind _ (.inr (Nat.le_add_right _ _)),
            hs.distances _ (Nat.le_add_right _ _), ← hnone]
          congr 1
          omega
      store := by
        rw [← Store.relabel_relabel, hs.store β hβ]
        exact h.store
      sink := h.sink
      natives := h.natives
      maxDepth := h.maxDepth }

/-- A source that is rejected is not noticed. -/
theorem rejected (h : Renumbered ρ s s') (hs : s.Settled) {request : Request}
    (hrejected : (s'.answer request).2.isRejected) :
    ∃ ρ', Renumbered ρ' s (s'.answer request).1 := by
  cases request with
  | run source times =>
    obtain ⟨n, distances, hload, hle, hfind⟩ := s'.load_changes source
    simp only [answer, runWith] at hrejected ⊢
    cases hresult : s'.load source with
    | mk t loaded =>
      rw [hresult] at hload hrejected
      cases loaded with
      | error diagnostics =>
        obtain rfl : t = _ := hload
        exact h.skip hs hle hfind
      | ok program =>
        exact absurd (isRejected_finish t _) (ne_true_of_eq_false · hrejected)
  | eval source times =>
    obtain ⟨n, hload, hle⟩ := s'.loadExpr_changes source
    simp only [answer, evalWith] at hrejected ⊢
    cases hresult : s'.loadExpr source with
    | mk t loaded =>
      rw [hresult] at hload hrejected
      cases loaded with
      | error diagnostics =>
        obtain rfl : t = _ := hload
        exact h.skip hs hle fun _ _ => rfl
      | ok e =>
        exact absurd (isRejected_finish t _) (ne_true_of_eq_false · hrejected)

/-- The ids that the two sessions give to the same tokens correspond. -/
theorem id_of_count (h : Renumbered ρ s s') {id : Nat} (hid : s'.nextId ≤ id) :
    ρ.id ((countFrom s'.nextId s.nextId).id id) = id := by
  have hcount : (countFrom s'.nextId s.nextId).id id =
      s.nextId + (id - s'.nextId) := Nat.add_comm _ _
  rw [hcount, h.above]
  omega

theorem keeps_count (h : Renumbered ρ s s') {ids : List Nat} {n : Nat}
    (hids : Fresh s'.nextId ids n) :
    ((countFrom s'.nextId s.nextId).andThen ρ).Keeps ids :=
  ⟨h.line, fun id hid => h.id_of_count (hids.range id hid).1⟩

/-- Both sessions use up as many ids. -/
theorem advance (h : Renumbered ρ s s') {n : Nat} (hle : s'.nextId ≤ n)
    {distances distances' : Distances}
    (hdistances : Scope.Carries ρ distances distances') :
    Renumbered ρ
      { s with
        nextId := (countFrom s'.nextId s.nextId).id n
        distances := distances }
      { s' with nextId := n, distances := distances' } := by
  obtain ⟨k, rfl⟩ := Nat.exists_eq_add_of_le hle
  have hnext : (countFrom s'.nextId s.nextId).id (s'.nextId + k) =
      s.nextId + k := by
    show s'.nextId + k - s'.nextId + s.nextId = s.nextId + k
    omega
  rw [hnext]
  refine { h with below := ?_, above := ?_, distances := hdistances }
  · intro id (hid : id < s.nextId + k)
    show ρ.id id < s'.nextId + k
    by_cases hlt : id < s.nextId
    · have := h.below id hlt
      omega
    · obtain ⟨j, rfl⟩ := Nat.exists_eq_add_of_le (Nat.not_lt.1 hlt)
      rw [h.above]
      omega
  · intro j
    show ρ.id (s.nextId + k + j) = s'.nextId + k + j
    rw [Nat.add_assoc, h.above, Nat.add_assoc]

/-- A program that the second session accepts is accepted by the first, as the
same program with other ids. -/
theorem load (h : Renumbered ρ s s') {t' : Session} {source : String}
    {program' : List Stmt} (hload : s'.load source = (t', .ok program')) :
    ∃ t program, s.load source = (t, .ok program) ∧
      program' = program.map (Stmt.relabel ρ) ∧ Renumbered ρ t t' := by
  obtain ⟨hscan, hreads, hresolve, ht'⟩ := load_eq_ok.1 hload
  have hprogram : program' =
      (program'.map (Stmt.relabel (countFrom s'.nextId s.nextId))).map
        (Stmt.relabel ρ) := by
    rw [Stmt.relabelAll_relabel_of _ _ fun s _ => s.relabel_relabel _ _]
    exact (Stmt.relabelAll_eq_self (h.keeps_count hreads.fresh)).symm
  have hshifted := hreads.relabel (steps_countFrom s'.nextId s.nextId)
  rw [id_countFrom, map_countFrom, Stmt.Phrase.relabel] at hshifted
  rw [ht']
  generalize program'.map (Stmt.relabel (countFrom s'.nextId s.nextId)) =
    program at hprogram hshifted
  obtain ⟨hcarries, hdiagnostics⟩ :=
    Scope.resolve_tracks (Scope.tracks_carries h.injective) program h.distances
  rw [← hprogram] at hcarries hdiagnostics
  rw [hresolve] at hdiagnostics
  refine ⟨_, program, load_eq_ok.2 ⟨hscan, hshifted, ?_, rfl⟩, hprogram,
    h.advance hreads.fresh.le hcarries⟩
  exact List.map_eq_nil_iff.1 hdiagnostics.symm

/-- The same for an expression. -/
theorem loadExpr (h : Renumbered ρ s s') {t' : Session} {source : String}
    {e' : Expr} (hload : s'.loadExpr source = (t', .ok e')) :
    ∃ t e, s.loadExpr source = (t, .ok e) ∧ e' = e.relabel ρ ∧
      Renumbered ρ t t' := by
  obtain ⟨hscan, hreads, ht'⟩ := loadExpr_eq_ok.1 hload
  have he : e' =
      (e'.relabel (countFrom s'.nextId s.nextId)).relabel ρ := by
    rw [Expr.relabel_relabel]
    exact (Expr.relabel_eq_self (h.keeps_count hreads.fresh)).symm
  have hshifted := hreads.relabel (steps_countFrom s'.nextId s.nextId)
  rw [id_countFrom, map_countFrom, Expr.Phrase.relabel] at hshifted
  rw [ht']
  exact ⟨_, _, loadExpr_eq_ok.2 ⟨hscan, hshifted, rfl⟩, he,
    h.advance hreads.fresh.le h.distances⟩

/-- A machine of the second session does what one of the first does. -/
theorem finish (h : Renumbered ρ s s') (hs : s.Settled) (m : Machine)
    (times : List Float) :
    let ended := s.finish (Machine.runAlong s.setting times m)
    let ended' := s'.finish
      (Machine.runAlong s'.setting times (m.relabel ρ))
    Renumbered ρ ended.1 ended'.1 ∧ ended'.2.shown = ended.2.shown := by
  intro ended ended'
  have hagrees (now : Float) : (s.setting now).Agrees ρ (s'.setting now) :=
    ⟨h.maxDepth, h.natives, rfl, rfl, h.distances,
      fun i behaviour hi => (hs.faithful i behaviour hi).blind⟩
  have hended' : ended' = s'.finish ((Machine.runAlong s.setting times
      m).relabel ρ) := by
    rw [← Machine.runAlong_relabel hagrees]
  rw [hended']
  refine ⟨{ h with store := rfl, sink := rfl }, ?_⟩
  simp only [Session.finish, Answer.shown, resultOf_relabel,
    shown_relabel h.line, h.sink]
  rfl

/-- What the second session accepts is accepted by the first and answered in
the same way. -/
theorem accepted (h : Renumbered ρ s s') (hs : s.Settled) {request : Request}
    (haccepted : ¬ (s'.answer request).2.isRejected) :
    Renumbered ρ (s.answer request).1 (s'.answer request).1 ∧
      (s'.answer request).2.shown = (s.answer request).2.shown := by
  cases request with
  | run source times =>
    simp only [answer, runWith] at haccepted ⊢
    cases hresult : s'.load source with
    | mk t' loaded =>
      rw [hresult] at haccepted
      cases loaded with
      | error diagnostics => exact absurd rfl haccepted
      | ok program' =>
        obtain ⟨t, program, hload, rfl, ht⟩ := h.load hresult
        have hsettled := hs.load source
        rw [hload] at hsettled ⊢
        have hstart : (Machine.ofProgram program t.start).relabel ρ =
            .ofProgram (program.map (Stmt.relabel ρ)) t'.start := by
          simp only [Machine.ofProgram, Machine.relabel, start,
            Machine.State.relabel, ht.store, ht.sink]
          rfl
        have hfinish := ht.finish hsettled (.ofProgram program t.start) times
        rwa [hstart] at hfinish
  | eval source times =>
    simp only [answer, evalWith] at haccepted ⊢
    cases hresult : s'.loadExpr source with
    | mk t' loaded =>
      rw [hresult] at haccepted
      cases loaded with
      | error diagnostics => exact absurd rfl haccepted
      | ok e' =>
        obtain ⟨t, e, hload, rfl, ht⟩ := h.loadExpr hresult
        have hsettled := hs.loadExpr source
        rw [hload] at hsettled ⊢
        have hstart : (Machine.ofExpr e t.start).relabel ρ =
            .ofExpr (e.relabel ρ) t'.start := by
          simp only [Machine.ofExpr, Machine.relabel, start,
            Machine.State.relabel, ht.store, ht.sink]
          rfl
        have hfinish := ht.finish hsettled (.ofExpr e t.start) times
        rwa [hstart] at hfinish

end Renumbered

/-! ## Whole sessions -/

theorem Settled.answer {s : Session} (h : s.Settled) (request : Request) :
    (s.answer request).1.Settled := by
  cases request with
  | run source times => exact h.run times source
  | eval source times => exact h.eval times source

/-- The requests that were not rejected, with their answers. -/
def kept (answers : List (Request × Answer)) : List (Request × Answer) :=
  answers.filter fun step => !step.2.isRejected

/-- The requests with what was shown. -/
def shown (answers : List (Request × Answer)) :
    List (Request × (String × Shown)) :=
  answers.map fun step => (step.1, step.2.shown)

theorem Renumbered.play {ρ : Labeling} {s s' : Session}
    (h : Renumbered ρ s s') (hs : s.Settled) (requests : List Request) :
    shown (s.play ((kept (s'.play requests)).map Prod.fst)) =
      shown (kept (s'.play requests)) := by
  induction requests generalizing ρ s s' with
  | nil => rfl
  | cons request rest ih =>
    rw [Session.play]
    by_cases hrejected : (s'.answer request).2.isRejected
    · obtain ⟨ρ', h'⟩ := h.rejected hs hrejected
      have hdropped : kept ((request, (s'.answer request).2) ::
          (s'.answer request).1.play rest) =
            kept ((s'.answer request).1.play rest) := by
        simp only [kept, List.filter_cons, hrejected]
        rfl
      rw [hdropped]
      exact ih h' hs
    · obtain ⟨h', hshown⟩ := h.accepted hs hrejected
      have hkept : kept ((request, (s'.answer request).2) ::
          (s'.answer request).1.play rest) =
            (request, (s'.answer request).2) ::
              kept ((s'.answer request).1.play rest) := by
        simp only [kept, List.filter_cons, hrejected]
        rfl
      have hrest := ih h' (hs.answer request)
      rw [hkept, List.map_cons, Session.play]
      simp only [shown, List.map_cons, hshown] at hrest ⊢
      rw [hrest]

/-- A rejected source is not noticed.  If those requests that are rejected are
left out, the others are answered as before: they print the same, and give a
value with the same display or fail in the same way. -/
theorem play_kept {program : List Stmt} {s : Session} (hs : Reached program s)
    (requests : List Request) :
    shown (s.play ((kept (s.play requests)).map Prod.fst)) =
      shown (kept (s.play requests)) := by
  have hstore : s.store.relabel ⟨id, id⟩ = s.store :=
    hs.settled.store _ ⟨fun _ => rfl, fun _ _ => rfl, fun _ h => h⟩
  exact (Renumbered.refl s hstore).play hs.settled requests

/-! ## A sample -/

/-- The statements of `{ var a = a; }`, which reads a variable in its own
initializer. -/
def sampleRejected : List Stmt :=
  [.block [.var ⟨"a", 1⟩ (some (.variable ⟨0, "a", 1⟩))]]

theorem load_sampleRejected {s : Session} (hn : s.nextId = 0) :
    s.load "{ var a = a; }" =
      ({ s with
          nextId := 1
          distances := (Scope.resolve sampleRejected s.distances).distances },
        .error [.scope 1 (.lexeme "a") .ownInitializer]) := by
  have hscan : (Token.scan "{ var a = a; }").diagnostics = [] := by
    with_unfolding_all rfl
  have htokens : (Token.scan "{ var a = a; }").tokens =
      [] ++ [⟨.symbol .leftBrace, 1⟩, ⟨.keyword .kwVar, 1⟩,
        ⟨.identifier "a", 1⟩, ⟨.symbol .equal, 1⟩, ⟨.identifier "a", 1⟩,
        ⟨.symbol .semicolon, 1⟩, ⟨.symbol .rightBrace, 1⟩] := by
    with_unfolding_all rfl
  have hreads : Stmt.Reads s.nextId (.declarations sampleRejected)
      (Token.scan "{ var a = a; }").tokens 1 := by
    rw [htokens, hn]
    exact .snoc .nil (.statement (.block (.snoc .nil (.var (.initialized
      (.of_call .name))))))
  have hresolve : (Scope.resolve sampleRejected s.distances).diagnostics =
      [.scope 1 (.lexeme "a") .ownInitializer] := by
    rw [Scope.resolve_eq]
    rfl
  simp only [load, parse, hscan, Stmt.parse_of_reads hreads, List.append_nil,
    resolve, hresolve]

theorem loadExpr_sample (s : Session) :
    s.loadExpr "a" = ({ s with nextId := s.nextId + 1 },
      .ok (.variable ⟨s.nextId, "a", 1⟩)) := by
  refine loadExpr_eq_ok.2 ⟨by decide +kernel, ?_, rfl⟩
  have htokens : (Token.scan "a").tokens = [⟨.identifier "a", 1⟩] := by
    with_unfolding_all rfl
  rw [htokens]
  exact .of_call .name

/-- The second source breaks a scope rule, so it leaves an id and a distance
behind; the third reads the variable of the first. -/
theorem play_kept_sample :
    let s := Session.new 8 .unlimited
    let requests := [.run "var a = \"x\";" [0, 0, 0, 0, 0],
      .run "{ var a = a; }" [0], .eval "a" [0]]
    Reached [] s ∧
    (s.play requests).map (fun step => step.2.isRejected) =
      [false, true, false] ∧
    shown (s.play ((kept (s.play requests)).map Prod.fst)) =
      shown (kept (s.play requests)) := by
  intro s requests
  have hs : Reached [] s := .new 8 .unlimited
  refine ⟨hs, ?_, play_kept hs requests⟩
  let one := s.runWith (driveAlong [0, 0, 0, 0, 0]) "var a = \"x\";"
  have hone : one = _ :=
    runWith_of_load (load_sampleFirst (s := s) rfl) [0, 0, 0, 0, 0]
  have hnext : one.1.nextId = 0 := by
    rw [hone]
    rfl
  let two := (one.1.load "{ var a = a; }").1
  have hfirst : one.2.isRejected = false := by
    rw [hone]
    exact isRejected_finish _ _
  have hsecond : one.1.runWith (driveAlong [0]) "{ var a = a; }" =
      (two, reject [.scope 1 (.lexeme "a") .ownInitializer]) := by
    simp only [runWith, two, load_sampleRejected hnext]
    rfl
  have hthird : (two.evalWith (driveAlong [0]) "a").2.isRejected = false := by
    simp only [evalWith, loadExpr_sample two]
    exact isRejected_finish _ _
  show [one.2.isRejected,
    (one.1.runWith (driveAlong [0]) "{ var a = a; }").2.isRejected,
    ((one.1.runWith (driveAlong [0]) "{ var a = a; }").1.evalWith
      (driveAlong [0]) "a").2.isRejected] = _
  rw [hfirst, hsecond, hthird]
  rfl

end Session

end Lox
