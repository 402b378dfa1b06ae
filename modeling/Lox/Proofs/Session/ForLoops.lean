import Lox.Proofs.Session.Rejected
import Lox.Proofs.Stmt.ForLoops

/-!
# A `for` loop runs like what it stands for

The reader counts ids in the order in which it reads, so the increment and the
body of a `for` statement have exchanged their ids in its expansion.  The
exchange leaves alone all that a session had before (`Labeling.Beyond`) and
keeps ids apart, and this is all that is needed: a program with such a change
of ids, on any lines, breaks the same scope rules and is run in the same way
(`runWith_relabeled`).  So a `for` statement and its expansion cannot be told
apart (`for_expands`).
-/

namespace Lox

namespace Session

open Stmt

/-! ## Programs that differ in labels -/

/-- What is shown of a result, with other labels. -/
def Shown.relabel (ρ : Labeling) : Shown → Shown
  | rejected diagnostics => rejected (diagnostics.map (Diagnostic.relabel ρ))
  | failed f => failed (f.relabel ρ)
  | other => other

/-- What is shown of an answer, up to lines. -/
def Answer.shownAnywhere (a : Answer) : String × Shown :=
  (a.output, a.result.shown.relabel .noLines)

theorem shown_noLines (result : Result) :
    (result.relabel .noLines).shown.relabel .noLines =
      result.shown.relabel .noLines := by
  cases result with
  | failed f => cases f <;> rfl
  | value v => simp only [Result.relabel, Result.shown, Value.display_relabel]
  | _ => rfl

/-- Two sources that a session reads as the same program up to ids and lines.
The change of ids keeps ids apart and leaves those alone that the session had. -/
structure Relabeled (s : Session) (ρ : Labeling) (source source' : String)
    (list list' : List Stmt) : Prop where
  beyond : ρ.Beyond s.nextId
  injective : Function.Injective ρ.id
  scan : (Token.scan source).diagnostics = []
  scan' : (Token.scan source').diagnostics = []
  reads : ∃ n, Reads s.nextId (.declarations list) (Token.scan source).tokens n
  reads' : ∃ n, Reads s.nextId (.declarations list')
    (Token.scan source').tokens n
  same : list'.map (Stmt.relabel .noLines) =
    (list.map (Stmt.relabel ρ)).map (Stmt.relabel .noLines)

/-- The session that has loaded a program. -/
def loaded (s : Session) (list : List Stmt) (n : Nat) : Session :=
  { s with
    nextId := n
    distances := (Scope.resolve list s.distances).distances }

/-- A program that is read without a fault and breaks a scope rule. -/
theorem runWith_of_broken {s : Session} {source : String} {list : List Stmt}
    {n : Nat} {d : Diagnostic} {rest : List Diagnostic}
    (hscan : (Token.scan source).diagnostics = [])
    (hreads : Reads s.nextId (.declarations list) (Token.scan source).tokens n)
    (hbroken : (Scope.resolve list s.distances).diagnostics = d :: rest)
    (times : List Float) :
    (s.runWith (driveAlong times) source).2 = reject (d :: rest) := by
  simp only [runWith, load, parse, hscan, parse_of_reads hreads,
    List.append_nil, resolve, hbroken]
  rfl

/-- Programs that are the same up to lines are resolved in the same way. -/
theorem resolve_noLines {list list' : List Stmt}
    (h : list'.map (Stmt.relabel .noLines) = list.map (Stmt.relabel .noLines))
    (distances : Distances) :
    (Scope.resolve list' distances).distances =
        (Scope.resolve list distances).distances ∧
      (Scope.resolve list' distances).diagnostics.map
          (Diagnostic.relabel .noLines) =
        (Scope.resolve list distances).diagnostics.map
          (Diagnostic.relabel .noLines) := by
  have hsame := congrArg (Scope.resolve · distances) h
  simp only [Labeling.noLines, Scope.resolve_lines, Scope.Resolved.mk.injEq]
    at hsame
  exact hsame

namespace Relabeled

variable {s : Session} {ρ : Labeling} {source source' : String}
  {list list' : List Stmt}

/-- The scope rules give corresponding distances, and the same diagnostics up
to lines. -/
theorem resolve (h : s.Relabeled ρ source source' list list') (hs : s.Settled) :
    Scope.Carries ρ (Scope.resolve list s.distances).distances
        (Scope.resolve list' s.distances).distances ∧
      (Scope.resolve list' s.distances).diagnostics.map
          (Diagnostic.relabel .noLines) =
        (Scope.resolve list s.distances).diagnostics.map
          (Diagnostic.relabel .noLines) := by
  have hbefore : Scope.Carries ρ s.distances s.distances :=
    (hs.agrees h.beyond 0).distances
  obtain ⟨hcarries, hdiagnostics⟩ := Scope.resolve_tracks
    (Scope.tracks_carries h.injective) list hbefore
  rw [funext (Diagnostic.relabel_eq_self h.beyond.line), List.map_id']
    at hdiagnostics
  obtain ⟨hdistances, hlines⟩ := resolve_noLines h.same s.distances
  rw [hdistances, hlines, hdiagnostics]
  exact ⟨hcarries, rfl⟩

/-- Machines that are the same up to ids and lines end in the same way. -/
theorem shownAnywhere_finish (hρ : ∀ line, ρ.line line = line) {t t' : Session}
    {m m' : Machine} (hm : m'.relabel .noLines = (m.relabel ρ).relabel .noLines)
    (hsink : t'.sink = t.sink) :
    (t'.finish m').2.shownAnywhere = (t.finish m).2.shownAnywhere := by
  have hsame : m'.state.sink = m.state.sink :=
    congrArg (fun m => m.state.sink) hm
  have hresult := congrArg (fun m => (resultOf m).shown.relabel .noLines) hm
  simp only [resultOf_relabel, shown_noLines, shown_relabel hρ] at hresult
  simp only [finish, Answer.shownAnywhere, hsame, hsink, hresult]

/-- A program that breaks no scope rule: the two machines do the same at every
step, up to ids and lines. -/
theorem runWith_accepted (h : s.Relabeled ρ source source' list list')
    (hs : s.Settled)
    (haccepted : (Scope.resolve list s.distances).diagnostics = [])
    (times : List Float) :
    (s.runWith (driveAlong times) source').2.shownAnywhere =
      (s.runWith (driveAlong times) source).2.shownAnywhere := by
  obtain ⟨n, hreads⟩ := h.reads
  obtain ⟨n', hreads'⟩ := h.reads'
  obtain ⟨hcarries, hdiagnostics⟩ := h.resolve hs
  rw [haccepted, List.map_nil, List.map_eq_nil_iff] at hdiagnostics
  have hload : s.load source = (s.loaded list n, .ok list) :=
    load_eq_ok.2 ⟨h.scan, hreads, haccepted, rfl⟩
  have hload' : s.load source' = (s.loaded list' n', .ok list') :=
    load_eq_ok.2 ⟨h.scan', hreads', hdiagnostics, rfl⟩
  have hsettled := hs.load source'
  rw [hload'] at hsettled
  have hagrees (now : Float) : ((s.loaded list n).setting now).Agrees ρ
      ((s.loaded list' n').setting now) :=
    ⟨rfl, rfl, rfl, rfl, hcarries,
      fun i behaviour hi => (hs.faithful i behaviour hi).blind⟩
  have hids : (Machine.ofProgram list s.start).relabel ρ =
      .ofProgram (list.map (Stmt.relabel ρ)) s.start := by
    simp only [Machine.ofProgram, Machine.relabel, hs.start h.beyond,
      List.map_cons, List.map_nil, Machine.Pending.relabel]
    rfl
  have hlines : (Machine.ofProgram list' s.start).relabel .noLines =
      (Machine.ofProgram (list.map (Stmt.relabel ρ)) s.start).relabel
        .noLines := by
    simp only [Machine.ofProgram, Machine.relabel, List.map_cons, List.map_nil,
      Machine.Pending.relabel, h.same]
  have hrun : (Machine.runAlong (s.loaded list' n').setting times
        (.ofProgram list' s.start)).relabel .noLines =
      ((Machine.runAlong (s.loaded list n).setting times
        (.ofProgram list s.start)).relabel ρ).relabel .noLines := by
    rw [← Machine.runAlong_relabel (agrees_noLines hsettled), hlines, ← hids,
      Machine.runAlong_relabel (agrees_noLines hsettled),
      Machine.runAlong_relabel hagrees]
  rw [runWith_of_load hload, runWith_of_load hload']
  exact shownAnywhere_finish h.beyond.line hrun rfl

/-- A program on other lines and with other ids is answered in the same way. -/
theorem runWith_relabeled (h : s.Relabeled ρ source source' list list')
    (hs : s.Settled) (times : List Float) :
    (s.runWith (driveAlong times) source').2.shownAnywhere =
      (s.runWith (driveAlong times) source).2.shownAnywhere := by
  cases hbroken : (Scope.resolve list s.distances).diagnostics with
  | nil => exact h.runWith_accepted hs hbroken times
  | cons d rest =>
    obtain ⟨n, hreads⟩ := h.reads
    obtain ⟨n', hreads'⟩ := h.reads'
    obtain ⟨-, hdiagnostics⟩ := h.resolve hs
    rw [hbroken] at hdiagnostics
    cases hbroken' : (Scope.resolve list' s.distances).diagnostics with
    | nil =>
      rw [hbroken'] at hdiagnostics
      cases hdiagnostics
    | cons d' rest' =>
      rw [hbroken'] at hdiagnostics
      rw [runWith_of_broken h.scan hreads hbroken,
        runWith_of_broken h.scan' hreads' hbroken']
      simp only [reject, Answer.shownAnywhere, Result.shown, Shown.relabel,
        hdiagnostics]

end Relabeled

/-! ## The exchange of ids -/

/-- Exchanges the `k` ids from `c` on and the `m` ids behind them. -/
def exchange (c k m : Nat) : Labeling where
  id id :=
    if id < c then id
    else if id < c + k then id + m
    else if id < c + k + m then id - k
    else id
  line line := line

section

variable {a c d e k m : Nat}

theorem injective_exchange : Function.Injective (exchange c k m).id := by
  intro id id' h
  simp only [exchange] at h
  split_ifs at h <;> omega

theorem beyond_exchange (hle : a ≤ c) : (exchange c k m).Beyond a where
  line := fun _ => rfl
  below := by
    intro id hid
    exact if_pos (Nat.lt_of_lt_of_le hid hle)
  above := by
    intro id hid
    simp only [exchange]
    split_ifs <;> omega

/-- Ids from `d` on that are read from `c` on instead come back. -/
theorem keeps_increment (hcd : c ≤ d) {ids : List Nat} (h : Fresh d ids e) :
    ((countFrom d c).andThen (exchange c (e - d) (d - c))).Keeps ids := by
  refine ⟨fun _ => rfl, fun id hid => ?_⟩
  have hrange := h.range id hid
  show (exchange c (e - d) (d - c)).id (id - d + c) = id
  simp only [exchange]
  split_ifs <;> omega

/-- So do the ids before them that are read behind. -/
theorem keeps_body (hde : d ≤ e) {ids : List Nat} (h : Fresh c ids d) :
    ((countFrom c (e - d + c)).andThen (exchange c (e - d) (d - c))).Keeps
      ids := by
  refine ⟨fun _ => rfl, fun id hid => ?_⟩
  have hrange := h.range id hid
  show (exchange c (e - d) (d - c)).id (id - c + (e - d + c)) = id
  simp only [exchange]
  split_ifs <;> omega

end

/-! ## Reading the parts from elsewhere -/

/-- Ids can be counted from anywhere. -/
theorem reads_countFrom {n n' : Nat} {phrase : Stmt.Phrase} {w : List Token}
    (h : Reads n phrase w n') (m : Nat) :
    Reads m (phrase.relabel (countFrom n m)) w ((countFrom n m).id n') := by
  have hmoved := h.relabel (steps_countFrom n m)
  rwa [id_countFrom, map_countFrom] at hmoved

theorem readsOption_countFrom {n n' : Nat} {v : Option Expr} {w : List Token}
    (h : ReadsOption n v w n') (m : Nat) :
    ReadsOption m (v.map (Expr.relabel (countFrom n m))) w
      ((countFrom n m).id n') := by
  have hmoved := h.relabel (steps_countFrom n m)
  rwa [id_countFrom, map_countFrom] at hmoved

theorem readsInitializer_of_written {f : ForLoop} (h : f.IsWritten) (a : Nat) :
    ∃ v b, ReadsForInitializer a v f.initializer b := by
  obtain ⟨line, hbare⟩ | hone := h.initializer
  · exact ⟨none, a, hbare ▸ .none⟩
  · obtain ⟨n, n', o, s, hreads, hs⟩ := hone.reads
    have hmoved := (hreads.initializer_inv hs).relabel (steps_countFrom n a)
    rw [id_countFrom, map_countFrom] at hmoved
    exact ⟨_, _, hmoved⟩

theorem readsOption_of_clause {w : List Token} (h : IsClause w) (a : Nat) :
    ∃ v b, ReadsOption a v w b := by
  obtain ⟨n, n', v, hreads⟩ := h.reads
  exact ⟨_, _, readsOption_countFrom hreads a⟩

theorem readsBody_of_written {f : ForLoop} (h : f.IsWritten) (a : Nat) :
    ∃ o s b, Reads a (.statement o s) f.body b := by
  obtain ⟨n, n', o, s, hreads, hs⟩ := h.body.reads
  exact ⟨o, _, _, reads_countFrom (hreads.statement_inv hs) a⟩

theorem relabelInitializer_eq_self {ρ : Labeling} {v : Option Stmt}
    (h : ρ.Keeps (idsOption v)) : v.map (Stmt.relabel ρ) = v := by
  cases v with
  | none => rfl
  | some s => rw [Option.map_some, Stmt.relabel_eq_self h]

/-- A `for` statement and its expansion are read as the same statement, but for
an exchange of ids that are new. -/
theorem reads_of_written {f : ForLoop} (hf : f.IsWritten) (a : Nat) :
    ∃ (ρ : Labeling) (o o' : Bool) (s : Stmt) (n n' : Nat),
      ρ.Beyond a ∧ Function.Injective ρ.id ∧
      Reads a (.statement o s) f.tokens n ∧
      Reads a (.statement o' (s.relabel ρ)) f.expansion n' := by
  -- The parts are read in the order of the expansion.
  obtain ⟨initializer, b, hinitializer⟩ := readsInitializer_of_written hf a
  obtain ⟨condition, c, hcondition⟩ := readsOption_of_clause hf.condition b
  obtain ⟨o, body, d, hbody⟩ := readsBody_of_written hf c
  obtain ⟨increment, e, hincrement⟩ := readsOption_of_clause hf.increment d
  have hab := hinitializer.fresh.le
  have hbc := hcondition.fresh.le
  have hcd := hbody.fresh.le
  have hde := hincrement.fresh.le
  obtain ⟨o', hexpansion⟩ := ForLoop.reads_expansion
    (c := ⟨initializer, condition, increment⟩)
    hinitializer hcondition hbody hincrement
  -- In the `for` statement the increment comes before the body.
  have hincrement' := readsOption_countFrom hincrement c
  have hbody' := reads_countFrom hbody (e - d + c)
  have htokens := ForLoop.reads_tokens
    (c := ⟨initializer, condition,
      increment.map (Expr.relabel (countFrom d c))⟩)
    hinitializer hcondition hincrement' hbody'
  have hbeyond : (exchange c (e - d) (d - c)).Beyond c :=
    beyond_exchange (Nat.le_refl c)
  refine ⟨exchange c (e - d) (d - c), o, o', _, _, e,
    beyond_exchange (Nat.le_trans hab hbc), injective_exchange, htokens, ?_⟩
  have hloop : (ForClauses.loop ⟨initializer, condition,
        increment.map (Expr.relabel (countFrom d c))⟩
        (body.relabel (countFrom c (e - d + c)))).relabel
        (exchange c (e - d) (d - c)) =
      ForClauses.loop ⟨initializer, condition, increment⟩ body := by
    have hfirst := relabelInitializer_eq_self (hbeyond.keeps fun id hid =>
      Nat.lt_of_lt_of_le (hinitializer.fresh.range id hid).2 hbc)
    have hsecond := Expr.relabelOption_eq_self (hbeyond.keeps fun id hid =>
      (hcondition.fresh.range id hid).2)
    have hthird := Expr.relabelOption_eq_self (keeps_increment hcd hincrement.fresh)
    have hlast := Stmt.relabel_eq_self (keeps_body hde hbody.fresh)
    rw [ForClauses.relabel_loop, ForClauses.relabel, Stmt.relabel_relabel,
      Expr.relabelOption_relabel, hfirst, hsecond, hthird, hlast]
  rw [hloop]
  exact hexpansion

/-! ## A `for` statement and its expansion -/

theorem relabel_noLabels (ρ : Labeling) (s : Stmt) :
    (s.relabel ρ).relabel .noLabels = s.relabel .noLabels :=
  s.relabel_relabel ρ .noLabels

theorem map_noLines_comm {ρ : Labeling} (h : ∀ line, ρ.line line = line)
    (list : List Stmt) :
    (list.map (Stmt.relabel ρ)).map (Stmt.relabel .noLines) =
      (list.map (Stmt.relabel .noLines)).map (Stmt.relabel ρ) := by
  have hcomm : ρ.andThen .noLines = Labeling.noLines.andThen ρ := by
    simp only [Labeling.andThen, Labeling.noLines, Labeling.line_lines,
      Labeling.id_lines, h]
  rw [Stmt.relabelAll_relabel_of _ _ fun s _ => s.relabel_relabel _ _,
    Stmt.relabelAll_relabel_of _ _ fun s _ => s.relabel_relabel _ _, hcomm]

/-- What can be read is read alone from tokens of the same kinds, up to labels. -/
theorem parse_of_statement {a n endLine : Nat} {o : Bool} {s : Stmt}
    {w w' : List Token} (h : Reads a (.statement o s) w n)
    (hw : Token.SameKinds w' w) (n' : Nat) :
    ∃ s' m, Stmt.parse (.ofTokens w' endLine) n' = ⟨[s'], [], m⟩ ∧
      s'.relabel .noLabels = s.relabel .noLabels := by
  have hmoved := reads_countFrom h n'
  obtain ⟨list, hreads, hlist⟩ :=
    reads_of_sameKinds (.snoc .nil (.statement hmoved)) hw
  rw [List.nil_append, List.map_singleton, List.map_eq_singleton_iff] at hlist
  obtain ⟨s', rfl, hs'⟩ := hlist
  refine ⟨s', _, parse_of_reads (by rwa [Token.Scan.tokens_ofTokens]), ?_⟩
  rw [← relabel_noLabels .noLines s', hs', relabel_noLabels, relabel_noLabels]

/-- Behind the same program both are read as the same but for the exchange. -/
theorem relabeled_of_written {s : Session} {p : List Token} {pEnd pId : Nat}
    (hp : (Stmt.parse (.ofTokens p pEnd) pId).diagnostics = []) {f : ForLoop}
    (hf : f.IsWritten) {source source' : String}
    (hscan : (Token.scan source).diagnostics = [])
    (hscan' : (Token.scan source').diagnostics = [])
    (hkinds : Token.SameKinds (Token.scan source).tokens (p ++ f.tokens))
    (hkinds' : Token.SameKinds (Token.scan source').tokens (p ++ f.expansion)) :
    ∃ ρ list list', s.Relabeled ρ source source' list list' := by
  have hread := reads_of_parse hp
  rw [Token.Scan.tokens_ofTokens] at hread
  have hmoved := reads_countFrom hread s.nextId
  rw [Phrase.relabel] at hmoved
  generalize (Stmt.parse (.ofTokens p pEnd) pId).statements.map
    (Stmt.relabel (countFrom pId s.nextId)) = before at hmoved
  obtain ⟨ρ, o, o', loop, n, n', hbeyond, hinjective, htokens, hexpansion⟩ :=
    reads_of_written hf ((countFrom pId s.nextId).id
      (Stmt.parse (.ofTokens p pEnd) pId).nextId)
  obtain ⟨list, hlist, hlines⟩ := reads_of_sameKinds
    (hmoved.append (.snoc .nil (.statement htokens))) hkinds
  obtain ⟨list', hlist', hlines'⟩ := reads_of_sameKinds
    (hmoved.append (.snoc .nil (.statement hexpansion))) hkinds'
  refine ⟨ρ, list, list', hbeyond.mono hmoved.fresh.le, hinjective, hscan,
    hscan', ⟨n, hlist⟩, ⟨n', hlist'⟩, ?_⟩
  have hbefore : before.map (Stmt.relabel ρ) = before :=
    Stmt.relabelAll_eq_self (hbeyond.keeps fun id hid =>
      (hmoved.fresh.range id hid).2)
  have hboth : (before ++ ([] ++ [loop])).map (Stmt.relabel ρ) =
      before ++ ([] ++ [loop.relabel ρ]) := by
    rw [List.map_append, hbefore]
    rfl
  rw [map_noLines_comm hbeyond.line, hlines, ← map_noLines_comm hbeyond.line,
    hlines', hboth]

/-- A `for` statement means its expansion.  Let each part of it be what the
reader takes there: the initializer a lone semicolon, a variable declaration or
an expression statement, condition and increment expressions or nothing, the
body one statement.  Then, on whatever lines the tokens stand and wherever ids
are counted from, the `for` statement and the expansion are each read without a
fault as one statement, and these are the same up to ids and lines.

And let there be any program that can be read in front of both, in a session
that any sources have led to.  Whatever step the two programs are driven to,
they have printed the same and have come to the same result, with the same
rejection or failure, up to lines. -/
theorem for_expands {program : List Stmt} {s : Session} (hs : Reached program s)
    {p : List Token} {pEnd pId : Nat}
    (hp : (Stmt.parse (.ofTokens p pEnd) pId).diagnostics = []) {f : ForLoop}
    (hf : f.IsWritten) :
    (∀ (w w' : List Token) (endLine endLine' n n' : Nat),
      Token.SameKinds w f.tokens → Token.SameKinds w' f.expansion →
      ∃ loop loop' m m',
        Stmt.parse (.ofTokens w endLine) n = ⟨[loop], [], m⟩ ∧
        Stmt.parse (.ofTokens w' endLine') n' = ⟨[loop'], [], m'⟩ ∧
        loop'.relabel .noLabels = loop.relabel .noLabels) ∧
    ∀ source source' : String,
      (Token.scan source).diagnostics = [] →
      (Token.scan source').diagnostics = [] →
      Token.SameKinds (Token.scan source).tokens (p ++ f.tokens) →
      Token.SameKinds (Token.scan source').tokens (p ++ f.expansion) →
      ∀ times : List Float,
        let answer := (s.runWith (driveAlong times) source).2
        let answer' := (s.runWith (driveAlong times) source').2
        answer'.output = answer.output ∧
          answer'.result.shown.relabel .noLines =
            answer.result.shown.relabel .noLines := by
  constructor
  · intro w w' endLine endLine' n n' hw hw'
    obtain ⟨ρ, o, o', loop, _, _, -, -, htokens, hexpansion⟩ :=
      reads_of_written hf 0
    obtain ⟨s, m, hparse, hsame⟩ := parse_of_statement htokens hw n
    obtain ⟨s', m', hparse', hsame'⟩ := parse_of_statement hexpansion hw' n'
    refine ⟨s, s', m, m', hparse, hparse', ?_⟩
    rw [hsame', hsame, relabel_noLabels]
  · intro source source' hscan hscan' hkinds hkinds' times
    obtain ⟨ρ, list, list', h⟩ :=
      relabeled_of_written (s := s) hp hf hscan hscan' hkinds hkinds'
    exact Prod.mk.inj (h.runWith_relabeled hs.settled times)

/-! ## A sample -/

/-- An empty block in front of the loop. -/
def sampleBefore : List Token :=
  [⟨.symbol .leftBrace, 1⟩, ⟨.symbol .rightBrace, 1⟩]

/-- The parts of `for (var a; a; a = a) a;`. -/
def sampleFor : ForLoop where
  initializer :=
    [⟨.keyword .kwVar, 1⟩, ⟨.identifier "a", 1⟩, ⟨.symbol .semicolon, 1⟩]
  condition := [⟨.identifier "a", 1⟩]
  increment :=
    [⟨.identifier "a", 1⟩, ⟨.symbol .equal, 1⟩, ⟨.identifier "a", 1⟩]
  body := [⟨.identifier "a", 1⟩, ⟨.symbol .semicolon, 1⟩]

theorem isOne_of_reads {meant : Stmt → Bool} {n n' : Nat} {o : Bool} {s : Stmt}
    {w : List Token} (h : Reads n (.declaration o s) w n')
    (hs : meant s = true) : IsOne meant w := by
  refine ⟨0, n, n', s, parse_of_reads ?_, hs⟩
  rw [Token.Scan.tokens_ofTokens]
  exact .snoc .nil h

theorem isClause_of_reads {n n' : Nat} {e : Expr} {w : List Token}
    (h : Expr.Reads n (.expr (.rank .assignment) e) w n') : IsClause w := by
  refine .inr ⟨0, n, n', e, Expr.parse_eq_iff.2 ?_⟩
  rwa [Token.Scan.tokens_ofTokens]

theorem isWritten_sampleFor : sampleFor.IsWritten where
  initializer := .inr (isOne_of_reads (n := 0) (.var .plain) rfl)
  condition := isClause_of_reads (n := 0) (.of_call .name)
  increment := isClause_of_reads (n := 0) (.assign (.of_call .name))
  body := isOne_of_reads (n := 0)
    (.statement (.expression (.intro (.of_call .name)))) rfl

theorem scan_sampleLoop :
    Token.scan "\x7b\x7dfor(var a;a;a=a)a;" = .ofTokens (sampleBefore ++
      [⟨.keyword .kwFor, 1⟩, ⟨.symbol .leftParen, 1⟩, ⟨.keyword .kwVar, 1⟩,
        ⟨.identifier "a", 1⟩, ⟨.symbol .semicolon, 1⟩, ⟨.identifier "a", 1⟩,
        ⟨.symbol .semicolon, 1⟩, ⟨.identifier "a", 1⟩, ⟨.symbol .equal, 1⟩,
        ⟨.identifier "a", 1⟩, ⟨.symbol .rightParen, 1⟩, ⟨.identifier "a", 1⟩,
        ⟨.symbol .semicolon, 1⟩]) 1 := by
  with_unfolding_all rfl

theorem scan_sampleExpansion :
    Token.scan "\x7b\x7d\x7bvar a;while(a)\n\x7ba;a=a;\x7d\x7d" =
      .ofTokens (sampleBefore ++
        [⟨.symbol .leftBrace, 1⟩, ⟨.keyword .kwVar, 1⟩, ⟨.identifier "a", 1⟩,
          ⟨.symbol .semicolon, 1⟩, ⟨.keyword .kwWhile, 1⟩,
          ⟨.symbol .leftParen, 1⟩, ⟨.identifier "a", 1⟩,
          ⟨.symbol .rightParen, 1⟩, ⟨.symbol .leftBrace, 2⟩,
          ⟨.identifier "a", 2⟩, ⟨.symbol .semicolon, 2⟩, ⟨.identifier "a", 2⟩,
          ⟨.symbol .equal, 2⟩, ⟨.identifier "a", 2⟩, ⟨.symbol .semicolon, 2⟩,
          ⟨.symbol .rightBrace, 2⟩, ⟨.symbol .rightBrace, 2⟩]) 2 := by
  with_unfolding_all rfl

/-- The loop of the sample on one line, and its expansion on two. -/
theorem for_expands_sample :
    let s := Session.new 8 .unlimited
    let source := "\x7b\x7dfor(var a;a;a=a)a;"
    let source' := "\x7b\x7d\x7bvar a;while(a)\n\x7ba;a=a;\x7d\x7d"
    Reached [] s ∧
    (Stmt.parse (.ofTokens sampleBefore 1) 0).diagnostics = [] ∧
    sampleFor.IsWritten ∧
    (∃ loop loop' m m',
      Stmt.parse (.ofTokens sampleFor.tokens 1) 0 = ⟨[loop], [], m⟩ ∧
      Stmt.parse (.ofTokens sampleFor.expansion 2) 0 = ⟨[loop'], [], m'⟩ ∧
      loop'.relabel .noLabels = loop.relabel .noLabels) ∧
    ∀ times : List Float,
      let answer := (s.runWith (driveAlong times) source).2
      let answer' := (s.runWith (driveAlong times) source').2
      answer'.output = answer.output ∧
        answer'.result.shown.relabel .noLines =
          answer.result.shown.relabel .noLines := by
  intro s source source'
  have hs : Reached [] s := .new 8 .unlimited
  have hp : (Stmt.parse (.ofTokens sampleBefore 1) 0).diagnostics = [] := by
    have hreads : Reads 0 (.declarations ([] ++ [.block []])) sampleBefore 0 :=
      .snoc .nil (.statement (.block .nil))
    rw [show Stmt.parse (.ofTokens sampleBefore 1) 0 = _ from
      parse_of_reads hreads]
  obtain ⟨hparse, hrun⟩ := for_expands hs hp isWritten_sampleFor
  exact ⟨hs, hp, isWritten_sampleFor, hparse _ _ 1 2 0 0 rfl rfl,
    hrun source source' (by rw [scan_sampleLoop]; rfl)
      (by rw [scan_sampleExpansion]; rfl) (by rw [scan_sampleLoop]; rfl)
      (by rw [scan_sampleExpansion]; rfl)⟩

end Session

end Lox
