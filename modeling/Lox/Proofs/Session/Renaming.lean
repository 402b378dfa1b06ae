import Lox.Proofs.Renaming.Choice
import Lox.Proofs.Renaming.Machine
import Lox.Proofs.Renaming.Scopes
import Lox.Proofs.Session.Lookup
import Lox.Proofs.Session.Rejected
import Lox.Proofs.Token.Rewording

/-!
# Names of local variables do not matter

Take a source that a session accepts, and give local variables in some of its
scopes a new name that stands nowhere in it.  Then there is a source for the
renamed program, the session accepts it, and it runs as the first one does: it
prints the same and ends in the same way at the same step, except that an
undefined variable is reported under its new name (`runWith_rename`).

Any scope of the program in which `old` is a variable or a parameter can be
changed, and those around it left as they are (`exists_rename`).

The parts are those of the way from a source to its answer.  The renamed
program is read from tokens with the new name in them (`Stmt.Reads.rename`),
which are those of a source (`Token.exists_source`); the scope rules give it
the same distances (`Scope.resolve_rename`); and its run goes on beside that
of the program (`Machine.twin_runAlong`), from a store in which nothing is
renamed.
-/

namespace Lox.Session

/-- The only native function of a new session does not look at its
arguments. -/
theorem respects_new (r : Renaming) (maxDepth : Nat) (sink : Sink) (i : Nat)
    (behaviour : Machine.Behaviour)
    (h : (Session.new maxDepth sink).natives[i]? = some behaviour) :
    behaviour.Respects r := by
  have hmem : behaviour ∈ #[clock] := Array.mem_of_getElem? h
  rw [Array.mem_singleton] at hmem
  subst hmem
  exact fun _ now _ _ _ => .ok (.number now)

/-! ## Answers -/

/-- The same was printed, and the result is the same but for the name of an
undefined variable. -/
structure Answer.SameBut (r : Renaming) (a a' : Answer) : Prop where
  output : a'.output = a.output
  result : a'.result.shown = a.result.shown ∨ ∃ changed name line,
    a.result = .failed (.undefinedVariable name line) ∧
      a'.result = .failed (.undefinedVariable (r.name changed name) line)

theorem sink_of_twin {r : Renaming} {m m' : Machine}
    (h : Machine.Twin r m m') : m'.state.sink = m.state.sink := by
  cases h with
  | running beside next => exact beside.sink
  | stuck sink => exact sink

theorem sameBut_finish {r : Renaming} {m m' : Machine}
    (h : Machine.Twin r m m') (s : Session) :
    (s.finish m).2.SameBut r (s.finish m').2 := by
  have hsink := sink_of_twin h
  refine ⟨by simp only [finish, hsink], ?_⟩
  cases h with
  | stuck sink => exact .inl rfl
  | @running _ _ _ _ _ _ _ _ beside next =>
    have hwaits := beside.waits
    cases next with
    | eval e => exact .inl rfl
    | exec hs => exact .inl rfl
    | value hv =>
      cases hwaits with
      | nil => exact .inl (congrArg Shown.value hv.display)
      | cons first rest => exact .inl rfl
    | completed hc =>
      cases hwaits with
      | nil =>
        left
        simp only [finish, resultOf, Machine.outcome?, beside.sink]
      | cons first rest => exact .inl rfl
    | failed hf =>
      cases hwaits with
      | nil =>
        cases hf with
        | same f => exact .inl rfl
        | undefined changed name line => exact .inr ⟨changed, name, line, rfl, rfl⟩
      | cons first rest => exact .inl rfl

/-! ## Loading and running -/

section

variable {earlier program program' : List Stmt} {s t : Session}
  {source : String} {r : Renaming}

/-- The renamed program is read from a source with the new name in it, and it
is accepted with the same distances. -/
theorem load_rename (hs : Reached earlier s)
    (hload : s.load source = (t, .ok program)) (htable : r.table = t.distances)
    (hnew : Token.Absent r.new (Token.scan source).tokens)
    (hprogram : Stmt.AllRename r program [] program') :
    ∃ source', Token.Rewritten r (Token.scan source).tokens
        (Token.scan source').tokens ∧
      s.load source' = (t, .ok program') := by
  obtain ⟨-, hscoped⟩ := hs.coherent.load_ok hload
  obtain ⟨hscan, hreads, haccepted, ht⟩ := load_eq_ok.1 hload
  obtain ⟨w', hrewritten, hreads'⟩ := hreads.rename hnew ⟨program', hprogram, rfl⟩
  obtain ⟨source', hsource, hscan'⟩ := Token.exists_source hscan hrewritten
  have hresolve := Scope.resolve_rename htable.symm hscoped (hreads.avoids hnew)
    hprogram haccepted
  subst hsource
  refine ⟨source', hrewritten, load_eq_ok.2 ⟨hscan', hreads', ?_, ?_⟩⟩
  · rw [hresolve]
    exact haccepted
  · rw [hresolve]
    exact ht

/-- The run of the renamed program starts beside that of the program. -/
theorem twin_ofProgram (ht : Coherent earlier t)
    (hprogram : Stmt.AllRename r program [] program') :
    Machine.Twin r (.ofProgram program t.start) (.ofProgram program' t.start) := by
  have hglobals := Store.getElem?_unchanged_zero ht.store.root
  have hbeside : Machine.Beside r t.store.unchanged [] [.program program]
      [.program program'] t.start t.start :=
    ⟨Store.twin_self ht.store, rfl, rfl, rfl, hglobals, hglobals,
      .cons (.program hprogram) .nil⟩
  exact .running hbeside (.completed .normal)

/-- Names of local variables do not matter.  In a session whose native
functions do not see them, let local variables called `old` be called `new`
in some scopes of a program, where `new` stands nowhere in the source.  The
renamed program is accepted and runs as the program does, on any clock. -/
theorem runWith_rename (hs : Reached earlier s)
    (hnatives : ∀ (i : Nat) (behaviour : Machine.Behaviour),
      s.natives[i]? = some behaviour → behaviour.Respects r)
    (hload : s.load source = (t, .ok program)) (htable : r.table = t.distances)
    (hnew : Token.Absent r.new (Token.scan source).tokens)
    (hprogram : Stmt.AllRename r program [] program') :
    ∃ source', Token.Rewritten r (Token.scan source).tokens
        (Token.scan source').tokens ∧
      s.load source' = (t, .ok program') ∧
      ∀ times, (s.runWith (driveAlong times) source).2.SameBut r
        (s.runWith (driveAlong times) source').2 := by
  obtain ⟨source', hrewritten, hload'⟩ :=
    load_rename hs hload htable hnew hprogram
  refine ⟨source', hrewritten, hload', fun times => ?_⟩
  obtain ⟨hcoherent, hscoped⟩ := hs.coherent.load_ok hload
  have hnative : t.natives = s.natives := by
    rw [(load_eq_ok.1 hload).2.2.2]
  have hrespects (now : Float) : (t.setting now).Respects r :=
    ⟨htable.symm, rfl, fun i behaviour hi => hnatives i behaviour (hnative ▸ hi)⟩
  have hsafe := hcoherent.safe_program hscoped []
  have hrun := Machine.twin_runAlong hrespects hcoherent.suits hsafe
    (twin_ofProgram hcoherent hprogram) times
  rw [runWith_of_load hload, runWith_of_load hload']
  exact sameBut_finish hrun t

/-- Any block and any function of a program can be the scope in which a
variable or a parameter called `old` is called `new`, with no scope around it
changed.  So the renamed programs are there, for every local variable. -/
theorem exists_rename (hload : s.load source = (t, .ok program))
    (hnew : Token.Absent r.new (Token.scan source).tokens) {n : Nat}
    {params : List Ident} {body : List Stmt}
    (hscope : Scope.Opens program n params body)
    (hvar : r.old ∈ params.map Ident.name ++
      body.filterMap Stmt.variableName) :
    ∃ program' body', Stmt.AllRename r program [] program' ∧
      Stmt.AllRename r body (true :: List.replicate n false) body' ∧
      Scope.Opens program' n (params.map (Ident.rename r true)) body' := by
  obtain ⟨-, hreads, -, -⟩ := load_eq_ok.1 hload
  exact hscope.exists_rename (hreads.wellFormed (Token.named_scan _))
    (no_breach_of_load hload) (hreads.avoids hnew) hvar

end

/-! ## A sample -/

/-- A global variable `a`, and in a block a local one that is printed.  The
local one is called `x`. -/
def sampleShadow (x : String) : List Stmt :=
  [.var ⟨"a", 1⟩ none,
    .block [.var ⟨x, 1⟩ none, .print (.variable ⟨0, x, 1⟩)]]

/-- The source of the sample. -/
def sampleSource : String := "var a; \x7b var a; print a; \x7d"

theorem tokens_sampleSource :
    (Token.scan sampleSource).tokens =
      ([] ++ [⟨.keyword .kwVar, 1⟩, ⟨.identifier "a", 1⟩,
        ⟨.symbol .semicolon, 1⟩]) ++
      (⟨.symbol .leftBrace, 1⟩ :: ((([] ++ [⟨.keyword .kwVar, 1⟩,
        ⟨.identifier "a", 1⟩, ⟨.symbol .semicolon, 1⟩]) ++
          (⟨.keyword .kwPrint, 1⟩ :: ([⟨.identifier "a", 1⟩] ++
            [⟨.symbol .semicolon, 1⟩]))) ++ [⟨.symbol .rightBrace, 1⟩])) := by
  with_unfolding_all rfl

theorem load_sampleSource {s : Session} (hn : s.nextId = 0) :
    s.load sampleSource =
      ({ s with
          nextId := 1
          distances := (Scope.resolve (sampleShadow "a") s.distances).distances },
        .ok (sampleShadow "a")) := by
  refine load_eq_ok.2 ⟨by decide +kernel, ?_, ?_, rfl⟩
  · rw [tokens_sampleSource, hn]
    exact .snoc (.snoc .nil (.var .plain)) (.statement (.block (.snoc
      (.snoc .nil (.var .plain)) (.statement (.print (.intro
        (.of_call .name)))))))
  · rw [Scope.resolve_eq]
    rfl

/-- The local variable of the sample is called `b`. -/
def sampleRenaming (distances : Distances) : Renaming :=
  ⟨"a", "b", distances, by decide, by decide⟩

theorem allRename_sampleShadow {distances : Distances}
    (h : distances.find? 0 = some 0) :
    Stmt.AllRename (sampleRenaming distances) (sampleShadow "a") []
      (sampleShadow "b") := by
  have hname : (sampleRenaming distances).name true "a" = "b" := rfl
  have href : Ref.rename (sampleRenaming distances) [true] ⟨0, "a", 1⟩ =
      ⟨0, "b", 1⟩ := by
    rw [Ref.rename, show (sampleRenaming distances).table.find? 0 = _ from h]
    rfl
  simp only [sampleShadow, Stmt.AllRename, Stmt.Renames]
  refine ⟨_, _, rfl, ⟨_, _, ⟨true, _, ⟨_, _, rfl, ⟨_, _, rfl, rfl, rfl⟩, rfl⟩,
    rfl⟩, rfl, rfl⟩, ?_⟩
  rw [Expr.rename, href]
  rfl

/-- The local variable has a new name, the global one keeps its own. -/
theorem runWith_rename_sample :
    let s := Session.new 8 .unlimited
    ∃ t source', s.load sampleSource = (t, .ok (sampleShadow "a")) ∧
      s.load source' = (t, .ok (sampleShadow "b")) ∧
      ∀ times, (s.runWith (driveAlong times) sampleSource).2.SameBut
        (sampleRenaming t.distances) (s.runWith (driveAlong times) source').2 := by
  intro s
  have hload := load_sampleSource (s := s) rfl
  have hfind : (Scope.resolve (sampleShadow "a") s.distances).distances.find? 0 =
      some 0 := by
    rw [Scope.resolve_eq]
    exact Scope.find?_bind (Distances.find?_empty 0)
  have hnew : Token.Absent "b" (Token.scan sampleSource).tokens := by
    rw [tokens_sampleSource]
    simp [Token.Absent]
  obtain ⟨source', -, hload', hrun⟩ := runWith_rename (.new 8 .unlimited)
    (respects_new _ 8 .unlimited) hload rfl hnew (allRename_sampleShadow hfind)
  exact ⟨_, source', hload, hload', hrun⟩

end Lox.Session
