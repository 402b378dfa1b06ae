import Lox.Proofs.Machine.Output
import Lox.Proofs.Machine.Stack
import Lox.Proofs.Scope.Labels
import Lox.Proofs.Session.Reached
import Lox.Proofs.Stmt.Relabel
import Lox.Proofs.Token.Splitting

/-!
# Two sources and their joining

Two sources that are run one after the other, and one source made of both
with a line end between them, come to the same.  The text is cut into the
same tokens, the second half further down; they are read as the same
statements with the same ids; the scope rules see no scope open between the
halves; and the machine comes by the state between the two runs on its way
through the joined program.  All that differs is the lines of the second
half, and those are not seen by a run (`runWith_join`).
-/

namespace Lox

namespace Token

/-- The tokens of joined sources. -/
theorem tokens_scan_append {first second : String}
    (h : (scan first).diagnostics = []) :
    (scan (first ++ "\n" ++ second)).tokens =
      (scan first).tokens ++
        (scan second).tokens.map (Token.relabel (.down (scan first).endLine)) := by
  rw [scan_append h]
  simp only [Scan.tokens, List.filterMap_append, List.filterMap_map,
    List.map_filterMap]
  congr 2
  funext item
  cases item <;> rfl

/-- Joined sources without faults have no faults. -/
theorem diagnostics_scan_append {first second : String}
    (h : (scan first).diagnostics = []) (h' : (scan second).diagnostics = []) :
    (scan (first ++ "\n" ++ second)).diagnostics = [] := by
  rw [← Scan.isClean_iff] at h' ⊢
  have hclean := (Scan.isClean_iff _).2 h
  rw [scan_append h]
  intro item hitem
  rcases List.mem_append.1 hitem with hitem | hitem
  · exact hclean item hitem
  · obtain ⟨item', hmem, rfl⟩ := List.mem_map.1 hitem
    have := h' item' hmem
    cases item' with
    | token t => rfl
    | fault line cause => cases this

end Token

namespace Session

/-! ## Labels of a session -/

/-- What became of a source, with other labels. -/
def Result.relabel (ρ : Labeling) : Result → Result
  | failed f => failed (f.relabel ρ)
  | value v => value (v.relabel ρ)
  | result => result

/-- The session with other labels in its store. -/
def relabel (ρ : Labeling) (s : Session) : Session :=
  { s with store := s.store.relabel ρ }

theorem resultOf_relabel (ρ : Labeling) (m : Machine) :
    resultOf (m.relabel ρ) = (resultOf m).relabel ρ := by
  obtain ⟨control, stack, st⟩ := m
  cases stack with
  | cons pending stack => cases control <;> rfl
  | nil =>
    cases control with
    | completed c =>
      simp only [resultOf, Machine.relabel, Machine.Control.relabel,
        List.map_nil, Machine.outcome?, Machine.State.relabel]
      split <;> rfl
    | _ => rfl

/-- A run does not see lines. -/
theorem agrees_noLines {s : Session} (h : s.Settled) (now : Float) :
    (s.setting now).Agrees .noLines (s.setting now) :=
  ⟨rfl, rfl, rfl, rfl, fun _ => rfl,
    fun i behaviour hi => (h.faithful i behaviour hi).blind⟩

/-- On other lines a program runs in the same way. -/
theorem runAlong_lines {s : Session} (h : s.Settled) (f : Nat → Nat)
    (program : List Stmt) (st : Machine.State) (times : List Float) :
    (Machine.runAlong s.setting times
        (.ofProgram (program.map (Stmt.relabel (.lines f))) st)).relabel
      .noLines =
    (Machine.runAlong s.setting times (.ofProgram program st)).relabel
      .noLines := by
  have hstart : (Machine.ofProgram (program.map (Stmt.relabel (.lines f)))
      st).relabel .noLines = (Machine.ofProgram program st).relabel .noLines := by
    have hprogram : (program.map (Stmt.relabel (.lines f))).map
        (Stmt.relabel .noLines) = program.map (Stmt.relabel .noLines) := by
      rw [List.map_map]
      refine List.map_congr_left fun s _ => ?_
      exact s.relabel_relabel (.lines f) .noLines
    simp only [Machine.ofProgram, Machine.relabel, List.map_cons, List.map_nil,
      Machine.Pending.relabel, hprogram]
  rw [← Machine.runAlong_relabel (agrees_noLines h),
    ← Machine.runAlong_relabel (agrees_noLines h), hstart]

/-! ## Loading joined sources -/

/-- Joined sources are accepted if the halves are, one after the other.  The
session is then the one after the second half, but for what the first half
has done to store and sink. -/
theorem load_join {s t t' s₂ : Session} {first second : String}
    {list list' : List Stmt} (hfirst : s.load first = (t, .ok list))
    (ht' : t' = { t with store := t'.store, sink := t'.sink })
    (hsecond : t'.load second = (s₂, .ok list')) :
    s.load (first ++ "\n" ++ second) =
        ({ s₂ with store := s.store, sink := s.sink },
          .ok (list ++ list'.map (Stmt.relabel
            (.down (Token.scan first).endLine)))) ∧
      s₂.store = t'.store ∧ s₂.sink = t'.sink := by
  obtain ⟨hscan, hreads, hresolve, ht⟩ := load_eq_ok.1 hfirst
  obtain ⟨hscan', hreads', hresolve', hs₂⟩ := load_eq_ok.1 hsecond
  have hnext : t'.nextId = t.nextId := by rw [ht']
  have hdistances : t'.distances =
      (Scope.resolve list s.distances).distances := by
    rw [ht', ht]
  have hs₂' : { s₂ with store := s.store, sink := s.sink } =
      { s with
        nextId := s₂.nextId
        distances := (Scope.resolve list' t'.distances).distances } := by
    rw [hs₂, ht', ht]
  rw [hnext] at hreads'
  -- The whole is resolved like the second half behind the first one.
  have hjoined : Scope.resolve (list ++ list'.map (Stmt.relabel
        (.down (Token.scan first).endLine))) s.distances =
      ⟨(Scope.resolve list' t'.distances).distances, []⟩ := by
    rw [Scope.resolve_append hresolve, ← hdistances, Labeling.down,
      Scope.resolve_lines, hresolve']
    rfl
  refine ⟨load_eq_ok.2 ⟨?_, ?_, ?_, ?_⟩, by rw [hs₂], by rw [hs₂]⟩
  · exact Token.diagnostics_scan_append hscan hscan'
  · rw [Token.tokens_scan_append hscan]
    exact hreads.append (hreads'.relabel (Labeling.steps_lines _ _))
  · rw [hjoined]
  · rw [hjoined, hs₂']

/-! ## Running joined sources -/

/-- Distances of later code have no part in the run of earlier code. -/
theorem runAlong_later {s s' : Session} (h : s.Settled) (h' : s'.Settled)
    (hsetting : s'.maxDepth = s.maxDepth ∧ s'.natives = s.natives)
    (hfind : ∀ id, id < s.nextId →
      s'.distances.find? id = s.distances.find? id) {m : Machine}
    (hm : ∀ ρ : Labeling, ρ.Beyond s.nextId → m.relabel ρ = m)
    (times : List Float) :
    Machine.runAlong s'.setting times m = Machine.runAlong s.setting times m := by
  -- Free ids are moved to where neither session has distances.
  let ρ : Labeling :=
    ⟨fun id => if id < s.nextId then id else id + s'.nextId, fun line => line⟩
  have hρ : ρ.Beyond s.nextId := by
    refine ⟨fun _ => rfl, fun id hid => if_pos hid, ?_⟩
    intro id hid
    have hmoved : ρ.id id = id + s'.nextId := if_neg (Nat.not_lt.2 hid)
    omega
  have hagrees (now : Float) : (s.setting now).Agrees ρ (s'.setting now) := by
    refine ⟨hsetting.1, hsetting.2, rfl, rfl, ?_,
      fun i behaviour hi => (h.faithful i behaviour hi).blind⟩
    intro id
    by_cases hid : id < s.nextId
    · rw [hρ.below id hid]
      exact hfind id hid
    · have hmoved : ρ.id id = id + s'.nextId := if_neg hid
      rw [hmoved]
      exact (h'.distances _ (Nat.le_add_left _ _)).trans
        (h.distances id (Nat.not_lt.1 hid)).symm
  have hrun := Machine.runAlong_relabel hagrees times m
  rw [← Machine.runAlong_relabel (h.agrees hρ), hm ρ hρ] at hrun
  exact hrun

/-- A source that ran to its end was accepted. -/
theorem load_of_completed {s s' : Session} {source : String}
    {times : List Float} {answer : Answer}
    (h : s.runWith (driveAlong times) source = (s', answer))
    (hresult : answer.result = .completed) :
    ∃ s₁ program, s.load source = (s₁, .ok program) := by
  cases hload : s.load source with
  | mk s₁ loaded =>
    cases loaded with
    | ok program => exact ⟨s₁, program, rfl⟩
    | error diagnostics =>
      simp only [runWith, hload] at h
      have hanswer : reject diagnostics = answer := congrArg Prod.snd h
      rw [← hanswer] at hresult
      cases hresult

theorem outcome?_of_resultOf {m : Machine} (h : resultOf m = .completed) :
    m.outcome? = some .completed := by
  unfold resultOf at h
  split at h
  · cases h
  · cases h
  · next houtcome => exact houtcome
  · cases h

/-- An accepted program that runs to its end is back at the globals, and in
every later session it leads to the same state, from which more can follow. -/
theorem runAlong_completed {s t u : Session} {source : String}
    {list : List Stmt} {times : List Float}
    (hload : s.load source = (t, .ok list)) (ht : t.Settled) (hu : u.Settled)
    (hsetting : u.maxDepth = t.maxDepth ∧ u.natives = t.natives)
    (hfind : ∀ id, id < t.nextId →
      u.distances.find? id = t.distances.find? id)
    (hresult : resultOf (Machine.runAlong t.setting times
      (.ofProgram list t.start)) = .completed) :
    ∃ n st, n ≤ times.length ∧ st.frame = globals ∧ st.depth = 0 ∧
      Machine.runAlong t.setting times (.ofProgram list t.start) =
        ⟨.completed .normal, [], st⟩ ∧
      ∀ more, Machine.runAlong u.setting (times.take n)
        (.ofProgram (list ++ more) t.start) = .ofProgram more st := by
  obtain ⟨-, hreads, hresolve, -⟩ := load_eq_ok.1 hload
  have hids : ∀ id ∈ Stmt.idsAll list, id < t.nextId :=
    fun id hid => (hreads.fresh.range id hid).2
  have hlater := runAlong_later ht hu hsetting hfind
    (fun ρ hρ => ht.ofProgram hids hρ) times
  have hend := outcome?_of_resultOf hresult
  rw [← hlater] at hend ⊢
  have horderly : Machine.Orderly globals 0
      ⟨.completed .normal, [] ++ [.program list], t.start⟩ :=
    ⟨⟨rfl, rfl, .inr (Scope.returnFree_of_accepted hresolve), trivial⟩,
      .inr trivial⟩
  exact Machine.runAlong_program horderly hend

/-! ## The two ways to run -/

/-- What is printed by a program that ran to its end and by one that runs
after it is printed in two parts. -/
theorem textFrom_runAlong {setting setting' : Float → Machine.Setting}
    {list list' : List Stmt} {st st' : Machine.State} {times : List Float}
    (h : Machine.runAlong setting times (.ofProgram list st) =
      ⟨.completed .normal, [], st'⟩) (hreliable : st.sink.Reliable)
    (times' : List Float) :
    let last := (Machine.runAlong setting' times' (.ofProgram list' st')).state
    last.sink.textFrom st.sink.accepted.size =
      st'.sink.textFrom st.sink.accepted.size ++
        last.sink.textFrom st'.sink.accepted.size := by
  intro last
  have hprinted : ∃ text, (Machine.runAlong setting times
      (.ofProgram list st)).state.sink = st.sink.after text :=
    Machine.sink_runAlong hreliable times
  rw [h] at hprinted
  obtain ⟨text, htext⟩ : ∃ text, st'.sink = st.sink.after text := hprinted
  have hreliable' : st'.sink.Reliable := by
    rw [htext]
    exact hreliable.after text
  obtain ⟨text', htext'⟩ : ∃ text', last.sink = st'.sink.after text' :=
    Machine.sink_runAlong hreliable' times'
  rw [htext', Sink.textFrom_after, htext, Sink.textFrom_after,
    Sink.after_after, Sink.textFrom_after]

/-- Machines that are the same up to lines finish in the same way. -/
theorem finish_noLines {s s' : Session} {m m' : Machine}
    (h : m.relabel .noLines = m'.relabel .noLines)
    (hs : s' = { s with store := s'.store, sink := s'.sink }) :
    (s.finish m).2.result.relabel .noLines =
        (s'.finish m').2.result.relabel .noLines ∧
      (s.finish m).1.relabel .noLines = (s'.finish m').1.relabel .noLines := by
  have hresult := congrArg resultOf h
  rw [resultOf_relabel, resultOf_relabel] at hresult
  have hstore : m.state.store.relabel .noLines =
      m'.state.store.relabel .noLines :=
    congrArg (fun m => m.state.store) h
  have hsink : m.state.sink = m'.state.sink :=
    congrArg (fun m => m.state.sink) h
  refine ⟨hresult, ?_⟩
  rw [hs]
  simp only [finish, relabel, hstore, hsink]

/-- Two sources run one after the other, and their joining run at once, come
to the same.  If the first runs to its end and the second is accepted after
it, then the joining is accepted, and from some number of steps on, those of
the first run, it does step by step what the second run does: it has printed
what both have, has the same result up to lines, and leaves the same session
up to the lines in its functions. -/
theorem runWith_join {program : List Stmt} {s s₁ s₂ : Session}
    {first second : String} {times : List Float} {answer : Answer}
    {list : List Stmt} (hs : Reached program s) (hsink : s.sink.Reliable)
    (hfirst : s.runWith (driveAlong times) first = (s₁, answer))
    (hcompleted : answer.result = .completed)
    (hsecond : s₁.load second = (s₂, .ok list)) :
    (∃ s' list', s.load (first ++ "\n" ++ second) = (s', .ok list')) ∧
    ∃ n, n ≤ times.length ∧ ∀ times' : List Float,
      let parts := s₁.runWith (driveAlong times') second
      let whole := s.runWith (driveAlong (times.take n ++ times'))
        (first ++ "\n" ++ second)
      whole.2.output = answer.output ++ parts.2.output ∧
        whole.2.result.relabel .noLines = parts.2.result.relabel .noLines ∧
        whole.1.relabel .noLines = parts.1.relabel .noLines := by
  obtain ⟨t, list₀, hload⟩ := load_of_completed hfirst hcompleted
  obtain ⟨-, -, -, ht⟩ := load_eq_ok.1 hload
  have htsettled : t.Settled := by
    have h := hs.settled.load first
    rwa [hload] at h
  rw [runWith_of_load hload] at hfirst
  obtain ⟨hs₁, hanswer⟩ := Prod.mk.inj hfirst
  have hresult := congrArg Answer.result hanswer
  rw [hcompleted] at hresult
  obtain ⟨hjoin, hstore, hsink₂⟩ := load_join hload (by rw [← hs₁]) hsecond
  refine ⟨⟨_, _, hjoin⟩, ?_⟩
  obtain ⟨-, hreads, -, hs₂⟩ := load_eq_ok.1 hsecond
  -- The session in which the whole runs.
  generalize hu : ({ s₂ with store := s.store, sink := s.sink } : Session) = u
    at hjoin
  have husettled : u.Settled := by
    have h := hs.settled.load (first ++ "\n" ++ second)
    rwa [hjoin] at h
  have hfind (id : Nat) (hid : id < t.nextId) :
      u.distances.find? id = t.distances.find? id := by
    rw [← hs₁] at hreads
    rw [← hu, hs₂, ← hs₁]
    refine Scope.find?_resolve fun hmem => ?_
    exact Nat.not_le.2 hid (hreads.fresh.range id hmem).1
  have hsetting : u.maxDepth = t.maxDepth ∧ u.natives = t.natives := by
    rw [← hu, hs₂, ← hs₁]
    exact ⟨rfl, rfl⟩
  obtain ⟨n, st, hn, hframe, hdepth, hdone, hmore⟩ :=
    runAlong_completed hload htsettled husettled hsetting hfind hresult
  refine ⟨n, hn, fun times' => ?_⟩
  have hustart : u.start = t.start := by
    rw [← hu, ht]
    rfl
  rw [hdone] at hs₁ hanswer
  have hs₂start : s₂.start = st := by
    rw [start, hstore, hsink₂, ← hs₁, ← hframe, ← hdepth]
  have hs₂setting : s₂.setting = u.setting := by
    rw [← hu]
    rfl
  simp only [runWith_of_load hjoin, runWith_of_load hsecond, hs₂start,
    hs₂setting, hustart, Machine.runAlong_append, hmore]
  have hlines := runAlong_lines husettled
    (fun line => line + (Token.scan first).endLine) list st times'
  refine ⟨?_, finish_noLines hlines (by rw [← hu])⟩
  -- What is left is what the two runs print.
  have htsink : t.sink = s.sink := by rw [ht]
  rw [← htsink] at hsink
  have hsame : (Machine.runAlong u.setting times' (.ofProgram (list.map
      (Stmt.relabel (.down (Token.scan first).endLine))) st)).state.sink =
      (Machine.runAlong u.setting times' (.ofProgram list st)).state.sink :=
    congrArg (fun m => m.state.sink) hlines
  have husink : u.sink = t.sink := by rw [← hu, htsink]
  have hs₂sink : s₂.sink = st.sink := by rw [hsink₂, ← hs₁]
  simp only [finish, hsame, husink, hs₂sink, ← hanswer]
  exact textFrom_runAlong hdone hsink times'

/-! ## A sample -/

/-- The statements of `var a = "x";`. -/
def sampleFirst : List Stmt :=
  [.var ⟨"a", 1⟩ (some (.literal (.string "x")))]

/-- The statements of two lines, `print a;` and `print b;`. -/
def sampleSecond : List Stmt :=
  [.print (.variable ⟨0, "a", 1⟩), .print (.variable ⟨1, "b", 2⟩)]

theorem load_sampleFirst {s : Session} (hn : s.nextId = 0) :
    s.load "var a = \"x\";" =
      ({ s with
          nextId := 0
          distances := (Scope.resolve sampleFirst s.distances).distances },
        .ok sampleFirst) := by
  refine load_eq_ok.2 ⟨by decide +kernel, ?_, ?_, rfl⟩
  · have htokens : (Token.scan "var a = \"x\";").tokens =
        [] ++ [⟨.keyword .kwVar, 1⟩, ⟨.identifier "a", 1⟩, ⟨.symbol .equal, 1⟩,
          ⟨.string "x", 1⟩, ⟨.symbol .semicolon, 1⟩] := by
      with_unfolding_all rfl
    rw [htokens, hn]
    exact .snoc .nil (.var (.initialized (.of_call (.literal rfl))))
  · rw [Scope.resolve_eq]
    rfl

theorem load_sampleSecond {s : Session} (hn : s.nextId = 0) :
    s.load "print a;\nprint b;" =
      ({ s with
          nextId := 2
          distances := (Scope.resolve sampleSecond s.distances).distances },
        .ok sampleSecond) := by
  refine load_eq_ok.2 ⟨by decide +kernel, ?_, ?_, rfl⟩
  · have htokens : (Token.scan "print a;\nprint b;").tokens =
        ([] ++ [⟨.keyword .kwPrint, 1⟩, ⟨.identifier "a", 1⟩,
          ⟨.symbol .semicolon, 1⟩]) ++ [⟨.keyword .kwPrint, 2⟩,
            ⟨.identifier "b", 2⟩, ⟨.symbol .semicolon, 2⟩] := by
      with_unfolding_all rfl
    rw [htokens, hn]
    exact .snoc (.snoc .nil (.statement (.print (.intro (.of_call .name)))))
      (.statement (.print (.intro (.of_call .name))))
  · rw [Scope.resolve_eq]
    rfl

/-- The second source prints the variable of the first and then fails. -/
theorem runWith_join_sample :
    let s := Session.new 8 .unlimited
    let one := s.runWith (driveAlong [0, 0, 0, 0, 0]) "var a = \"x\";"
    one.2.result = .completed ∧
    (∃ t, one.1.load "print a;\nprint b;" = (t, .ok sampleSecond)) ∧
    (∃ s' list', s.load ("var a = \"x\";" ++ "\n" ++ "print a;\nprint b;") =
      (s', .ok list')) ∧
    ∃ n, n ≤ 5 ∧ ∀ times' : List Float,
      let parts := one.1.runWith (driveAlong times') "print a;\nprint b;"
      let whole := s.runWith (driveAlong (List.take n [0, 0, 0, 0, 0] ++ times'))
        ("var a = \"x\";" ++ "\n" ++ "print a;\nprint b;")
      whole.2.output = one.2.output ++ parts.2.output ∧
        whole.2.result.relabel .noLines = parts.2.result.relabel .noLines ∧
        whole.1.relabel .noLines = parts.1.relabel .noLines := by
  intro s one
  have hone : one = _ :=
    runWith_of_load (load_sampleFirst (s := s) rfl) [0, 0, 0, 0, 0]
  have hcompleted : one.2.result = .completed := by
    rw [hone]
    rfl
  have hnext : one.1.nextId = 0 := by
    rw [hone]
    rfl
  have hsink : s.sink.Reliable := ⟨fun _ _ => Nat.le_refl _, rfl⟩
  exact ⟨hcompleted, ⟨_, load_sampleSecond hnext⟩,
    runWith_join (.new 8 .unlimited) hsink rfl hcompleted
      (load_sampleSecond hnext)⟩

end Session

end Lox
