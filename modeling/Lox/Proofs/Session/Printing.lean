import Lox.Proofs.Machine.Balance
import Lox.Proofs.Scope.Addressing
import Lox.Proofs.Session.Joining

/-!
# Evaluating and printing

An expression can be evaluated on its own, without the scope rules, or in a
program that prints it, with them.  Both come to the same (`runWith_print`).
The text of the expression is cut into the same tokens behind `print` and in
front of a line end; they are read as the same tree with the same ids; the
scope rules record nothing outside of all scopes; and the machine of the
program evaluates the expression on top of what waits for its value.
-/

namespace Lox

/-! ## The text -/

namespace Token

/-- A source behind `print` has the same items behind that keyword. -/
theorem scan_print (source : String) :
    scan ("print " ++ source) =
      ⟨.token ⟨.keyword .kwPrint, 1⟩ :: (scan source).items,
        (scan source).endLine⟩ := by
  have htext : ("print " ++ source).toList =
      'p' :: (['r', 'i', 'n', 't'] ++ ' ' :: source.toList) := by
    simp
  have hstop : isNamePart ' ' = false := by decide
  have hitem : itemAt 'p' (['r', 'i', 'n', 't'] ++ ' ' :: source.toList) 1 =
      ⟨.token ⟨.keyword .kwPrint, 1⟩, ' ' :: source.toList, 1⟩ := by
    show wordFrom 'p' _ 1 = _
    rw [wordFrom, takeWhile_append_of_stop hstop, dropWhile_append_of_stop hstop]
    rfl
  unfold scan
  rw [htext, scanFrom, if_neg (by decide), if_neg (by decide), if_neg (by simp),
    hitem, scanFrom, if_neg (by decide), if_pos (by decide), scanFrom_found]
  rfl

end Token

namespace Session

/-- The text of the program that prints the value of an expression. -/
def printing (source : String) : String :=
  "print " ++ source ++ "\n;"

theorem printing_eq (source : String) :
    printing source = "print " ++ source ++ "\n" ++ ";" := by
  rw [String.append_assoc]
  rfl

theorem diagnostics_scan_printing {source : String}
    (h : (Token.scan source).diagnostics = []) :
    (Token.scan (printing source)).diagnostics = [] := by
  rw [printing_eq]
  refine Token.diagnostics_scan_append ?_ (by decide +kernel)
  rw [Token.scan_print]
  exact h

theorem tokens_scan_printing {source : String}
    (h : (Token.scan source).diagnostics = []) :
    ∃ line, (Token.scan (printing source)).tokens =
      ⟨.keyword .kwPrint, 1⟩ ::
        ((Token.scan source).tokens ++ [⟨.symbol .semicolon, line⟩]) := by
  have hfirst : (Token.scan ("print " ++ source)).diagnostics = [] := by
    rw [Token.scan_print]
    exact h
  have hlast : (Token.scan ";").tokens = [⟨.symbol .semicolon, 1⟩] := by
    with_unfolding_all rfl
  refine ⟨1 + (Token.scan source).endLine, ?_⟩
  rw [printing_eq, Token.tokens_scan_append hfirst, Token.scan_print, hlast]
  rfl

end Session

/-! ## The scopes -/

/-- The expression is `this` or `super`. -/
def Expr.isSelf : Expr → Bool
  | .this _ _ => true
  | .super _ _ _ => true
  | _ => false

namespace Scope

/-- Outside of all scopes an expression without `this` and `super` breaks no
rule and no distance is recorded for it. -/
theorem walkExpr_outside {e : Expr} (h : ∀ part ∈ e.parts, part.isSelf = false)
    {st : State} (hst : st.scopes = []) : walkExpr e st = st := by
  have hbind (id : Nat) (name : String) : st.bind id name = st := by
    simp [State.bind, State.distance?, hst]
  induction e with
  | literal => rfl
  | group inner ih | unary op line inner ih | get inner name ih =>
    exact ih fun part hpart => h part (by simp [Expr.parts, hpart])
  | binary left op line right ihleft ihright
  | logical left op line right ihleft ihright =>
    rw [walkExpr, ihleft fun part hpart => h part (by simp [Expr.parts, hpart]),
      ihright fun part hpart => h part (by simp [Expr.parts, hpart])]
  | occurrence ref =>
    simp only [walkExpr, State.read, State.isOpen, hst, State.reportIf]
    exact hbind ref.id ref.name
  | assign target value ih =>
    rw [walkExpr, ih fun part hpart => h part (by simp [Expr.parts, hpart])]
    exact hbind target.id target.name
  | call callee line arguments ihcallee iharguments =>
    have hall (list : List Expr) (hlist : ∀ a ∈ list, walkExpr a st = st) :
        walkExprs list st = st := by
      induction list with
      | nil => rfl
      | cons a list ih =>
        obtain ⟨ha, hlist⟩ := List.forall_mem_cons.1 hlist
        rw [walkExprs, ha, ih hlist]
    rw [walkExpr, ihcallee fun part hpart => h part (by simp [Expr.parts, hpart])]
    refine hall arguments fun a ha => iharguments a ha fun part hpart => ?_
    have hmem := Expr.mem_partsAll.2 ⟨a, ha, hpart⟩
    exact h part (by simp [Expr.parts, hmem])
  | set object name value ihobject ihvalue =>
    rw [walkExpr, ihvalue fun part hpart => h part (by simp [Expr.parts, hpart]),
      ihobject fun part hpart => h part (by simp [Expr.parts, hpart])]
  | this id line => cases h _ (Expr.mem_parts_self _)
  | super id line method => cases h _ (Expr.mem_parts_self _)

theorem resolve_print {e : Expr} (h : ∀ part ∈ e.parts, part.isSelf = false)
    (distances : Distances) : resolve [.print e] distances = ⟨distances, []⟩ := by
  rw [resolve_eq, walkStmts, walkStmt, walkExpr_outside h rfl]
  rfl

end Scope

namespace Session

/-- The program that prints an expression is accepted if the expression is,
with the same tree and the same session. -/
theorem load_printing {s s' : Session} {source : String} {e : Expr}
    (h : s.loadExpr source = (s', .ok e))
    (hself : ∀ part ∈ e.parts, part.isSelf = false) :
    s.load (printing source) = (s', .ok [.print e]) := by
  obtain ⟨hscan, hreads, hs'⟩ := loadExpr_eq_ok.1 h
  obtain ⟨line, htokens⟩ := tokens_scan_printing hscan
  have hresolve := Scope.resolve_print hself s.distances
  refine load_eq_ok.2 ⟨diagnostics_scan_printing hscan, ?_, ?_, ?_⟩
  · rw [htokens]
    exact .snoc .nil (.statement (.print (.intro hreads)))
  · rw [hresolve]
  · rw [hresolve]
    exact hs'

theorem evalWith_of_loadExpr {s s' : Session} {source : String} {e : Expr}
    (h : s.loadExpr source = (s', .ok e)) (times : List Float) :
    s.evalWith (driveAlong times) source =
      s'.finish (Machine.runAlong s'.setting times (.ofExpr e s'.start)) := by
  simp only [evalWith, h]
  rfl

end Session

/-! ## The run -/

namespace Machine

variable {setting : Float → Setting}

/-- What waits for an expression in the program that prints its value. -/
def printer : List Pending :=
  [.print, .program []]

theorem outcome?_onTop_printer (m : Machine) :
    (m.onTop printer).outcome? = none := by
  by_contra h
  obtain ⟨hstack, -⟩ := eq_nil_of_outcome?_ne h
  exact List.cons_ne_nil _ _ (List.append_eq_nil_iff.1 hstack).2

/-- The program that prints an expression first evaluates it. -/
theorem runAlong_ofProgram_print (t t' : Float) (times : List Float) (e : Expr)
    (st : State) :
    runAlong setting (t :: t' :: times) (.ofProgram [.print e] st) =
      runAlong setting times ((ofExpr e st).onTop printer) :=
  rfl

/-- The printer does two more steps and has then halted. -/
theorem runAlong_printer {m last : Machine}
    (hsteps : ∀ t t', runAlong setting [t, t'] m = last)
    (hlast : last.halted = true) (rest : List Float) (t t' : Float) :
    runAlong setting (rest ++ [t, t']) m = last := by
  match rest with
  | [] => exact hsteps t t'
  | [a] =>
    have hsplit : [a] ++ [t, t'] = [a, t] ++ [t'] := rfl
    rw [hsplit, runAlong_append, hsteps, runAlong_of_halted hlast]
  | a :: b :: rest =>
    have hsplit : a :: b :: rest ++ [t, t'] = [a, b] ++ (rest ++ [t, t']) := rfl
    rw [hsplit, runAlong_append, hsteps, runAlong_of_halted hlast]

/-- The printer prints a value. -/
theorem runAlong_printer_value (v : Value) {st : State} (h : st.sink.Reliable)
    (rest : List Float) (t t' : Float) :
    runAlong setting (rest ++ [t, t']) ⟨.value v, printer, st⟩ =
      ⟨.completed .normal, [],
        { st with sink := st.sink.after (v.display ++ "\n") }⟩ := by
  refine runAlong_printer (fun t t' => ?_) rfl rest t t'
  simp only [runAlong, printer, step, resume, printValue, h.writeLine, complete]

/-- The printer hands on a failure. -/
theorem runAlong_printer_failed (f : Failure) (st : State) (rest : List Float)
    (t t' : Float) :
    runAlong setting (rest ++ [t, t']) ⟨.failed f, printer, st⟩ =
      ⟨.failed f, [], st⟩ := by
  refine runAlong_printer (fun t t' => ?_) rfl rest t t'
  rfl

/-- What becomes of an expression and of the printer that waits for it. -/
theorem runAlong_onTop_printer {limit : Nat}
    (hlimit : ∀ now, (setting now).maxDepth = limit) {e : Expr} {st : State}
    (hdepth : st.depth ≤ limit) (hsink : st.sink.Reliable) (times : List Float)
    (t t' : Float) :
    let m := runAlong setting times (.ofExpr e st)
    let last := fun more =>
      runAlong setting (times ++ more) ((ofExpr e st).onTop printer)
    match m.outcome? with
    | some (.value v) =>
      last [t, t'] = ⟨.completed .normal, [],
        { m.state with sink := m.state.sink.after (v.display ++ "\n") }⟩
    | some (.failed f) => last [t, t'] = ⟨.failed f, [], m.state⟩
    | some .completed => False
    | none => last [] = m.onTop printer := by
  intro m last
  obtain ⟨first, rest, htimes, hcut, htop⟩ :=
    runAlong_cut setting times (.ofExpr e st)
  have hm : m = runAlong setting first (.ofExpr e st) := by
    rcases hcut with rfl | houtcome
    · simp only [m, htimes, List.append_nil]
    · simp only [m, htimes, runAlong_append,
        runAlong_of_halted (halted_of_outcome? houtcome)]
  have hlast (more : List Float) :
      last more = runAlong setting (rest ++ more) (m.onTop printer) := by
    simp only [last, htimes, List.append_assoc, runAlong_append, htop, hm]
  -- The printer waits for a value, so the expression is not a statement.
  have hstart : Balanced limit st.frame st.depth ((ofExpr e st).onTop printer) :=
    ⟨⟨rfl, rfl, hdepth⟩, rfl, rfl, trivial⟩
  have hbalanced := balanced_runAlong hstart hlimit first
  rw [htop, ← hm] at hbalanced
  obtain ⟨text, htext⟩ : ∃ text, m.state.sink = st.sink.after text :=
    sink_runAlong hsink times
  have hreliable : m.state.sink.Reliable := htext ▸ hsink.after text
  cases houtcome : m.outcome? with
  | none =>
    have hrest : rest = [] := by
      rw [← hm] at hcut
      exact hcut.resolve_right (fun h => h houtcome)
    simp only [hlast, hrest]
    rfl
  | some outcome =>
    obtain ⟨control, stack, st'⟩ := m
    obtain ⟨rfl, ⟨v, rfl⟩ | ⟨c, rfl⟩ | ⟨f, rfl⟩⟩ := eq_nil_of_outcome?_ne
      (by rw [houtcome]; exact Option.some_ne_none _)
    · cases houtcome
      rw [hlast]
      exact runAlong_printer_value v hreliable rest t t'
    · cases hbalanced.suits.1
    · cases houtcome
      rw [hlast]
      exact runAlong_printer_failed f st' rest t t'

end Machine

namespace Session

open Machine (runAlong)

/-- Evaluating an expression and running the program that prints it come to
the same, in every session and on every clock.  If the expression has a
value, the program prints what the evaluation did, the value and a line end,
and runs to its end; if it fails, the program prints the same and fails in
the same way; and as long as the one goes on so does the other.  But for what
is printed they leave the same session. -/
theorem runWith_print {s s' : Session} {source : String} {e : Expr}
    (hsink : s.sink.Reliable) (hload : s.loadExpr source = (s', .ok e))
    (hself : ∀ part ∈ e.parts, part.isSelf = false) (t₀ t₁ t₂ t₃ : Float)
    (times : List Float) :
    let eval := s.evalWith (driveAlong times) source
    let run := fun more =>
      s.runWith (driveAlong (t₀ :: t₁ :: times ++ more)) (printing source)
    match eval.2.result with
    | .value v =>
      run [t₂, t₃] =
        ({ eval.1 with sink := eval.1.sink.after (v.display ++ "\n") },
          ⟨eval.2.output ++ (v.display ++ "\n"), .completed⟩)
    | .failed f => run [t₂, t₃] = (eval.1, ⟨eval.2.output, .failed f⟩)
    | .unfinished => run [] = (eval.1, ⟨eval.2.output, .unfinished⟩)
    | .completed | .rejected _ => False := by
  intro eval run
  have heval : eval = _ := evalWith_of_loadExpr hload times
  have hrun (more : List Float) : run more = _ :=
    runWith_of_load (load_printing hload hself) (t₀ :: t₁ :: times ++ more)
  simp only [List.cons_append, Machine.runAlong_ofProgram_print] at hrun
  have hreliable : s'.sink.Reliable := by
    obtain ⟨-, -, hs'⟩ := loadExpr_eq_ok.1 hload
    rw [hs']
    exact hsink
  have hstart : s'.start.depth ≤ s'.maxDepth := Nat.zero_le _
  have hlimit (now : Float) : (s'.setting now).maxDepth = s'.maxDepth := rfl
  have hprinter := Machine.runAlong_onTop_printer hlimit (e := e) hstart hreliable
    times t₂ t₃
  obtain ⟨text, htext⟩ : ∃ text,
      (runAlong s'.setting times (.ofExpr e s'.start)).state.sink =
        s'.sink.after text :=
    Machine.sink_runAlong hreliable times
  generalize runAlong s'.setting times (.ofExpr e s'.start) = m at *
  simp only [heval, finish, resultOf]
  cases houtcome : m.outcome? with
  | none =>
    simp only [houtcome] at hprinter ⊢
    rw [hrun, hprinter]
    simp only [finish, resultOf, Machine.outcome?_onTop_printer]
    rfl
  | some outcome =>
    cases outcome with
    | value v =>
      simp only [houtcome] at hprinter ⊢
      rw [hrun, hprinter]
      have hflush :
          (m.state.sink.after (v.display ++ "\n")).flushFault = none := by
        rw [htext]
        exact hreliable.flush
      simp only [finish, resultOf, Machine.outcome?, hflush]
      rw [htext, Sink.after_after, Sink.textFrom_after, Sink.textFrom_after]
    | completed => simp only [houtcome] at hprinter
    | failed f =>
      simp only [houtcome] at hprinter ⊢
      rw [hrun, hprinter]
      rfl

/-- The expression `"a" + "b"`. -/
def sampleSum : Expr :=
  .binary (.literal (.string "a")) .add 1 (.literal (.string "b"))

theorem tokens_sampleSum :
    (Token.scan "\"a\" + \"b\" // joined").tokens =
      [⟨.string "a", 1⟩] ++ ⟨.symbol .plus, 1⟩ :: [⟨.string "b", 1⟩] := by
  with_unfolding_all rfl

/-- The line end in front of the semicolon ends the comment. -/
theorem runWith_print_sample :
    let s := Session.new 8 .unlimited
    let source := "\"a\" + \"b\" // joined"
    s.sink.Reliable ∧ s.loadExpr source = (s, .ok sampleSum) ∧
      (∀ part ∈ sampleSum.parts, part.isSelf = false) ∧
      (s.runWith (driveAlong [0, 0, 0, 0, 0, 0, 0, 0, 0])
        (printing source)).2 = ⟨"ab\n", .completed⟩ := by
  intro s source
  have hsink : s.sink.Reliable := ⟨fun _ _ => Nat.le_refl _, rfl⟩
  have hload : s.loadExpr source = (s, .ok sampleSum) := by
    refine loadExpr_eq_ok.2 ⟨by decide +kernel, ?_, rfl⟩
    rw [tokens_sampleSum]
    have hsum : Expr.Reads s.nextId (.expr (.rank (.level .term))
          ((Expr.Operator.binary .add).apply (.literal (.string "a")) 1
            (.literal (.string "b"))))
        ([⟨.string "a", 1⟩] ++ ⟨.symbol .plus, 1⟩ :: [⟨.string "b", 1⟩])
        s.nextId :=
      .operator (.level (.level (.operand (.literal rfl)))) rfl
        (.level (.operand (.literal rfl)))
    exact .assignment (.level (.level (.level (.level hsum))))
  have hself : ∀ part ∈ sampleSum.parts, part.isSelf = false := by decide
  have hprint := runWith_print hsink hload hself 0 0 0 0 [0, 0, 0, 0, 0]
  have hvalue : s.evalWith (driveAlong [0, 0, 0, 0, 0]) source =
      (s, ⟨"", .value (.string "ab")⟩) := by
    have hlast : runAlong s.setting [0, 0, 0, 0, 0] (.ofExpr sampleSum s.start) =
        ⟨.value (.string "ab"), [], s.start⟩ := rfl
    have houtput := Sink.textFrom_after s.sink ""
    rw [Sink.after_empty] at houtput
    rw [evalWith_of_loadExpr hload, hlast]
    simp only [finish, start, houtput]
    rfl
  simp only [hvalue] at hprint
  exact ⟨hsink, hload, hself, congrArg Prod.snd hprint⟩

end Session

end Lox
