import Lox.Proofs.Stmt.Labels

/-!
# What has been read stays read

A source that is read without a fault is read in the same way in front of more
tokens, unless these start with an `else` that its last statement takes.  The
tokens behind it are read as if they were all there is: no fault in them, and no
recovery from one, reaches back (`parse_append`).
-/

namespace Lox

/-- A source that consists of the tokens. -/
def Token.Scan.ofTokens (tokens : List Token) (endLine : Nat) : Token.Scan :=
  ⟨tokens.map .token, endLine⟩

@[simp] theorem Token.Scan.tokens_ofTokens (tokens : List Token) (endLine : Nat) :
    (Token.Scan.ofTokens tokens endLine).tokens = tokens := by
  rw [Token.Scan.tokens, ofTokens, List.filterMap_map]
  exact List.filterMap_some

namespace Stmt

/-! ## Earlier declarations -/

/-- The open lists, with the program going on from earlier declarations, newest
first. -/
def Nest.behind (earlier : List Stmt) : Nest → Nest
  | .program done => .program (done ++ earlier)
  | .block done frames outer => .block done frames (outer.behind earlier)
  | .body owner header done outer =>
    .body owner header done (outer.behind earlier)

/-- The step, with the program going on from earlier declarations. -/
def Step.behind (earlier : List Stmt) : Step → Step
  | .next control frames nest c => .next control frames (nest.behind earlier) c
  | .done statements c => .done (earlier.reverse ++ statements) c

section

variable (earlier : List Stmt)

theorem add_behind (s : Stmt) (nest : Nest) :
    (nest.behind earlier).add s = (nest.add s).behind earlier := by
  cases nest <;> rfl

theorem andThen_behind {α : Type} (p : Reader α) (nest : Nest) (c : Cursor)
    {go go' : α → Cursor → Step}
    (hgo : ∀ a c, go' a c = (go a c).behind earlier) :
    Step.andThen p (nest.behind earlier) c go' =
      (Step.andThen p nest c go).behind earlier := by
  unfold Step.andThen
  cases p c with
  | ok a c' => exact hgo a c'
  | error d c' => rfl

theorem readItem_behind (nest : Nest) (c : Cursor) :
    readItem (nest.behind earlier) c = (readItem nest c).behind earlier := by
  unfold readItem
  split
  · cases nest with
    | program done =>
      simp only [Nest.behind, endList, Step.behind, List.reverse_append]
    | block | body => rfl
  · split
    · cases nest with
      | program | block => rfl
      | body owner => cases owner <;> rfl
    · rfl

theorem readDeclaration_behind (frames : List Frame) (nest : Nest) (c : Cursor) :
    readDeclaration frames (nest.behind earlier) c =
      (readDeclaration frames nest c).behind earlier := by
  unfold readDeclaration
  split
  · exact andThen_behind earlier _ nest _ fun _ _ => rfl
  · exact andThen_behind earlier _ nest _ fun _ _ => rfl
  · exact andThen_behind earlier _ nest _ fun _ _ => rfl
  · rfl

theorem readStatement_behind (frames : List Frame) (nest : Nest) (c : Cursor) :
    readStatement frames (nest.behind earlier) c =
      (readStatement frames nest c).behind earlier := by
  unfold readStatement
  split
  · exact andThen_behind earlier _ nest _ fun _ _ => rfl
  · exact andThen_behind earlier _ nest _ fun _ _ => rfl
  · exact andThen_behind earlier _ nest _ fun _ _ => rfl
  · exact andThen_behind earlier _ nest _ fun _ _ => rfl
  · rfl
  · exact andThen_behind earlier _ nest _ fun _ _ => rfl
  · exact andThen_behind earlier _ nest _ fun _ _ => rfl

theorem readMember_behind (head : ClassHead) (members : List FunctionDecl)
    (nest : Nest) (c : Cursor) :
    readMember head members (nest.behind earlier) c =
      (readMember head members nest c).behind earlier := by
  unfold readMember
  split
  · rfl
  · rfl
  · exact andThen_behind earlier _ nest _ fun _ _ => rfl
  · exact andThen_behind earlier _ nest _ fun _ _ => rfl

theorem resume_behind (s : Stmt) (frames : List Frame) (nest : Nest)
    (c : Cursor) :
    resume s frames (nest.behind earlier) c =
      (resume s frames nest c).behind earlier := by
  unfold resume
  split
  · rw [add_behind]
    rfl
  · split <;> rfl
  · rfl
  · rfl
  · rfl

theorem step_behind (control : Control) (frames : List Frame) (nest : Nest)
    (c : Cursor) :
    step control frames (nest.behind earlier) c =
      (step control frames nest c).behind earlier := by
  cases control with
  | items => exact readItem_behind earlier nest c
  | declaration => exact readDeclaration_behind earlier frames nest c
  | statement => exact readStatement_behind earlier frames nest c
  | members head members => exact readMember_behind earlier head members nest c
  | built s => exact resume_behind earlier s frames nest c

/-- Earlier declarations only come out in front. -/
theorem readFrom_behind (control : Control) (frames : List Frame) (nest : Nest)
    (c : Cursor) :
    readFrom control frames (nest.behind earlier) c =
      (earlier.reverse ++ (readFrom control frames nest c).1,
        (readFrom control frames nest c).2) := by
  fun_induction readFrom control frames nest c with
  | case1 control frames nest c control' frames' nest' c' hstep ih =>
    have hbehind := step_behind earlier control frames nest c
    rw [hstep] at hbehind
    rw [readFrom_next hbehind, ih]
  | case2 control frames nest c statements c' hstep =>
    have hbehind := step_behind earlier control frames nest c
    rw [hstep] at hbehind
    rw [readFrom_done hbehind]

end

/-! ## Ids counted from elsewhere -/

/-- Moves all ids up. -/
def moveIds (k : Nat) : Labeling :=
  ⟨fun id => id + k, fun line => line⟩

theorem relabel_moveIds_noIds (k : Nat) (list : List Stmt) :
    (list.map (Stmt.relabel (moveIds k))).map (Stmt.relabel .noIds) =
      list.map (Stmt.relabel .noIds) := by
  rw [List.map_map]
  exact List.map_congr_left fun s _ => s.relabel_relabel (moveIds k) .noIds

/-- From which id the ids are counted is seen in the ids only. -/
theorem parse_moveIds (scan : Token.Scan) (firstId : Nat) :
    (parse scan firstId).statements.map (Stmt.relabel .noIds) =
        (parse scan 0).statements.map (Stmt.relabel .noIds) ∧
      (parse scan firstId).diagnostics = (parse scan 0).diagnostics := by
  have hsteps : (moveIds firstId).Steps 0 := fun id _ => Nat.add_right_comm id 1 _
  have htokens : scan.tokens = scan.tokens.map (Token.relabel (moveIds firstId)) :=
    (List.map_id _).symm
  have hdiagnostics (d : Diagnostic) : d.relabel (moveIds firstId) = d :=
    d.relabel_eq_self fun _ => rfl
  have hparse := parse_relabel hsteps htokens rfl 0
  have hid : (moveIds firstId).id 0 = firstId := Nat.zero_add firstId
  rw [hid] at hparse
  rw [hparse]
  exact ⟨relabel_moveIds_noIds firstId _, List.map_id'' hdiagnostics _⟩

/-! ## Sources behind one another -/

variable {p q : List Token} {pEnd : Nat}

/-- The ids that are left by the first source are used for the second one. -/
theorem parse_append_of_reads {n n' : Nat} {list : List Stmt}
    (hp : Reads n (.declarations list) p n') (hq : ¬ elseComes q)
    (endLine : Nat) :
    parse (.ofTokens (p ++ q) endLine) n =
      ⟨list ++ (parse (.ofTokens q endLine) n').statements,
        (parse (.ofTokens q endLine) n').diagnostics,
        (parse (.ofTokens q endLine) n').nextId⟩ := by
  have hrun := runs_of_reads hp (.program []) q endLine [] hq
  have hbehind := readFrom_behind list.reverse .items [] (.program [])
    ⟨q, endLine, n', []⟩
  rw [Nest.addAll_program, List.append_nil] at hrun
  rw [Nest.behind, List.nil_append, List.reverse_reverse, ← hrun] at hbehind
  have hstart (tokens : List Token) (firstId : Nat) :
      Cursor.start (.ofTokens tokens endLine) firstId =
        ⟨tokens, endLine, firstId, []⟩ := by
    rw [Cursor.start, Token.Scan.tokens_ofTokens]
    rfl
  simp only [parse, hstart, hbehind]

/-- What parsed is not affected by what follows.  If the first tokens alone are
read without a fault and the others do not begin with `else`, then both
together are read as the statements of the first and those of the others, with
the diagnostics of the others alone, in which there may be any faults.  The
others then have the ids that the first left.  With ids counted from wherever
one likes, statements are the same up to ids and diagnostics are the same. -/
theorem parse_append {n : Nat}
    (hp : (parse (.ofTokens p pEnd) n).diagnostics = []) (hq : ¬ elseComes q)
    (endLine : Nat) :
    (let first := parse (.ofTokens p pEnd) n
      let others := parse (.ofTokens q endLine) first.nextId
      parse (.ofTokens (p ++ q) endLine) n =
        ⟨first.statements ++ others.statements, others.diagnostics,
          others.nextId⟩) ∧
    ∀ i j k : Nat,
      (parse (.ofTokens (p ++ q) endLine) i).statements.map
          (Stmt.relabel .noIds) =
        (parse (.ofTokens p pEnd) j).statements.map (Stmt.relabel .noIds) ++
          (parse (.ofTokens q endLine) k).statements.map
            (Stmt.relabel .noIds) ∧
      (parse (.ofTokens (p ++ q) endLine) i).diagnostics =
        (parse (.ofTokens q endLine) k).diagnostics := by
  have hreads := reads_of_parse hp
  rw [Token.Scan.tokens_ofTokens] at hreads
  have hboth := parse_append_of_reads hreads hq endLine
  refine ⟨hboth, fun i j k => ?_⟩
  have hwhole := parse_moveIds (.ofTokens (p ++ q) endLine)
  have hfirst := parse_moveIds (.ofTokens p pEnd)
  have hothers := parse_moveIds (.ofTokens q endLine)
  constructor
  · rw [(hwhole i).1, ← (hwhole n).1, hboth, List.map_append, (hothers _).1,
      (hfirst j).1, ← (hfirst n).1, (hothers k).1]
  · rw [(hwhole i).2, ← (hwhole n).2, hboth]
    simp only
    rw [(hothers _).2, (hothers k).2]

/-- An empty block. -/
def sampleBraces : List Token :=
  [⟨.symbol .leftBrace, 1⟩, ⟨.symbol .rightBrace, 1⟩]

/-- A semicolon that is no statement. -/
def sampleSemicolon : List Token :=
  [⟨.symbol .semicolon, 2⟩]

/-- A block stays read in front of a semicolon that is a fault. -/
theorem parse_append_sample :
    (parse (.ofTokens sampleBraces 1) 0).diagnostics = [] ∧
      ¬ elseComes sampleSemicolon ∧
      (parse (.ofTokens (sampleBraces ++ sampleSemicolon) 2) 0).diagnostics =
        (parse (.ofTokens sampleSemicolon 2) 0).diagnostics := by
  have hreads : Reads 0 (.declarations ([] ++ [.block []])) sampleBraces 0 :=
    .snoc .nil (.statement (.block .nil))
  have hp : (parse (.ofTokens sampleBraces 1) 0).diagnostics = [] := by
    rw [show parse (.ofTokens sampleBraces 1) 0 = _ from parse_of_reads hreads]
  have hq : ¬ elseComes sampleSemicolon := not_elseComes_symbol _ _ _
  exact ⟨hp, hq, ((parse_append hp hq 2).2 0 0 0).2⟩

end Stmt

end Lox
