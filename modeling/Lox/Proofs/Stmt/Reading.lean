import Lox.Proofs.Stmt.Phrase

/-!
# Reading a program follows the phrases

The reader of programs is a machine, and `Stmt.Reads` knows nothing of its
stack.  The two agree.  What the relation allows the machine reads, from any
stack and in front of anything that cannot be read as a part of it
(`runs_of_reads`).  In the other direction `Opened` gives an account of the
tokens that led to a stack; every step that notes no fault keeps the account
(`keeps_step`), so a run without a fault ends with the account of a whole
program (`parse_eq_iff`).
-/

namespace Lox.Stmt

/-! ## What is allowed is read -/

theorem readFrom_next {control control' : Control}
    {frames frames' : List Frame} {nest nest' : Nest} {c c' : Cursor}
    (h : step control frames nest c = .next control' frames' nest' c') :
    readFrom control frames nest c = readFrom control' frames' nest' c' := by
  rw [readFrom]
  split
  · next h' => rw [h] at h'; cases h'; rfl
  · next h' => rw [h] at h'; cases h'

theorem readFrom_done {control : Control} {frames : List Frame} {nest : Nest}
    {c c' : Cursor} {statements : List Stmt}
    (h : step control frames nest c = .done statements c') :
    readFrom control frames nest c = (statements, c') := by
  rw [readFrom]
  split
  · next h' => rw [h] at h'; cases h'
  · next h' => rw [h] at h'; cases h'; rfl

theorem andThen_run {α : Type} {p : Reader α}
    {R : Nat → α → List Token → Nat → Prop} (hp : p.Follows R) {n n' : Nat}
    {a : α} {w : List Token} (h : R n a w n') (nest : Nest)
    (go : α → Cursor → Step) (rest : List Token) (endLine : Nat)
    (noted : List Diagnostic) :
    Step.andThen p nest ⟨w ++ rest, endLine, n, noted⟩ go =
      go a ⟨rest, endLine, n', noted⟩ := by
  unfold Step.andThen
  rw [hp.run h rest endLine noted]

/-- Adding declarations to the innermost list, one after another. -/
def Nest.addAll (nest : Nest) (list : List Stmt) : Nest :=
  list.foldl (fun nest s => nest.add s) nest

theorem Nest.addAll_append_singleton (nest : Nest) (list : List Stmt)
    (s : Stmt) : nest.addAll (list ++ [s]) = (nest.addAll list).add s := by
  simp [Nest.addAll]

theorem Nest.addAll_program (done list : List Stmt) :
    (Nest.program done).addAll list = .program (list.reverse ++ done) := by
  induction list generalizing done with
  | nil => rfl
  | cons s list ih =>
    rw [List.reverse_cons, List.append_assoc]
    exact ih (s :: done)

theorem Nest.addAll_block (done : List Stmt) (frames : List Frame)
    (outer : Nest) (list : List Stmt) :
    (Nest.block done frames outer).addAll list =
      .block (list.reverse ++ done) frames outer := by
  induction list generalizing done with
  | nil => rfl
  | cons s list ih =>
    rw [List.reverse_cons, List.append_assoc]
    exact ih (s :: done)

theorem Nest.addAll_body (owner : Owner) (header : Header) (done : List Stmt)
    (outer : Nest) (list : List Stmt) :
    (Nest.body owner header done outer).addAll list =
      .body owner header (list.reverse ++ done) outer := by
  induction list generalizing done with
  | nil => rfl
  | cons s list ih =>
    rw [List.reverse_cons, List.append_assoc]
    exact ih (s :: done)

/-- The machine reads the phrase from the tokens, whatever is open and
whatever comes behind, as long as it is no `else` for an open statement. -/
def Phrase.Runs (n : Nat) (w : List Token) (n' : Nat) : Phrase → Prop
  | .declarations list => ∀ nest rest endLine noted, ¬ elseComes rest →
    readFrom .items [] nest ⟨w ++ rest, endLine, n, noted⟩ =
      readFrom .items [] (nest.addAll list) ⟨rest, endLine, n', noted⟩
  | .declaration o s => ∀ nest rest endLine noted,
    (o = true → ¬ elseComes rest) →
    readFrom .declaration [] nest ⟨w ++ rest, endLine, n, noted⟩ =
      readFrom (.built s) [] nest ⟨rest, endLine, n', noted⟩
  | .statement o s => ∀ frames nest rest endLine noted,
    (o = true → ¬ elseComes rest) →
    readFrom .statement frames nest ⟨w ++ rest, endLine, n, noted⟩ =
      readFrom (.built s) frames nest ⟨rest, endLine, n', noted⟩
  | .members list => ∀ head earlier nest rest endLine noted,
    readFrom (.members head earlier) [] nest ⟨w ++ rest, endLine, n, noted⟩ =
      readFrom (.members head (list.reverse ++ earlier)) [] nest
        ⟨rest, endLine, n', noted⟩

section

variable {frames : List Frame} {nest : Nest} {rest : List Token}
  {endLine n : Nat} {noted : List Diagnostic}

/-- A list that is read up to its closing brace is closed there. -/
theorem readFrom_closeList {list : List Stmt} {w : List Token} {n' l : Nat}
    (h : (Phrase.declarations list).Runs n w n') :
    readFrom .items [] nest
        ⟨w ++ ⟨.symbol .rightBrace, l⟩ :: rest, endLine, n, noted⟩ =
      readFrom .items [] (nest.addAll list)
        ⟨⟨.symbol .rightBrace, l⟩ :: rest, endLine, n', noted⟩ :=
  h nest _ endLine noted (not_elseComes_symbol _ _ _)

theorem readStatement_expression {t : Token}
    (h : Expr.startsExpr t.kind = true) :
    readStatement frames nest ⟨t :: rest, endLine, n, noted⟩ =
      Step.andThen readExpression nest ⟨t :: rest, endLine, n, noted⟩ fun s c =>
        .next (.built s) frames nest c := by
  unfold readStatement
  split
  · next heq => cases heq; cases h
  · next heq => cases heq; cases h
  · next heq => cases heq; cases h
  · next heq => cases heq; cases h
  · next heq => cases heq; cases h
  · next heq => cases heq; cases h
  · rfl

/-- A token that starts a declaration does not close the list. -/
theorem readItem_declaration {t : Token}
    (h : startsDeclaration t.kind = true) :
    readItem nest ⟨t :: rest, endLine, n, noted⟩ =
      .next .declaration [] nest ⟨t :: rest, endLine, n, noted⟩ := by
  simp [readItem, isRightBrace_of_starts h]

theorem readDeclaration_statement {t : Token}
    (h : startsPlain t.kind = true) :
    readDeclaration frames nest ⟨t :: rest, endLine, n, noted⟩ =
      .next .statement frames nest ⟨t :: rest, endLine, n, noted⟩ := by
  unfold readDeclaration
  split
  · next heq => cases heq; cases h
  · next heq => cases heq; cases h
  · next heq => cases heq; cases h
  · rfl

/-- A token that starts a member's name is neither a brace nor `class`. -/
theorem readMember_header {head : ClassHead} {earlier : List FunctionDecl}
    {header : Header} {w : List Token} (h : ReadsMemberHeader header w) :
    readMember head earlier nest ⟨w ++ rest, endLine, n, noted⟩ =
      .next .items [] (.body (.member head earlier) header [] nest)
        ⟨rest, endLine, n, noted⟩ := by
  cases h with
  | static h =>
    exact andThen_run (follows_readHeader _) ⟨h, rfl⟩ ..
  | method h =>
    have hrun : Step.andThen (readHeader .method) nest
          ⟨w ++ rest, endLine, n, noted⟩ (fun header c =>
            .next .items [] (.body (.member head earlier) header [] nest) c) =
        .next .items [] (.body (.member head earlier) header [] nest)
          ⟨rest, endLine, n, noted⟩ :=
      andThen_run (follows_readHeader _) ⟨h, rfl⟩ ..
    cases h <;> exact hrun

theorem resume_thenBranch {condition : Expr} {s : Stmt}
    (h : ¬ elseComes rest) :
    resume s (.thenBranch condition :: frames) nest ⟨rest, endLine, n, noted⟩ =
      .next (.built (.ifElse condition s none)) frames nest
        ⟨rest, endLine, n, noted⟩ := by
  simp only [resume]
  split
  · exact absurd ⟨_, _, rfl⟩ h
  · rfl

end

/-- What the relation allows, the machine reads. -/
theorem runs_of_reads {n n' : Nat} {phrase : Phrase} {w : List Token}
    (h : Reads n phrase w n') : phrase.Runs n w n' := by
  induction h with
  | nil => exact fun _ _ _ _ _ => rfl
  | snoc earlier last ihearlier ihlast =>
    intro nest rest endLine noted hrest
    obtain ⟨t, w', rfl, ht⟩ := last.starts
    rw [List.append_assoc, Nest.addAll_append_singleton]
    refine Eq.trans (ihearlier nest _ endLine noted
      (not_elseComes_of_starts ht)) ?_
    refine Eq.trans (readFrom_next (readItem_declaration ht)) ?_
    exact Eq.trans (ihlast _ rest endLine noted (fun _ => hrest))
      (readFrom_next rfl)
  | statement inner ih =>
    intro nest rest endLine noted hrest
    obtain ⟨t, w', rfl, ht⟩ := inner.starts
    exact Eq.trans (readFrom_next (readDeclaration_statement ht))
      (ih [] nest rest endLine noted hrest)
  | var h =>
    intro nest rest endLine noted hrest
    exact readFrom_next (andThen_run follows_readVar h ..)
  | function head body ih =>
    intro nest rest endLine noted hrest
    simp only [List.cons_append, List.append_assoc, List.nil_append]
    refine Eq.trans (readFrom_next
      (andThen_run (follows_readHeader _) ⟨head, rfl⟩ ..)) ?_
    refine Eq.trans (readFrom_closeList ih) ?_
    rw [Nest.addAll_body, readFrom_next rfl, List.append_nil,
      List.reverse_reverse]
    rfl
  | «class» h members ih =>
    intro nest rest endLine noted hrest
    simp only [List.cons_append, List.append_assoc, List.nil_append]
    refine Eq.trans (readFrom_next (andThen_run follows_readClassHead h ..)) ?_
    refine Eq.trans (ih _ _ nest _ endLine noted) ?_
    rw [readFrom_next rfl, List.append_nil, List.reverse_reverse]
    rfl
  | noMember => exact fun _ _ _ _ _ _ => rfl
  | member earlier head inner ihearlier ihinner =>
    intro head' earlier' nest rest endLine noted
    simp only [List.append_assoc]
    refine Eq.trans (ihearlier _ _ nest _ endLine noted) ?_
    refine Eq.trans (readFrom_next (readMember_header head)) ?_
    refine Eq.trans (readFrom_closeList ihinner) ?_
    rw [Nest.addAll_body, readFrom_next rfl, List.append_nil,
      List.reverse_reverse, List.reverse_append]
    rfl
  | expression h =>
    intro frames nest rest endLine noted hrest
    obtain ⟨t, w', rfl, ht⟩ := h.head
    refine readFrom_next (Eq.trans (readStatement_expression ht) ?_)
    exact andThen_run follows_readExpression h ..
  | print h =>
    intro frames nest rest endLine noted hrest
    exact readFrom_next (andThen_run follows_readPrint h ..)
  | «return» h =>
    intro frames nest rest endLine noted hrest
    exact readFrom_next (andThen_run (follows_readReturn _) h ..)
  | block body ih =>
    intro frames nest rest endLine noted hrest
    simp only [List.cons_append, List.append_assoc, List.nil_append]
    refine Eq.trans (readFrom_next rfl) ?_
    refine Eq.trans (readFrom_closeList ih) ?_
    rw [Nest.addAll_block, readFrom_next rfl, List.append_nil,
      List.reverse_reverse]
    rfl
  | ifThen h thenBranch ih =>
    intro frames nest rest endLine noted hrest
    simp only [List.cons_append, List.append_assoc]
    refine Eq.trans (readFrom_next
      (andThen_run (follows_readCondition _ _) h ..)) ?_
    refine Eq.trans (ih _ nest rest endLine noted (fun _ => hrest rfl)) ?_
    exact readFrom_next (resume_thenBranch (hrest rfl))
  | ifElse h thenBranch elseBranch ihthen ihelse =>
    intro frames nest rest endLine noted hrest
    simp only [List.cons_append, List.append_assoc]
    refine Eq.trans (readFrom_next
      (andThen_run (follows_readCondition _ _) h ..)) ?_
    refine Eq.trans (ihthen _ nest _ endLine noted (fun h => by cases h)) ?_
    refine Eq.trans (readFrom_next rfl) ?_
    exact Eq.trans (ihelse _ nest rest endLine noted hrest) (readFrom_next rfl)
  | «while» h body ih =>
    intro frames nest rest endLine noted hrest
    simp only [List.cons_append, List.append_assoc]
    refine Eq.trans (readFrom_next
      (andThen_run (follows_readCondition _ _) h ..)) ?_
    exact Eq.trans (ih _ nest rest endLine noted hrest) (readFrom_next rfl)
  | «for» h body ih =>
    intro frames nest rest endLine noted hrest
    simp only [List.cons_append, List.append_assoc]
    refine Eq.trans (readFrom_next
      (andThen_run follows_readForClauses h ..)) ?_
    exact Eq.trans (ih _ nest rest endLine noted hrest) (readFrom_next rfl)

/-- A source that holds declarations is read as them, without a fault. -/
theorem parse_of_reads {scan : Token.Scan} {firstId n' : Nat}
    {list : List Stmt} (h : Reads firstId (.declarations list) scan.tokens n') :
    parse scan firstId = ⟨list, [], n'⟩ := by
  have hrun : readFrom .items [] (.program [])
        ⟨scan.tokens ++ [], scan.endLine, firstId, []⟩ =
      (list, ⟨[], scan.endLine, n', []⟩) := by
    refine Eq.trans (runs_of_reads h (.program []) [] scan.endLine []
      (by rintro ⟨l, rest, heq⟩; cases heq)) ?_
    rw [Nest.addAll_program, readFrom_done rfl, List.append_nil,
      List.reverse_reverse]
  rw [List.append_nil] at hrun
  have hstart : Cursor.start scan firstId =
    ⟨scan.tokens, scan.endLine, firstId, []⟩ := rfl
  unfold parse
  rw [hstart, hrun]
  rfl

/-! ## What is read without a fault is allowed -/

/-- What the innermost construct waits for: a statement if one is open,
otherwise a declaration for the innermost list. -/
def awaits (frames : List Frame) (o : Bool) (s : Stmt) : Phrase :=
  match frames with
  | [] => .declaration o s
  | _ :: _ => .statement o s

theorem reads_awaits {n n' : Nat} {o : Bool} {s : Stmt} {w : List Token}
    (h : Reads n (.statement o s) w n') (frames : List Frame) :
    Reads n (awaits frames o s) w n' := by
  cases frames with
  | nil => exact .statement h
  | cons frame frames => exact h

/-- The tokens that have been read when the frames and lists are open. -/
inductive Opened (n : Nat) : List Frame → Nest → List Token → Nat → Prop where
  | program {done w n'} (read : Reads n (.declarations done.reverse) w n') :
      Opened n [] (.program done) w n'
  | block {done frames nest w n' w' n'' l} (outer : Opened n frames nest w n')
      (read : Reads n' (.declarations done.reverse) w' n'') :
      Opened n [] (.block done frames nest)
        (w ++ ⟨.symbol .leftBrace, l⟩ :: w') n''
  | function {header done nest w n' w₁ w₂ n'' l}
      (outer : Opened n [] nest w n') (head : ReadsHeader .function header w₁)
      (read : Reads n' (.declarations done.reverse) w₂ n'') :
      Opened n [] (.body .function header done nest)
        (w ++ ⟨.keyword .kwFun, l⟩ :: (w₁ ++ w₂)) n''
  | member {head earlier header done nest w n₀ w₀ n₁ w₁ n₂ w₂ w₃ n₃ l}
      (outer : Opened n [] nest w n₀) (h : ReadsClassHead n₀ head w₀ n₁)
      (before : Reads n₁ (.members earlier.reverse) w₁ n₂)
      (own : ReadsMemberHeader header w₂)
      (read : Reads n₂ (.declarations done.reverse) w₃ n₃) :
      Opened n [] (.body (.member head earlier) header done nest)
        (w ++ ⟨.keyword .kwClass, l⟩ :: (w₀ ++ (w₁ ++ (w₂ ++ w₃)))) n₃
  | thenBranch {condition frames nest w n' w' n'' l}
      (outer : Opened n frames nest w n')
      (h : ReadsCondition n' condition w' n'') :
      Opened n (.thenBranch condition :: frames) nest
        (w ++ ⟨.keyword .kwIf, l⟩ :: w') n''
  | elseBranch {condition s frames nest w n₀ w₁ n₁ w₂ n₂ l l'}
      (outer : Opened n frames nest w n₀)
      (h : ReadsCondition n₀ condition w₁ n₁)
      (read : Reads n₁ (.statement false s) w₂ n₂) :
      Opened n (.elseBranch condition s :: frames) nest
        (w ++ ⟨.keyword .kwIf, l⟩ ::
          (w₁ ++ (w₂ ++ [⟨.keyword .kwElse, l'⟩]))) n₂
  | whileBody {condition frames nest w n' w' n'' l}
      (outer : Opened n frames nest w n')
      (h : ReadsCondition n' condition w' n'') :
      Opened n (.whileBody condition :: frames) nest
        (w ++ ⟨.keyword .kwWhile, l⟩ :: w') n''
  | forBody {clauses frames nest w n' w' n'' l}
      (outer : Opened n frames nest w n')
      (h : ReadsForClauses n' clauses w' n'') :
      Opened n (.forBody clauses :: frames) nest
        (w ++ ⟨.keyword .kwFor, l⟩ :: w') n''

/-- What has been read when the machine is about to do something.  A
statement that is just built and still open is not followed by an `else`. -/
inductive Progress (n : Nat) :
    Control → List Frame → Nest → List Token → Nat → List Token → Prop where
  | items {nest w n' rest} (outer : Opened n [] nest w n') :
      Progress n .items [] nest w n' rest
  | declaration {nest w n' rest} (outer : Opened n [] nest w n') :
      Progress n .declaration [] nest w n' rest
  | statement {frames nest w n' rest} (outer : Opened n frames nest w n') :
      Progress n .statement frames nest w n' rest
  | members {head earlier nest w n₀ w₀ n₁ w₁ n₂ l rest}
      (outer : Opened n [] nest w n₀) (h : ReadsClassHead n₀ head w₀ n₁)
      (before : Reads n₁ (.members earlier.reverse) w₁ n₂) :
      Progress n (.members head earlier) [] nest
        (w ++ ⟨.keyword .kwClass, l⟩ :: (w₀ ++ w₁)) n₂ rest
  | built {s frames nest w n' o w' n'' rest} (outer : Opened n frames nest w n')
      (read : Reads n' (awaits frames o s) w' n'')
      (behind : o = true → ¬ elseComes rest) :
      Progress n (.built s) frames nest (w ++ w') n'' rest

/-- If the step notes no fault, none was noted before, and what has been read
is still accounted for. -/
def Step.Keeps (control : Control) (frames : List Frame) (nest : Nest)
    (c : Cursor) : Step → Prop
  | .next control' frames' nest' c' => c'.noted = [] →
    c.noted = [] ∧ ∃ w', c.rest = w' ++ c'.rest ∧
      ∀ n w, Progress n control frames nest w c.nextId c.rest →
        Progress n control' frames' nest' (w ++ w') c'.nextId c'.rest
  | .done statements c' => c'.noted = [] →
    c.noted = [] ∧ c.rest = [] ∧
      ∀ n w, Progress n control frames nest w c.nextId c.rest →
        Reads n (.declarations statements) w c'.nextId

section

variable {control : Control} {frames : List Frame} {nest : Nest} {c : Cursor}

theorem keeps_recover (d : Diagnostic) (nest' : Nest) (c' : Cursor) :
    (recover d nest' c').Keeps control frames nest c := by
  intro h
  cases h

/-- Reading a part behind some tokens keeps the account if the part does. -/
theorem keeps_andThen {α : Type} {p : Reader α}
    {R : Nat → α → List Token → Nat → Prop} (hp : p.Follows R)
    {control' : α → Control} {frames' : α → List Frame} {nest' : α → Nest}
    (lead : List Token) {rest : List Token} (hrest : c.rest = lead ++ rest)
    (outer : Nest)
    (h : ∀ n w a w' n' rest', R c.nextId a w' n' →
      Progress n control frames nest w c.nextId c.rest →
      Progress n (control' a) (frames' a) (nest' a) (w ++ (lead ++ w')) n'
        rest') :
    (Step.andThen p outer (c.moveTo rest) fun a c =>
      .next (control' a) (frames' a) (nest' a) c).Keeps control frames nest c := by
  unfold Step.andThen
  split
  · next a c' hread =>
    intro hnoted
    obtain ⟨hnoted', w', hw', hR⟩ := hp.inv hread hnoted
    refine ⟨hnoted', lead ++ w', ?_, fun n w hprogress =>
      h n w a w' c'.nextId c'.rest hR hprogress⟩
    rw [Cursor.rest_moveTo] at hw'
    rw [hrest, hw', List.append_assoc]
  · exact keeps_recover _ _ _

/-- A step that reads nothing keeps the account if the controls do. -/
theorem keeps_next {control' : Control} {frames' : List Frame} {nest' : Nest}
    (h : ∀ n w, Progress n control frames nest w c.nextId c.rest →
      Progress n control' frames' nest' w c.nextId c.rest) :
    (Step.next control' frames' nest' c).Keeps control frames nest c := by
  intro hnoted
  refine ⟨hnoted, [], rfl, fun n w hprogress => ?_⟩
  rw [List.append_nil]
  exact h n w hprogress

theorem keeps_readDeclaration :
    (readDeclaration frames nest c).Keeps .declaration frames nest c := by
  unfold readDeclaration
  split
  · next l rest hrest =>
    refine keeps_andThen follows_readClassHead [_] hrest nest ?_
    intro n w head w' n' rest' hhead hprogress
    cases hprogress with
    | declaration outer =>
      have hprogress : Progress n (.members head []) [] nest
          (w ++ ⟨.keyword .kwClass, l⟩ :: (w' ++ [])) n' rest' :=
        .members outer hhead .noMember
      rw [List.append_nil] at hprogress
      exact hprogress
  · next l rest hrest =>
    refine keeps_andThen (follows_readHeader .function) [_] hrest nest ?_
    rintro n w header w' n' rest' ⟨hheader, rfl⟩ hprogress
    cases hprogress with
    | declaration outer =>
      have hopened : Opened n [] (.body .function header [] nest)
          (w ++ ⟨.keyword .kwFun, l⟩ :: (w' ++ [])) c.nextId :=
        .function outer hheader .nil
      rw [List.append_nil] at hopened
      exact .items hopened
  · next l rest hrest =>
    refine keeps_andThen follows_readVar [_] hrest nest ?_
    intro n w s w' n' rest' hvar hprogress
    cases hprogress with
    | declaration outer => exact .built outer (.var hvar) (by simp)
  · refine keeps_next ?_
    intro n w hprogress
    cases hprogress with
    | declaration outer => exact .statement outer

theorem keeps_readStatement :
    (readStatement frames nest c).Keeps .statement frames nest c := by
  -- A statement without statements inside is built at once.
  have hbuilt : ∀ {n w s w' n' rest'}, Reads c.nextId (.statement false s) w' n' →
      Progress n .statement frames nest w c.nextId c.rest →
      Progress n (.built s) frames nest (w ++ w') n' rest' := by
    intro n w s w' n' rest' hread hprogress
    cases hprogress with
    | statement outer => exact .built outer (reads_awaits hread _) (by simp)
  unfold readStatement
  split
  · next l rest hrest =>
    refine keeps_andThen follows_readForClauses [_] hrest nest ?_
    intro n w clauses w' n' rest' hclauses hprogress
    cases hprogress with
    | statement outer => exact .statement (.forBody outer hclauses)
  · next l rest hrest =>
    refine keeps_andThen (follows_readCondition _ _) [_] hrest nest ?_
    intro n w condition w' n' rest' hcondition hprogress
    cases hprogress with
    | statement outer => exact .statement (.thenBranch outer hcondition)
  · next l rest hrest =>
    refine keeps_andThen (follows_readCondition _ _) [_] hrest nest ?_
    intro n w condition w' n' rest' hcondition hprogress
    cases hprogress with
    | statement outer => exact .statement (.whileBody outer hcondition)
  · next l rest hrest =>
    refine keeps_andThen (follows_readReturn _) [_] hrest nest ?_
    intro n w s w' n' rest' hreturn hprogress
    exact hbuilt (.return hreturn) hprogress
  · next l rest hrest =>
    intro hnoted
    refine ⟨hnoted, [⟨.symbol .leftBrace, l⟩], hrest, ?_⟩
    intro n w hprogress
    cases hprogress with
    | statement outer => exact .items (.block outer .nil)
  · next l rest hrest =>
    refine keeps_andThen follows_readPrint [_] hrest nest ?_
    intro n w s w' n' rest' hprint hprogress
    exact hbuilt (.print hprint) hprogress
  · have hrest : c.rest = [] ++ c.rest := rfl
    refine keeps_andThen follows_readExpression [] hrest nest ?_
    intro n w s w' n' rest' hexpression hprogress
    exact hbuilt (.expression hexpression) hprogress

theorem keeps_readMember {head : ClassHead} {earlier : List FunctionDecl} :
    (readMember head earlier nest c).Keeps (.members head earlier) frames nest
      c := by
  -- The header of a member opens its body.
  have hopen : ∀ {n w header w' rest'}, ReadsMemberHeader header w' →
      Progress n (.members head earlier) frames nest w c.nextId c.rest →
      Progress n .items [] (.body (.member head earlier) header [] nest)
        (w ++ w') c.nextId rest' := by
    intro n w header w' rest' hheader hprogress
    cases hprogress with
    | @members _ _ _ w _ w₀ _ w₁ _ l _ outer hhead before =>
      have hopened : Opened n [] (.body (.member head earlier) header [] nest)
          (w ++ ⟨.keyword .kwClass, l⟩ :: (w₀ ++ (w₁ ++ (w' ++ [])))) c.nextId :=
        .member outer hhead before hheader .nil
      simp only [List.append_nil] at hopened
      simp only [List.append_assoc, List.cons_append]
      exact .items hopened
  unfold readMember
  split
  · exact keeps_recover _ _ _
  · next l rest hrest =>
    intro hnoted
    refine ⟨hnoted, [⟨.symbol .rightBrace, l⟩], hrest, ?_⟩
    intro n w hprogress
    cases hprogress with
    | @members _ _ _ w _ w₀ _ w₁ _ l _ outer hhead before =>
      simp only [List.append_assoc, List.cons_append]
      exact .built outer (.class hhead before) (by simp)
  · next l rest hrest =>
    refine keeps_andThen (follows_readHeader .static) [_] hrest nest ?_
    rintro n w header w' n' rest' ⟨hheader, rfl⟩ hprogress
    exact hopen (.static hheader) hprogress
  · have hrest : c.rest = [] ++ c.rest := rfl
    refine keeps_andThen (follows_readHeader .method) [] hrest nest ?_
    rintro n w header w' n' rest' ⟨hheader, rfl⟩ hprogress
    exact hopen (.method hheader) hprogress

/-- Adding a declaration to the innermost list. -/
theorem Opened.add {n n' n'' : Nat} {w w' : List Token} {o : Bool} {s : Stmt}
    (outer : Opened n [] nest w n') (h : Reads n' (.declaration o s) w' n'') :
    Opened n [] (nest.add s) (w ++ w') n'' := by
  cases outer with
  | program read =>
    refine .program ?_
    rw [List.reverse_cons]
    exact .snoc read h
  | block outer read =>
    rw [List.append_assoc, List.cons_append]
    refine .block outer ?_
    rw [List.reverse_cons]
    exact .snoc read h
  | function outer head read =>
    simp only [List.append_assoc, List.cons_append]
    refine .function outer head ?_
    rw [List.reverse_cons]
    exact .snoc read h
  | member outer hhead before own read =>
    simp only [List.append_assoc, List.cons_append]
    refine .member outer hhead before own ?_
    rw [List.reverse_cons]
    exact .snoc read h

theorem keeps_resume {s : Stmt} :
    (resume s frames nest c).Keeps (.built s) frames nest c := by
  unfold resume
  split
  · refine keeps_next ?_
    intro n w hprogress
    cases hprogress with
    | built outer read behind => exact .items (outer.add read)
  · split
    · next l rest hrest =>
      intro hnoted
      refine ⟨hnoted, [⟨.keyword .kwElse, l⟩], hrest, ?_⟩
      intro n w hprogress
      cases hprogress with
      | @built _ _ _ _ _ o _ _ _ outer read behind =>
        cases outer with
        | thenBranch outer hcondition =>
          -- An `else` follows, so the branch before it is not open.
          cases o with
          | true => exact absurd ⟨l, rest, hrest⟩ (behind rfl)
          | false =>
            simp only [List.append_assoc, List.cons_append]
            exact .statement (.elseBranch outer hcondition read)
    · next hrest =>
      refine keeps_next ?_
      intro n w hprogress
      cases hprogress with
      | built outer read behind =>
        cases outer with
        | thenBranch outer hcondition =>
          rw [List.append_assoc, List.cons_append]
          refine .built outer (reads_awaits (.ifThen hcondition read) _) ?_
          rintro - ⟨l, rest, heq⟩
          exact hrest _ _ heq
  · refine keeps_next ?_
    intro n w hprogress
    cases hprogress with
    | built outer read behind =>
      cases outer with
      | elseBranch outer hcondition thenBranch =>
        simp only [List.append_assoc, List.cons_append, List.nil_append]
        exact .built outer
          (reads_awaits (.ifElse hcondition thenBranch read) _) behind
  · refine keeps_next ?_
    intro n w hprogress
    cases hprogress with
    | built outer read behind =>
      cases outer with
      | whileBody outer hcondition =>
        rw [List.append_assoc, List.cons_append]
        exact .built outer (reads_awaits (.while hcondition read) _) behind
  · refine keeps_next ?_
    intro n w hprogress
    cases hprogress with
    | built outer read behind =>
      cases outer with
      | forBody outer hclauses =>
        rw [List.append_assoc, List.cons_append]
        exact .built outer (reads_awaits (.for hclauses read) _) behind

theorem keeps_readItem :
    (readItem nest c).Keeps .items frames nest c := by
  unfold readItem
  split
  · next hrest =>
    unfold endList
    split
    · intro hnoted
      refine ⟨hnoted, hrest, ?_⟩
      intro n w hprogress
      cases hprogress with
      | items outer =>
        cases outer with
        | program read => exact read
    · exact keeps_recover _ _ _
    · exact keeps_recover _ _ _
  · next t rest hrest =>
    split
    · next hbrace =>
      obtain ⟨l, rfl⟩ : ∃ l, t = ⟨.symbol .rightBrace, l⟩ := by
        rcases t with ⟨kind, l⟩
        unfold isRightBrace at hbrace
        split at hbrace
        · next heq =>
          simp only at heq
          exact ⟨l, by rw [heq]⟩
        · cases hbrace
      cases nest with
      | program done =>
        refine keeps_next ?_
        intro n w hprogress
        cases hprogress with
        | items outer => exact .declaration outer
      | block done frames' outer' =>
        intro hnoted
        refine ⟨hnoted, [⟨.symbol .rightBrace, l⟩], hrest, ?_⟩
        intro n w hprogress
        cases hprogress with
        | items outer =>
          cases outer with
          | block outer read =>
            simp only [List.append_assoc, List.cons_append]
            exact .built outer (reads_awaits (.block read) _) (by simp)
      | body owner header done outer' =>
        cases owner with
        | function =>
          intro hnoted
          refine ⟨hnoted, [⟨.symbol .rightBrace, l⟩], hrest, ?_⟩
          intro n w hprogress
          cases hprogress with
          | items outer =>
            cases outer with
            | function outer head read =>
              simp only [List.append_assoc, List.cons_append]
              exact .built outer (.function head read) (by simp)
        | member head earlier =>
          intro hnoted
          refine ⟨hnoted, [⟨.symbol .rightBrace, l⟩], hrest, ?_⟩
          intro n w hprogress
          cases hprogress with
          | items outer =>
            cases outer with
            | member outer hhead before own read =>
              simp only [List.append_assoc, List.cons_append]
              refine .members outer hhead ?_
              rw [List.reverse_cons]
              exact .member before own read
    · refine keeps_next ?_
      intro n w hprogress
      cases hprogress with
      | items outer => exact .declaration outer

/-- Every step without a fault keeps the account of what has been read. -/
theorem keeps_step (control : Control) (frames : List Frame) (nest : Nest)
    (c : Cursor) :
    (step control frames nest c).Keeps control frames nest c := by
  cases control with
  | items => exact keeps_readItem
  | declaration => exact keeps_readDeclaration
  | statement => exact keeps_readStatement
  | members head earlier => exact keeps_readMember
  | built s => exact keeps_resume

end

/-- A run that ends without a fault has read a program. -/
theorem reads_of_readFrom {control : Control} {frames : List Frame}
    {nest : Nest} {c c' : Cursor} {statements : List Stmt}
    (h : readFrom control frames nest c = (statements, c'))
    (hnoted : c'.noted = []) :
    c.noted = [] ∧ ∀ n w, Progress n control frames nest w c.nextId c.rest →
      Reads n (.declarations statements) (w ++ c.rest) c'.nextId := by
  fun_induction readFrom control frames nest c with
  | case1 control frames nest c control' frames' nest' c₁ hstep ih =>
    obtain ⟨hnoted₁, hreads⟩ := ih h
    have hkeeps := keeps_step control frames nest c
    rw [hstep] at hkeeps
    obtain ⟨hnoted', w', hrest, hprogress⟩ := hkeeps hnoted₁
    refine ⟨hnoted', fun n w hw => ?_⟩
    have := hreads n (w ++ w') (hprogress n w hw)
    rw [hrest, ← List.append_assoc]
    exact this
  | case2 control frames nest c statements' c₁ hstep =>
    cases h
    have hkeeps := keeps_step control frames nest c
    rw [hstep] at hkeeps
    obtain ⟨hnoted', hrest, hreads⟩ := hkeeps hnoted
    refine ⟨hnoted', fun n w hw => ?_⟩
    have := hreads n w hw
    rw [hrest, List.append_nil]
    exact this

/-- A source is read without a fault exactly as the declarations it holds. -/
theorem parse_eq_iff {scan : Token.Scan} {firstId n' : Nat}
    {list : List Stmt} :
    parse scan firstId = ⟨list, [], n'⟩ ↔
      Reads firstId (.declarations list) scan.tokens n' := by
  refine ⟨fun h => ?_, parse_of_reads⟩
  unfold parse at h
  cases hread : readFrom .items [] (.program []) (.start scan firstId) with
  | mk statements c =>
    rw [hread] at h
    simp only [Parsed.mk.injEq, Cursor.diagnostics, List.reverse_eq_nil_iff] at h
    obtain ⟨rfl, hnoted, rfl⟩ := h
    obtain ⟨-, hreads⟩ := reads_of_readFrom hread hnoted
    exact hreads firstId [] (.items (.program .nil))

/-- Without diagnostics the statements are those that the source holds. -/
theorem reads_of_parse {scan : Token.Scan} {firstId : Nat}
    (h : (parse scan firstId).diagnostics = []) :
    Reads firstId (.declarations (parse scan firstId).statements) scan.tokens
      (parse scan firstId).nextId := by
  refine parse_eq_iff.1 ?_
  rw [← h]

end Lox.Stmt
