import Lox.Proofs.Expr.Labels
import Lox.Proofs.Stmt.Reading
import Lox.Proofs.Stmt.Relabel

/-!
# Reading a program does not see labels

A source with other lines, read with ids that are counted from elsewhere, gives
the same statements and the same diagnostics, with their labels changed in the
same way (`parse_relabel`).  Unlike `Reads.relabel` this holds of sources with
faults, too: what is skipped and where reading goes on depends on the kinds of
the tokens alone.
-/

namespace Lox.Stmt

open Reader (Respects respects_accept respects_ahead respects_expect
  respects_acceptKeyword respects_freshId respects_name)

variable {ρ : Labeling}

/-! ## Parts -/

theorem respects_readUnless (hρ : ρ.Steps 0) (s : Symbol) :
    Respects ρ (Option.map (Expr.relabel ρ)) (readUnless s) (readUnless s) :=
  (respects_ahead s).bind fun _ =>
    .ite (.pure rfl) ((Expr.respects_read hρ).bind fun _ => .pure rfl)

theorem respects_readVar (hρ : ρ.Steps 0) :
    Respects ρ (Stmt.relabel ρ) readVar readVar :=
  (respects_name _).bind fun _ =>
    .bind (f := Option.map (Expr.relabel ρ)) ((respects_accept _).bind fun _ =>
      .ite ((Expr.respects_read hρ).bind fun _ => .pure rfl) (.pure rfl))
      fun _ => (respects_expect _ _).bind fun _ =>
        .pure (by simp only [Stmt.relabel])

theorem respects_readExpression (hρ : ρ.Steps 0) :
    Respects ρ (Stmt.relabel ρ) readExpression readExpression :=
  (Expr.respects_read hρ).bind fun _ => (respects_expect _ _).bind fun _ =>
    .pure (by simp only [Stmt.relabel])

theorem respects_readPrint (hρ : ρ.Steps 0) :
    Respects ρ (Stmt.relabel ρ) readPrint readPrint :=
  (Expr.respects_read hρ).bind fun _ => (respects_expect _ _).bind fun _ =>
    .pure (by simp only [Stmt.relabel])

theorem respects_readReturn (hρ : ρ.Steps 0) (line : Nat) :
    Respects ρ (Stmt.relabel ρ) (readReturn line) (readReturn (ρ.line line)) :=
  (respects_readUnless hρ _).bind fun _ => (respects_expect _ _).bind fun _ =>
    .pure (by simp only [Stmt.relabel])

theorem respects_readCondition (hρ : ρ.Steps 0) (opening closing : ParseFault) :
    Respects ρ (Expr.relabel ρ) (readCondition opening closing)
      (readCondition opening closing) :=
  (respects_expect _ _).bind fun _ => (Expr.respects_read hρ).bind fun _ =>
    (respects_expect _ _).bind fun _ => .pure rfl

theorem respects_readForInitializer (hρ : ρ.Steps 0) :
    Respects ρ (Option.map (Stmt.relabel ρ)) readForInitializer
      readForInitializer :=
  (respects_accept _).bind fun _ =>
    .ite (.pure rfl) ((respects_acceptKeyword _).bind fun _ =>
      .ite ((respects_readVar hρ).bind fun _ => .pure rfl)
        ((respects_readExpression hρ).bind fun _ => .pure rfl))

theorem respects_readForClauses (hρ : ρ.Steps 0) :
    Respects ρ (ForClauses.relabel ρ) readForClauses readForClauses :=
  (respects_expect _ _).bind fun _ =>
    (respects_readForInitializer hρ).bind fun _ =>
      (respects_readUnless hρ _).bind fun _ =>
        (respects_expect _ _).bind fun _ =>
          (respects_readUnless hρ _).bind fun _ =>
            (respects_expect _ _).bind fun _ => .pure rfl

theorem readParams_eq (earlier : List Ident) (c : Cursor) :
    readParams earlier c =
      let noted := c.noteIf (maxArity ≤ earlier.length) .tooManyParameters
      match c.rest with
      | ⟨.identifier x, line⟩ :: ⟨.symbol .comma, _⟩ :: rest =>
        readParams (⟨x, line⟩ :: earlier) (noted.moveTo rest)
      | ⟨.identifier x, line⟩ :: rest =>
        .ok (⟨x, line⟩ :: earlier).reverse (noted.moveTo rest)
      | _ => .error (noted.fault .parameterName) noted := by
  rw [readParams]
  split
  · next heq => simp only [heq]
  · next heq => simp only [heq]
  · simp only

theorem readParams_relabel (earlier : List Ident) (c : Cursor) :
    readParams (earlier.map (Ident.relabel ρ)) (c.relabel ρ) =
      Reader.relabelResult ρ (List.map (Ident.relabel ρ))
        (readParams earlier c) := by
  have hnote (earlier : List Ident) (c : Cursor) :
      (c.relabel ρ).noteIf
          (maxArity ≤ (earlier.map (Ident.relabel ρ)).length)
          .tooManyParameters =
        (c.noteIf (maxArity ≤ earlier.length) .tooManyParameters).relabel ρ := by
    rw [List.length_map]
    exact Cursor.noteIf_relabel ρ c _ _
  fun_induction readParams earlier c with
  | case1 earlier c x line l rest hrest ih =>
    obtain ⟨_, endLine, nextId, noted⟩ := c
    subst hrest
    rw [readParams_eq, hnote]
    exact ih
  | case2 earlier c x line rest hno hrest =>
    obtain ⟨_, endLine, nextId, noted⟩ := c
    subst hrest
    rw [readParams_eq, hnote]
    have hlist : (⟨x, ρ.line line⟩ :: earlier.map (Ident.relabel ρ)).reverse =
        (⟨x, line⟩ :: earlier : List Ident).reverse.map (Ident.relabel ρ) := by
      rw [List.map_reverse]
      rfl
    have hresult : Reader.relabelResult ρ (List.map (Ident.relabel ρ))
          (.ok (⟨x, line⟩ :: earlier : List Ident).reverse (Cursor.moveTo
            (Cursor.noteIf ⟨⟨.identifier x, line⟩ :: rest, endLine, nextId, noted⟩
              (maxArity ≤ earlier.length) .tooManyParameters) rest)) =
        .ok (⟨x, ρ.line line⟩ :: earlier.map (Ident.relabel ρ)).reverse
          ((Cursor.noteIf ⟨⟨.identifier x, line⟩ :: rest, endLine, nextId, noted⟩
              (maxArity ≤ earlier.length) .tooManyParameters).relabel ρ |>.moveTo
            (rest.map (Token.relabel ρ))) := by
      rw [Reader.relabelResult, List.map_reverse]
      rfl
    rw [hresult]
    rcases rest with _ | ⟨⟨kind, l⟩, rest⟩
    · rfl
    · cases kind with
      | symbol s =>
        cases s with
        | comma => exact (hno _ _ rfl).elim
        | _ => rfl
      | _ => rfl
  | case3 earlier c after hcomma hname =>
    obtain ⟨rest, endLine, nextId, noted⟩ := c
    rw [readParams_eq, hnote]
    have hresult : Reader.relabelResult ρ (List.map (Ident.relabel ρ))
          (.error (after.fault .parameterName) after) =
        .error ((after.relabel ρ).fault .parameterName) (after.relabel ρ) := by
      rw [Cursor.fault_relabel]
      rfl
    rw [hresult]
    rcases rest with _ | ⟨⟨kind, l⟩, rest⟩
    · rfl
    · cases kind with
      | identifier x => exact (hname _ _ _ rfl).elim
      | _ => rfl

theorem respects_readParamList (routine : Routine) :
    Respects ρ (List.map (Ident.relabel ρ)) (readParamList routine)
      (readParamList routine) :=
  (respects_expect _ _).bind fun _ =>
    .bind (f := List.map (Ident.relabel ρ)) ((respects_ahead _).bind fun _ =>
      .ite (.pure rfl) (readParams_relabel [])) fun _ =>
    (respects_expect _ _).bind fun _ => .pure rfl

theorem respects_readHeader (kind : FunctionKind) :
    Respects ρ (Header.relabel ρ) (readHeader kind) (readHeader kind) :=
  (respects_name _).bind fun _ =>
    .bind (f := Header.relabel ρ) ((respects_ahead _).bind fun _ =>
      .ite (.pure rfl) ((respects_readParamList _).bind fun _ => .pure rfl))
      fun _ => (respects_expect _ _).bind fun _ => .pure rfl

theorem respects_readClassHead (hρ : ρ.Steps 0) :
    Respects ρ (ClassHead.relabel ρ) readClassHead readClassHead :=
  (respects_name _).bind fun _ =>
    .bind (f := Option.map (Ref.relabel ρ)) ((respects_accept _).bind fun _ =>
      .ite ((respects_name _).bind fun _ =>
        (respects_freshId hρ).bind fun _ => .pure rfl) (.pure rfl)) fun _ =>
    (respects_expect _ _).bind fun _ => .pure rfl

/-! ## Recovery -/

theorem skipAfter_relabel (skipped : Token) (tokens : List Token) :
    skipAfter (skipped.relabel ρ) (tokens.map (Token.relabel ρ)) =
      (skipAfter skipped tokens).map (Token.relabel ρ) := by
  induction tokens generalizing skipped with
  | nil => rfl
  | cons t rest ih =>
    have hskipped : (skipped.relabel ρ).kind = skipped.kind := rfl
    have hkind : (t.relabel ρ).kind = t.kind := rfl
    simp only [List.map_cons, skipAfter, hskipped, hkind]
    split
    · rfl
    · exact ih t

theorem synchronize_relabel (tokens : List Token) :
    synchronize (tokens.map (Token.relabel ρ)) =
      (synchronize tokens).map (Token.relabel ρ) := by
  cases tokens with
  | nil => rfl
  | cons t rest => exact skipAfter_relabel t rest

/-! ## The machine -/

/-- The construct with other labels. -/
def Frame.relabel (ρ : Labeling) : Frame → Frame
  | .thenBranch condition => .thenBranch (condition.relabel ρ)
  | .elseBranch condition s => .elseBranch (condition.relabel ρ) (s.relabel ρ)
  | .whileBody condition => .whileBody (condition.relabel ρ)
  | .forBody clauses => .forBody (clauses.relabel ρ)

/-- The owner of a body with other labels. -/
def Owner.relabel (ρ : Labeling) : Owner → Owner
  | .function => .function
  | .member head earlier =>
    .member (head.relabel ρ) (earlier.map (FunctionDecl.relabel ρ))

/-- The open lists with other labels. -/
def Nest.relabel (ρ : Labeling) : Nest → Nest
  | .program done => .program (done.map (Stmt.relabel ρ))
  | .block done frames outer =>
    .block (done.map (Stmt.relabel ρ)) (frames.map (Frame.relabel ρ))
      (outer.relabel ρ)
  | .body owner header done outer =>
    .body (owner.relabel ρ) (header.relabel ρ) (done.map (Stmt.relabel ρ))
      (outer.relabel ρ)

/-- What is done next with other labels. -/
def Control.relabel (ρ : Labeling) : Control → Control
  | .items => .items
  | .declaration => .declaration
  | .statement => .statement
  | .members head earlier =>
    .members (head.relabel ρ) (earlier.map (FunctionDecl.relabel ρ))
  | .built s => .built (s.relabel ρ)

/-- The step with other labels. -/
def Step.relabel (ρ : Labeling) : Step → Step
  | .next control frames nest c =>
    .next (control.relabel ρ) (frames.map (Frame.relabel ρ)) (nest.relabel ρ)
      (c.relabel ρ)
  | .done statements c =>
    .done (statements.map (Stmt.relabel ρ)) (c.relabel ρ)

theorem recover_relabel (d : Diagnostic) (nest : Nest) (c : Cursor) :
    recover (d.relabel ρ) (nest.relabel ρ) (c.relabel ρ) =
      (recover d nest c).relabel ρ := by
  have hrest : (c.relabel ρ).rest = c.rest.map (Token.relabel ρ) := rfl
  simp only [recover, hrest, synchronize_relabel, Cursor.note_relabel,
    Cursor.moveTo_relabel]
  rfl

theorem andThen_relabel {α α' : Type} {f : α → α'} {p : Reader α}
    {p' : Reader α'} (hp : Respects ρ f p p') (nest : Nest) (c : Cursor)
    {g : α → Cursor → Step} {k : α' → Cursor → Step}
    (h : ∀ a c, k (f a) (c.relabel ρ) = (g a c).relabel ρ) :
    Step.andThen p' (nest.relabel ρ) (c.relabel ρ) k =
      (Step.andThen p nest c g).relabel ρ := by
  unfold Step.andThen
  rw [hp c]
  cases p c with
  | ok a c' => exact h a c'
  | error d c' => exact recover_relabel d nest c'

/-- The keyword of a part is behind the cursor. -/
theorem afterKeyword_relabel {α α' : Type} {f : α → α'} {p : Reader α}
    {p' : Reader α'} (hp : Respects ρ f p p') (nest : Nest) (c : Cursor)
    (rest : List Token) {go : α → Cursor → Step} {go' : α' → Cursor → Step}
    (hgo : ∀ a c, go' (f a) (c.relabel ρ) = (go a c).relabel ρ) :
    Step.andThen p' (nest.relabel ρ)
        ((c.relabel ρ).moveTo (rest.map (Token.relabel ρ))) go' =
      (Step.andThen p nest (c.moveTo rest) go).relabel ρ := by
  rw [Cursor.moveTo_relabel]
  exact andThen_relabel hp nest _ hgo

theorem add_relabel (s : Stmt) (nest : Nest) :
    (nest.relabel ρ).add (s.relabel ρ) = (nest.add s).relabel ρ := by
  cases nest <;> rfl

theorem closeList_relabel (nest : Nest) (rest : List Token) (c : Cursor) :
    closeList (nest.relabel ρ) (rest.map (Token.relabel ρ)) (c.relabel ρ) =
      (closeList nest rest c).relabel ρ := by
  cases nest with
  | program done => rfl
  | block done frames outer =>
    simp only [closeList, Nest.relabel, Step.relabel, Control.relabel,
      Stmt.relabel, Stmt.relabelAll_eq_map, List.map_reverse,
      Cursor.moveTo_relabel]
  | body owner header done outer =>
    cases owner <;>
      simp only [closeList, Nest.relabel, Owner.relabel, Header.relabel,
        Step.relabel, Control.relabel, Stmt.relabel, FunctionDecl.relabel,
        Stmt.relabelAll_eq_map, List.map_reverse, List.map_cons, List.map_nil,
        Cursor.moveTo_relabel]

theorem endList_relabel (nest : Nest) (c : Cursor) :
    endList (nest.relabel ρ) (c.relabel ρ) = (endList nest c).relabel ρ := by
  cases nest with
  | program done =>
    simp only [endList, Nest.relabel, Step.relabel, List.map_reverse]
  | block | body =>
    simp only [endList, Nest.relabel, Cursor.fault_relabel, recover_relabel]

theorem readItem_relabel (nest : Nest) (c : Cursor) :
    readItem (nest.relabel ρ) (c.relabel ρ) = (readItem nest c).relabel ρ := by
  obtain ⟨rest, endLine, nextId, noted⟩ := c
  cases rest with
  | nil => exact endList_relabel nest ⟨[], endLine, nextId, noted⟩
  | cons t rest =>
    have hclose := closeList_relabel (ρ := ρ) nest rest
      ⟨t :: rest, endLine, nextId, noted⟩
    simp only [Cursor.relabel, List.map_cons] at hclose
    have hkind : (t.relabel ρ).kind = t.kind := rfl
    simp only [readItem, Cursor.relabel, List.map_cons, hkind]
    split
    · exact hclose
    · rfl

theorem readDeclaration_relabel (hρ : ρ.Steps 0) (frames : List Frame)
    (nest : Nest) (c : Cursor) :
    readDeclaration (frames.map (Frame.relabel ρ)) (nest.relabel ρ)
        (c.relabel ρ) =
      (readDeclaration frames nest c).relabel ρ := by
  obtain ⟨rest, endLine, nextId, noted⟩ := c
  rcases rest with _ | ⟨⟨kind, line⟩, rest⟩
  · rfl
  · cases kind with
    | keyword k =>
      cases k with
      | kwClass =>
        exact afterKeyword_relabel (respects_readClassHead hρ) nest
          ⟨_, endLine, nextId, noted⟩ rest fun _ _ => rfl
      | kwFun =>
        exact afterKeyword_relabel (respects_readHeader .function) nest
          ⟨_, endLine, nextId, noted⟩ rest fun _ _ => rfl
      | kwVar =>
        exact afterKeyword_relabel (respects_readVar hρ) nest
          ⟨_, endLine, nextId, noted⟩ rest fun _ _ => rfl
      | _ => rfl
    | _ => rfl

/-- A statement without a keyword of its own is an expression statement. -/
theorem expression_relabel (hρ : ρ.Steps 0) (frames : List Frame) (nest : Nest)
    (c : Cursor) :
    Step.andThen readExpression (nest.relabel ρ) (c.relabel ρ) (fun s c =>
        .next (.built s) (frames.map (Frame.relabel ρ)) (nest.relabel ρ) c) =
      (Step.andThen readExpression nest c fun s c =>
        .next (.built s) frames nest c).relabel ρ :=
  andThen_relabel (respects_readExpression hρ) nest c fun _ _ => rfl

theorem readStatement_relabel (hρ : ρ.Steps 0) (frames : List Frame)
    (nest : Nest) (c : Cursor) :
    readStatement (frames.map (Frame.relabel ρ)) (nest.relabel ρ)
        (c.relabel ρ) =
      (readStatement frames nest c).relabel ρ := by
  obtain ⟨rest, endLine, nextId, noted⟩ := c
  rcases rest with _ | ⟨⟨kind, line⟩, rest⟩
  · exact expression_relabel hρ frames nest ⟨[], endLine, nextId, noted⟩
  · have hexpression := expression_relabel hρ frames nest
      ⟨⟨kind, line⟩ :: rest, endLine, nextId, noted⟩
    cases kind with
    | keyword k =>
      cases k with
      | kwFor =>
        exact afterKeyword_relabel (respects_readForClauses hρ) nest
          ⟨_, endLine, nextId, noted⟩ rest fun _ _ => rfl
      | kwIf =>
        exact afterKeyword_relabel (respects_readCondition hρ _ _) nest
          ⟨_, endLine, nextId, noted⟩ rest fun _ _ => rfl
      | kwWhile =>
        exact afterKeyword_relabel (respects_readCondition hρ _ _) nest
          ⟨_, endLine, nextId, noted⟩ rest fun _ _ => rfl
      | kwReturn =>
        exact afterKeyword_relabel (respects_readReturn hρ line) nest
          ⟨_, endLine, nextId, noted⟩ rest fun _ _ => rfl
      | kwPrint =>
        exact afterKeyword_relabel (respects_readPrint hρ) nest
          ⟨_, endLine, nextId, noted⟩ rest fun _ _ => rfl
      | _ => exact hexpression
    | symbol s =>
      cases s with
      | leftBrace => rfl
      | _ => exact hexpression
    | _ => exact hexpression

theorem readMember_relabel (head : ClassHead) (earlier : List FunctionDecl)
    (nest : Nest) (c : Cursor) :
    readMember (head.relabel ρ) (earlier.map (FunctionDecl.relabel ρ))
        (nest.relabel ρ) (c.relabel ρ) =
      (readMember head earlier nest c).relabel ρ := by
  obtain ⟨rest, endLine, nextId, noted⟩ := c
  rcases rest with _ | ⟨⟨kind, line⟩, rest⟩
  · exact recover_relabel (.parse endLine .sourceEnd .classClose) nest
      ⟨[], endLine, nextId, noted⟩
  · have hmethod := andThen_relabel (ρ := ρ) (respects_readHeader .method) nest
      ⟨⟨kind, line⟩ :: rest, endLine, nextId, noted⟩
      (g := fun header c =>
        .next .items [] (.body (.member head earlier) header [] nest) c)
      (k := fun header c => .next .items []
        (.body (.member (head.relabel ρ) (earlier.map (FunctionDecl.relabel ρ)))
          header [] (nest.relabel ρ)) c) fun _ _ => rfl
    cases kind with
    | keyword k =>
      cases k with
      | kwClass =>
        exact afterKeyword_relabel (respects_readHeader .static) nest
          ⟨_, endLine, nextId, noted⟩ rest fun _ _ => rfl
      | _ => exact hmethod
    | symbol s =>
      cases s with
      | rightBrace =>
        simp only [readMember, Cursor.relabel, List.map_cons, Token.relabel,
          Step.relabel, Control.relabel, Stmt.relabel, ClassDecl.relabel,
          ClassHead.relabel, FunctionDecl.relabelAll_eq_map, List.map_reverse]
        rfl
      | _ => exact hmethod
    | _ => exact hmethod

theorem resume_relabel (s : Stmt) (frames : List Frame) (nest : Nest)
    (c : Cursor) :
    resume (s.relabel ρ) (frames.map (Frame.relabel ρ)) (nest.relabel ρ)
        (c.relabel ρ) =
      (resume s frames nest c).relabel ρ := by
  cases frames with
  | nil => simp only [List.map_nil, resume, add_relabel]; rfl
  | cons frame frames =>
    cases frame with
    | thenBranch condition =>
      have hplain : Step.relabel ρ
            (.next (.built (.ifElse condition s none)) frames nest c) =
          .next (.built (.ifElse (condition.relabel ρ) (s.relabel ρ) none))
            (frames.map (Frame.relabel ρ)) (nest.relabel ρ) (c.relabel ρ) := by
        simp only [Step.relabel, Control.relabel, Stmt.relabel]
      obtain ⟨rest, endLine, nextId, noted⟩ := c
      rcases rest with _ | ⟨⟨kind, line⟩, rest⟩
      · exact hplain.symm
      · cases kind with
        | keyword k =>
          cases k with
          | kwElse => rfl
          | _ => exact hplain.symm
        | _ => exact hplain.symm
    | elseBranch | whileBody =>
      simp only [List.map_cons, Frame.relabel, resume, Step.relabel,
        Control.relabel, Stmt.relabel]
    | forBody =>
      simp only [List.map_cons, Frame.relabel, resume, Step.relabel,
        Control.relabel, ForClauses.relabel_loop]

theorem step_relabel (hρ : ρ.Steps 0) (control : Control) (frames : List Frame)
    (nest : Nest) (c : Cursor) :
    step (control.relabel ρ) (frames.map (Frame.relabel ρ)) (nest.relabel ρ)
        (c.relabel ρ) =
      (step control frames nest c).relabel ρ := by
  cases control with
  | items => exact readItem_relabel nest c
  | declaration => exact readDeclaration_relabel hρ frames nest c
  | statement => exact readStatement_relabel hρ frames nest c
  | members head earlier => exact readMember_relabel head earlier nest c
  | built s => exact resume_relabel s frames nest c

/-! ## Sources -/

/-- Reading on from other labels gives the same with other labels. -/
theorem readFrom_relabel (hρ : ρ.Steps 0) (control : Control)
    (frames : List Frame) (nest : Nest) (c : Cursor) :
    readFrom (control.relabel ρ) (frames.map (Frame.relabel ρ))
        (nest.relabel ρ) (c.relabel ρ) =
      ((readFrom control frames nest c).1.map (Stmt.relabel ρ),
        (readFrom control frames nest c).2.relabel ρ) := by
  fun_induction readFrom control frames nest c with
  | case1 control frames nest c control' frames' nest' c' hstep ih =>
    have hstep' := step_relabel hρ control frames nest c
    rw [hstep] at hstep'
    rw [readFrom_next hstep', ih]
  | case2 control frames nest c statements c' hstep =>
    have hstep' := step_relabel hρ control frames nest c
    rw [hstep] at hstep'
    rw [readFrom_done hstep']

/-- A source with other labels. -/
def Parsed.relabel (ρ : Labeling) (p : Parsed) : Parsed :=
  ⟨p.statements.map (Stmt.relabel ρ), p.diagnostics.map (Diagnostic.relabel ρ),
    ρ.id p.nextId⟩

/-- With other labels a source is read as the same, with its labels changed,
whether or not it has faults. -/
theorem parse_relabel (hρ : ρ.Steps 0) {scan scan' : Token.Scan}
    (htokens : scan'.tokens = scan.tokens.map (Token.relabel ρ))
    (hend : scan'.endLine = ρ.line scan.endLine) (firstId : Nat) :
    parse scan' (ρ.id firstId) = (parse scan firstId).relabel ρ := by
  have hstart : Cursor.start scan' (ρ.id firstId) =
      (Cursor.start scan firstId).relabel ρ := by
    simp only [Cursor.start, Cursor.relabel, htokens, hend, List.map_nil]
  have hread := readFrom_relabel hρ .items [] (.program [])
    (.start scan firstId)
  rw [← hstart] at hread
  have hparse : parse scan' (ρ.id firstId) =
      ⟨(readFrom .items [] (.program []) (.start scan' (ρ.id firstId))).1,
        (readFrom .items [] (.program [])
          (.start scan' (ρ.id firstId))).2.diagnostics,
        (readFrom .items [] (.program [])
          (.start scan' (ρ.id firstId))).2.nextId⟩ := rfl
  simp only [Control.relabel, Nest.relabel, List.map_nil] at hread
  rw [hparse, hread]
  simp only [parse, Parsed.relabel, Cursor.diagnostics, Cursor.relabel,
    List.map_reverse]

end Lox.Stmt
