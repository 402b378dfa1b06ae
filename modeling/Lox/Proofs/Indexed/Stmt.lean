import Lox.Stmt.Parser
import Lox.Proofs.Indexed.Expr

/-!
# Reading a program by index

The machine that reads a program, on a slice of tokens, with its recovery from
faults.  Recovery looks at the token before the index even where the source has
ended, so it is in range only if the slice holds a token at all.  It always does
where there is something to recover from: a program of no tokens ends at once.

So reading by index gives what reading from a list gives, and never panics, for
programs (`parse_eq`) and for single expressions (`parseExpr_eq`).
-/

namespace Lox.Indexed

open Lox.Stmt (ClassHead Control ForClauses Frame Header Nest Owner routine)

/-! ## Parts without nesting -/

/-- A variable declaration, from behind `var`. -/
def readVar : Reader Stmt := do
  let name ← Reader.name .variableName
  let initializer ← (do
    if ← Reader.accept (isSymbol .equal) then
      let e ← readExpr
      return some e
    else return none)
  Reader.consume .semicolon .variableEnd
  return .var name initializer

/-- An expression statement. -/
def readExpression : Reader Stmt := do
  let e ← readExpr
  Reader.consume .semicolon .expressionEnd
  return .expression e

/-- A `print` statement, from behind its keyword. -/
def readPrint : Reader Stmt := do
  let e ← readExpr
  Reader.consume .semicolon .printEnd
  return .print e

/-- An expression, unless the symbol `s` comes next. -/
def readUnless (s : Symbol) : Reader (Option Expr) := do
  if ← Reader.check (isSymbol s) then return none
  else
    let e ← readExpr
    return some e

/-- A `return` statement, from behind its keyword on `line`. -/
def readReturn (line : Nat) : Reader Stmt := do
  let value ← readUnless .semicolon
  Reader.consume .semicolon .returnEnd
  return .return line value

/-- A condition in parentheses. -/
def readCondition (opening closing : ParseFault) : Reader Expr := do
  Reader.consume .leftParen opening
  let e ← readExpr
  Reader.consume .rightParen closing
  return e

/-- The first clause of a `for` loop with its semicolon. -/
def readForInitializer : Reader (Option Stmt) := do
  if ← Reader.accept (isSymbol .semicolon) then return none
  else if ← Reader.accept (isKeyword .kwVar) then
    let s ← readVar
    return some s
  else
    let s ← readExpression
    return some s

/-- The clauses of a `for` loop with their parentheses. -/
def readForClauses : Reader ForClauses := do
  Reader.consume .leftParen .forOpen
  let initializer ← readForInitializer
  let condition ← readUnless .semicolon
  Reader.consume .semicolon .forConditionEnd
  let increment ← readUnless .rightParen
  Reader.consume .rightParen .forClose
  return ⟨initializer, condition, increment⟩

/-- One or more parameters; the earlier ones are kept newest first.  Too few
steps count as a panic. -/
def readParamsFrom : (steps : Nat) → List Ident → Reader (List Ident)
  | 0, _ => Reader.panics
  | steps + 1, earlier => do
    Reader.noteIf (maxArity ≤ earlier.length) .tooManyParameters
    let param ← Reader.name .parameterName
    if ← Reader.accept (isSymbol .comma) then
      readParamsFrom steps (param :: earlier)
    else return (param :: earlier).reverse

/-- One or more parameters. -/
def readParams : Reader (List Ident) := fun s =>
  readParamsFrom (s.entries.size - s.current) [] s

/-- A parameter list with its parentheses. -/
def readParamList (routine : Routine) : Reader (List Ident) := do
  Reader.consume .leftParen (.parametersOpen routine)
  let params ← (do
    if ← Reader.check (isSymbol .rightParen) then return []
    else readParams)
  Reader.consume .rightParen .parametersClose
  return params

/-- A function declaration up to the brace that opens its body. -/
def readHeader (kind : FunctionKind) : Reader Header := do
  let name ← Reader.name (.routineName (routine kind))
  let header ← (do
    if kind = .method ∧ (← Reader.check (isSymbol .leftParen)) = false then
      return ⟨name, [], .getter⟩
    else
      let params ← readParamList (routine kind)
      return ⟨name, params, kind⟩)
  Reader.consume .leftBrace (.bodyOpen (routine kind))
  return header

/-- A class declaration, from behind `class` up to the brace that opens its
body. -/
def readClassHead : Reader ClassHead := do
  let name ← Reader.name .className
  let superclass ← (do
    if ← Reader.accept (isSymbol .less) then
      let parent ← Reader.name .superclassName
      let id ← Reader.freshId
      return some ⟨id, parent.name, parent.line⟩
    else return none)
  Reader.consume .leftBrace .classOpen
  return ⟨name, superclass⟩

/-! ## Recovery -/

/-- Whether the entry ends a statement. -/
def Entry.isSemicolon : Entry → Bool
  | token t => Stmt.isSemicolon t.kind
  | sourceEnd _ => false

/-- Whether the entry is likely to start a statement. -/
def Entry.startsStatement : Entry → Bool
  | token t => Stmt.startsStatement t.kind
  | sourceEnd _ => false

/-- Skips entries up to one that is likely to start a statement, or to behind
a semicolon.  Too few steps count as a panic. -/
def skipFrom : (steps : Nat) → Reader Unit
  | 0 => Reader.panics
  | steps + 1 => do
    if ← Reader.isAtEnd then return ()
    else
      let skipped ← Reader.previous
      if skipped.isSemicolon then return ()
      else
        let entry ← Reader.peek
        if entry.startsStatement then return ()
        else
          let _ ← Reader.advance
          skipFrom steps

/-- Skips entries.  The steps are enough for the entries that are left. -/
def skip : Reader Unit := fun s =>
  skipFrom (s.entries.size - s.current) s

/-- The index itself. -/
def Reader.position : Reader Nat := fun s =>
  some (.ok s.current s)

/-- How many entries have been skipped.  It panics if the index has moved
back. -/
def Reader.skippedSince (start : Nat) : Reader Nat := fun s =>
  if start ≤ s.current then some (.ok (s.current - start) s) else none

/-- Skips the entry at which a fault was found, and on to a likely start of a
statement. -/
def synchronize : Reader Unit := do
  let start ← Reader.position
  let _ ← Reader.advance
  skip
  let _ ← Reader.skippedSince start

/-! ## The machine -/

/-- What a step of the machine leads to. -/
inductive StmtStep where
  | next (control : Control) (frames : List Frame) (nest : Nest)
  | done (statements : List Stmt)

/-- Notes a fault and goes on in the innermost list. -/
def recover (nest : Nest) (d : Diagnostic) : Reader StmtStep := do
  Reader.note d
  synchronize
  return .next .items [] nest

/-- Reads a part without nesting and goes on with it, or recovers. -/
def andThen {α : Type} (p : Reader α) (nest : Nest) (go : α → StmtStep) :
    Reader StmtStep :=
  p.orElse (recover nest) fun a => return go a

/-- Whether something other than the closing brace comes next. -/
def moreInList : Reader Bool := do
  if ← Reader.check (isSymbol .rightBrace) then return false
  else
    let ended ← Reader.isAtEnd
    return !ended

/-- Reads something of a list of declarations, or else closes the list, which
leads to `closed`. -/
def readOrClose (p : Reader StmtStep) (f : ParseFault) (outer : Nest)
    (closed : StmtStep) : Reader StmtStep := do
  if ← moreInList then p
  else andThen (Reader.consume .rightBrace f) outer fun _ => closed

/-- What a finished body leads to. -/
def closeBody (owner : Owner) (header : Header) (done : List Stmt)
    (outer : Nest) : StmtStep :=
  let f : FunctionDecl := ⟨header.name, header.params, done.reverse, header.kind⟩
  match owner with
  | .function => .next (.built (.function f)) [] outer
  | .member head earlier => .next (.members head (f :: earlier)) [] outer

/-- Reads a declaration or closes the innermost list. -/
def readItem (nest : Nest) : Reader StmtStep :=
  match nest with
  | .program done => do
    if ← Reader.isAtEnd then return .done done.reverse
    else return .next .declaration [] nest
  | .block done frames outer =>
    readOrClose (return .next .declaration [] nest) .blockClose outer
      (.next (.built (.block done.reverse)) frames outer)
  | .body owner header done outer =>
    readOrClose (return .next .declaration [] nest) .blockClose outer
      (closeBody owner header done outer)

/-- Reads a declaration. -/
def readDeclaration (frames : List Frame) (nest : Nest) : Reader StmtStep := do
  let _ ← Reader.peek
  if ← Reader.accept (isKeyword .kwClass) then
    andThen readClassHead nest fun head => .next (.members head []) [] nest
  else if ← Reader.accept (isKeyword .kwFun) then
    andThen (readHeader .function) nest fun header =>
      .next .items [] (.body .function header [] nest)
  else if ← Reader.accept (isKeyword .kwVar) then
    andThen readVar nest fun s => .next (.built s) frames nest
  else return .next .statement frames nest

/-- Reads a statement. -/
def readStatement (frames : List Frame) (nest : Nest) : Reader StmtStep := do
  let _ ← Reader.peek
  if ← Reader.accept (isKeyword .kwFor) then
    andThen readForClauses nest fun clauses =>
      .next .statement (.forBody clauses :: frames) nest
  else if ← Reader.accept (isKeyword .kwIf) then
    andThen (readCondition .ifOpen .ifClose) nest fun condition =>
      .next .statement (.thenBranch condition :: frames) nest
  else if ← Reader.accept (isKeyword .kwWhile) then
    andThen (readCondition .whileOpen .whileClose) nest fun condition =>
      .next .statement (.whileBody condition :: frames) nest
  else if ← Reader.accept (isKeyword .kwReturn) then
    let keyword ← Reader.previous
    andThen (readReturn keyword.line) nest fun s => .next (.built s) frames nest
  else if ← Reader.accept (isSymbol .leftBrace) then
    return .next .items [] (.block [] frames nest)
  else if ← Reader.accept (isKeyword .kwPrint) then
    andThen readPrint nest fun s => .next (.built s) frames nest
  else andThen readExpression nest fun s => .next (.built s) frames nest

/-- Reads a member of a class. -/
def readMethod (head : ClassHead) (earlier : List FunctionDecl) (nest : Nest) :
    Reader StmtStep := do
  if ← Reader.accept (isKeyword .kwClass) then
    andThen (readHeader .static) nest fun header =>
      .next .items [] (.body (.member head earlier) header [] nest)
  else
    andThen (readHeader .method) nest fun header =>
      .next .items [] (.body (.member head earlier) header [] nest)

/-- Reads a member of a class or closes the class. -/
def readMember (head : ClassHead) (earlier : List FunctionDecl) (nest : Nest) :
    Reader StmtStep :=
  readOrClose (readMethod head earlier nest) .classClose nest
    (.next (.built (.class ⟨head.name, head.superclass, earlier.reverse⟩)) [] nest)

/-- Hands a finished statement to the statement that waits for it, or else to
the innermost list. -/
def resumeStmt (s : Stmt) (frames : List Frame) (nest : Nest) :
    Reader StmtStep := do
  match frames with
  | [] => return .next .items [] (nest.add s)
  | .thenBranch condition :: frames =>
    if ← Reader.accept (isKeyword .kwElse) then
      return .next .statement (.elseBranch condition s :: frames) nest
    else return .next (.built (.ifElse condition s none)) frames nest
  | .elseBranch condition thenBranch :: frames =>
    return .next (.built (.ifElse condition thenBranch (some s))) frames nest
  | .whileBody condition :: frames =>
    return .next (.built (.while condition s)) frames nest
  | .forBody clauses :: frames =>
    return .next (.built (clauses.loop s)) frames nest

/-- One step of the machine. -/
def stepStmt (control : Control) (frames : List Frame) (nest : Nest) :
    Reader StmtStep :=
  match control with
  | .items => readItem nest
  | .declaration => readDeclaration frames nest
  | .statement => readStatement frames nest
  | .members head earlier => readMember head earlier nest
  | .built s => resumeStmt s frames nest

/-- Runs the machine.  Too few steps count as a panic. -/
def readStmtsFrom : (steps : Nat) → Control → List Frame → Nest →
    Reader (List Stmt)
  | 0, _, _, _ => Reader.panics
  | steps + 1, control, frames, nest => do
    match ← stepStmt control frames nest with
    | .next control' frames' nest' => readStmtsFrom steps control' frames' nest'
    | .done statements => return statements

/-! ## Sources -/

/-- The slice of a scanned source, at its start. -/
def sliceOf (scan : Token.Scan) (firstId : Nat) : Slice :=
  slice scan.tokens (.start scan firstId)

/-- Reads a scanned source as a program. -/
def parse (scan : Token.Scan) (firstId : Nat) : Option Stmt.Parsed :=
  let s := sliceOf scan firstId
  match readStmtsFrom (8 * s.entries.size) .items [] (.program []) s with
  | some (.ok statements s') => some ⟨statements, s'.noted.reverse, s'.nextId⟩
  | _ => none

/-- Reads an expression that the source ends behind. -/
def readWhole : Reader Expr := do
  let e ← readExpr
  let ended ← Reader.isAtEnd
  Reader.noteIf (!ended) .endOfExpression
  return e

/-- Reads a scanned source as one expression. -/
def parseExpr (scan : Token.Scan) (firstId : Nat) : Option Expr.Parsed :=
  match readWhole (sliceOf scan firstId) with
  | some (.ok e s) =>
    some ⟨if s.noted.isEmpty then .ok e else .error s.noted.reverse, s.nextId⟩
  | some (.error d s) => some ⟨.error (d :: s.noted).reverse, s.nextId⟩
  | none => none

/-! ## Mirrors of the parts -/

section

variable {whole : List Token}

theorem mirrors_readUnless (s : Symbol) :
    Mirrors whole (readUnless s) (Stmt.readUnless s) :=
  (mirrors_ahead s).bind fun _ =>
    .ite (.pure _) (mirrors_readExpr.bind fun _ => .pure _)

theorem mirrors_readVar : Mirrors whole readVar Stmt.readVar :=
  (mirrors_name _).bind fun _ =>
    .bind ((mirrors_accept _).bind fun _ =>
      .ite (mirrors_readExpr.bind fun _ => .pure _) (.pure _)) fun _ =>
    (mirrors_consume _ _).bind fun _ => .pure _

theorem mirrors_readExpression :
    Mirrors whole readExpression Stmt.readExpression :=
  mirrors_readExpr.bind fun _ => (mirrors_consume _ _).bind fun _ => .pure _

theorem mirrors_readPrint : Mirrors whole readPrint Stmt.readPrint :=
  mirrors_readExpr.bind fun _ => (mirrors_consume _ _).bind fun _ => .pure _

theorem mirrors_readReturn (line : Nat) :
    Mirrors whole (readReturn line) (Stmt.readReturn line) :=
  (mirrors_readUnless _).bind fun _ =>
    (mirrors_consume _ _).bind fun _ => .pure _

theorem mirrors_readCondition (opening closing : ParseFault) :
    Mirrors whole (readCondition opening closing)
      (Stmt.readCondition opening closing) :=
  (mirrors_consume _ _).bind fun _ =>
    mirrors_readExpr.bind fun _ => (mirrors_consume _ _).bind fun _ => .pure _

theorem mirrors_readForInitializer :
    Mirrors whole readForInitializer Stmt.readForInitializer :=
  (mirrors_accept _).bind fun _ =>
    .ite (.pure _) ((mirrors_acceptKeyword _).bind fun _ =>
      .ite (mirrors_readVar.bind fun _ => .pure _)
        (mirrors_readExpression.bind fun _ => .pure _))

theorem mirrors_readForClauses :
    Mirrors whole readForClauses Stmt.readForClauses :=
  (mirrors_consume _ _).bind fun _ =>
    mirrors_readForInitializer.bind fun _ =>
      (mirrors_readUnless _).bind fun _ =>
        (mirrors_consume _ _).bind fun _ =>
          (mirrors_readUnless _).bind fun _ =>
            (mirrors_consume _ _).bind fun _ => .pure _

/-- With a step for each token that is left, the loops read the same
parameters. -/
theorem readParamsFrom_eq {earlier : List Ident} {c : Cursor}
    (h : c.rest <:+ whole) {steps : Nat} (hsteps : c.rest.length < steps) :
    (Lox.Reader.reached (Stmt.readParams earlier c)).rest <:+ whole ∧
      readParamsFrom steps earlier (slice whole c) =
        some (place whole (Stmt.readParams earlier c)) := by
  fun_induction Stmt.readParams earlier c generalizing steps with
  | case1 earlier c x line comma rest hrest ih =>
    obtain ⟨steps, rfl⟩ : ∃ n, steps = n + 1 := ⟨steps - 1, by omega⟩
    -- Noting a fault does not move the cursor.
    have hnote := noteIf_run h (maxArity ≤ earlier.length) .tooManyParameters
    have hc := c.rest_noteIf (maxArity ≤ earlier.length) .tooManyParameters
    have henough : rest.length < steps := by
      rw [hrest, List.length_cons, List.length_cons] at hsteps
      omega
    rw [← hc] at h hrest
    have hcomma := suffix_tail (hrest ▸ h)
    have htake := accept_cons
      (c := (c.noteIf (maxArity ≤ earlier.length) .tooManyParameters).moveTo _)
      rfl hcomma (isSymbol .comma)
    obtain ⟨hreached, hrun⟩ := ih (suffix_tail hcomma) henough
    exact ⟨hreached, (Reader.bind_ok hnote).trans
      ((Reader.bind_ok (name_cons hrest h _)).trans
        ((Reader.ite_true htake).trans hrun))⟩
  | case2 earlier c x line rest hcomma hrest =>
    obtain ⟨steps, rfl⟩ : ∃ n, steps = n + 1 := ⟨steps - 1, by omega⟩
    have hnote := noteIf_run h (maxArity ≤ earlier.length) .tooManyParameters
    have hc := c.rest_noteIf (maxArity ≤ earlier.length) .tooManyParameters
    rw [← hc] at h hrest
    have htail := suffix_tail (hrest ▸ h)
    have hlacks : Lacks (isSymbol .comma) rest := lacks_symbol fun line rest' => by
      rintro rfl
      exact hcomma line rest' rfl
    exact ⟨htail, (Reader.bind_ok hnote).trans
      ((Reader.bind_ok (name_cons hrest h _)).trans
        (Reader.ite_false (accept_lacks htail hlacks)))⟩
  | case3 earlier c noted _ hname =>
    obtain ⟨steps, rfl⟩ : ∃ n, steps = n + 1 := ⟨steps - 1, by omega⟩
    have hnote := noteIf_run h (maxArity ≤ earlier.length) .tooManyParameters
    have hc := c.rest_noteIf (maxArity ≤ earlier.length) .tooManyParameters
    have hlacks : Lacks isName noted.rest := hc ▸ lacks_name hname
    rw [← hc] at h
    exact ⟨h, (Reader.bind_ok hnote).trans
      (Reader.bind_error (name_lacks h hlacks _))⟩

theorem mirrors_readParams : Mirrors whole readParams (Stmt.readParams []) := by
  intro c h
  refine readParamsFrom_eq h ?_
  have hlength := h.length_le
  simp only [slice, List.size_toArray, List.length_append, List.length_map,
    List.length_singleton]
  omega

theorem mirrors_readParamList (routine : Routine) :
    Mirrors whole (readParamList routine) (Stmt.readParamList routine) :=
  (mirrors_consume _ _).bind fun _ =>
    .bind ((mirrors_ahead _).bind fun _ => .ite (.pure _) mirrors_readParams)
      fun _ => (mirrors_consume _ _).bind fun _ => .pure _

theorem mirrors_readHeader (kind : FunctionKind) :
    Mirrors whole (readHeader kind) (Stmt.readHeader kind) :=
  (mirrors_name _).bind fun _ =>
    .bind ((mirrors_ahead _).bind fun _ =>
      .ite (.pure _) ((mirrors_readParamList _).bind fun _ => .pure _))
      fun _ => (mirrors_consume _ _).bind fun _ => .pure _

theorem mirrors_readClassHead : Mirrors whole readClassHead Stmt.readClassHead :=
  (mirrors_name _).bind fun _ =>
    .bind ((mirrors_accept _).bind fun _ =>
      .ite ((mirrors_name _).bind fun _ =>
        mirrors_freshId.bind fun _ => .pure _) (.pure _)) fun _ =>
    (mirrors_consume _ _).bind fun _ => .pure _

/-! ## Recovery stays in range -/

/-- Behind a token the index is in range on both sides, and stays so. -/
theorem skipFrom_run {skipped : Token} {rest : List Token} {endLine nextId : Nat}
    {noted : List Diagnostic} (h : skipped :: rest <:+ whole) {steps : Nat}
    (hsteps : rest.length < steps) :
    Stmt.skipAfter skipped rest <:+ whole ∧
      skipFrom steps (slice whole ⟨rest, endLine, nextId, noted⟩) =
        some (.ok ()
          (slice whole ⟨Stmt.skipAfter skipped rest, endLine, nextId, noted⟩)) := by
  induction rest generalizing skipped steps with
  | nil =>
    obtain ⟨steps, rfl⟩ : ∃ n, steps = n + 1 := ⟨steps - 1, by omega⟩
    exact ⟨suffix_tail h, Reader.ite_true (isAtEnd_nil rfl)⟩
  | cons t rest ih =>
    obtain ⟨steps, rfl⟩ : ∃ n, steps = n + 1 := ⟨steps - 1, by omega⟩
    rw [List.length_cons] at hsteps
    have htail := suffix_tail h
    -- The entry before the index is the token that was skipped last.
    have hend := isAtEnd_cons (c := ⟨t :: rest, endLine, nextId, noted⟩) rfl htail
    obtain ⟨hsuffix, hrun⟩ := ih htail (Nat.lt_of_succ_lt_succ hsteps)
    simp only [skipFrom, Stmt.skipAfter, Reader.bind_ok hend, previous_bind h,
      Bool.false_eq_true, if_false]
    cases hsemicolon : Stmt.isSemicolon skipped.kind with
    | true => exact ⟨htail, by simp [Entry.isSemicolon, hsemicolon, Reader.pure_run]⟩
    | false =>
      cases hstarts : Stmt.startsStatement t.kind with
      | true =>
        exact ⟨htail, by
          simp [Entry.isSemicolon, Entry.startsStatement, hsemicolon, hstarts,
            peek_bind htail, Reader.pure_run]⟩
      | false =>
        refine ⟨hsuffix, ?_⟩
        simpa [Entry.isSemicolon, Entry.startsStatement, hsemicolon, hstarts,
          peek_bind htail, advance_bind htail] using hrun

theorem skippedSince_run {c c' : Cursor} (h : c'.rest.length ≤ c.rest.length) :
    Reader.skippedSince (slice whole c).current (slice whole c') =
      some (.ok ((slice whole c').current - (slice whole c).current)
        (slice whole c')) := by
  refine if_pos ?_
  simp only [slice]
  omega

theorem skip_run {skipped : Token} {c : Cursor} (h : skipped :: c.rest <:+ whole) :
    Stmt.skipAfter skipped c.rest <:+ whole ∧
      skip (slice whole c) =
        some (.ok () (slice whole (c.moveTo (Stmt.skipAfter skipped c.rest)))) := by
  refine skipFrom_run h ?_
  have hlength := h.length_le
  rw [List.length_cons] at hlength
  simp only [slice, List.size_toArray, List.length_append, List.length_map,
    List.length_singleton]
  omega

/-- Where a fault was found there is a token to skip, or else one that has been
read. -/
theorem advance_run (hwhole : whole ≠ []) {c : Cursor} (h : c.rest <:+ whole) :
    ∃ t, t :: c.rest.tail <:+ whole ∧
      Reader.advance (slice whole c) =
        some (.ok (.token t) (slice whole (c.moveTo c.rest.tail))) ∧
      Stmt.synchronize c.rest = Stmt.skipAfter t c.rest.tail := by
  obtain ⟨rest, endLine, nextId, noted⟩ := c
  cases rest with
  | nil =>
    have hlast : [whole.getLast hwhole] <:+ whole :=
      ⟨whole.dropLast, List.dropLast_concat_getLast hwhole⟩
    exact ⟨_, hlast, advance_nil rfl hwhole, rfl⟩
  | cons t rest => exact ⟨t, h, advance_cons rfl h, rfl⟩

/-- Recovery stays in range if there is a token at all. -/
theorem synchronize_run (hwhole : whole ≠ []) {c : Cursor}
    (h : c.rest <:+ whole) :
    Stmt.synchronize c.rest <:+ whole ∧
      synchronize (slice whole c) =
        some (.ok () (slice whole (c.moveTo (Stmt.synchronize c.rest)))) := by
  obtain ⟨t, htail, hadvance, hsync⟩ := advance_run hwhole h
  obtain ⟨hsuffix, hskip⟩ := skip_run (c := c.moveTo c.rest.tail) htail
  have hlength : (Stmt.skipAfter t c.rest.tail).length ≤ c.rest.length := by
    have := Stmt.length_skipAfter_le t c.rest.tail
    have := c.rest.length_tail
    omega
  rw [hsync]
  exact ⟨hsuffix, (Reader.bind_ok rfl).trans ((Reader.bind_ok hadvance).trans
    ((Reader.bind_ok hskip).trans (Reader.bind_ok (skippedSince_run hlength))))⟩

/-! ## Mirrors of the machine -/

/-- The same step as a result. -/
def stmtResult : Stmt.Step → EStateM.Result Diagnostic Cursor StmtStep
  | .next control frames nest c => .ok (.next control frames nest) c
  | .done statements c => .ok (.done statements) c

theorem mirrors_recover (hwhole : whole ≠ []) (nest : Nest) (d : Diagnostic) :
    Mirrors whole (recover nest d) (fun c => stmtResult (Stmt.recover d nest c)) := by
  intro c h
  obtain ⟨hsuffix, hrun⟩ := synchronize_run hwhole (c := c.note d) h
  exact ⟨hsuffix, (Reader.bind_ok (note_run d)).trans (Reader.bind_ok hrun)⟩

/-- A part that is mirrored is gone on with in the same way. -/
theorem Mirrors.andThen (hwhole : whole ≠ []) {α : Type} {p : Reader α}
    {q : Lox.Reader α} (h : Mirrors whole p q) (nest : Nest) {go : α → StmtStep}
    {go' : α → Cursor → Stmt.Step}
    (hgo : ∀ a c, stmtResult (go' a c) = .ok (go a) c) :
    Mirrors whole (Indexed.andThen p nest go)
      (fun c => stmtResult (Stmt.Step.andThen q nest c go')) := by
  intro c hc
  obtain ⟨hreached, hrun⟩ := h c hc
  simp only [Indexed.andThen, Reader.orElse, hrun, Stmt.Step.andThen]
  cases hq : q c with
  | ok a c' =>
    rw [hq] at hreached
    simp only [hgo]
    exact ⟨hreached, rfl⟩
  | error d c' =>
    rw [hq] at hreached
    exact mirrors_recover hwhole nest d c' hreached

theorem isSymbol_rightBrace (kind : Token.Kind) :
    isSymbol .rightBrace kind = Stmt.isRightBrace kind := by
  cases kind with
  | symbol s => cases s <;> rfl
  | _ => rfl

variable {t : Token} {rest : List Token} {endLine nextId : Nat}
  {noted : List Diagnostic}

theorem andThen_ok {α : Type} {p : Reader α} {nest : Nest} {go : α → StmtStep}
    {s s' : Slice} {a : α} (h : p s = some (.ok a s')) :
    andThen p nest go s = some (.ok (go a) s') := by
  simp only [andThen, Reader.orElse, h]
  rfl

theorem andThen_error {α : Type} {p : Reader α} {nest : Nest} {go : α → StmtStep}
    {s s' : Slice} {d : Diagnostic} (h : p s = some (.error d s')) :
    andThen p nest go s = recover nest d s' := by
  simp only [andThen, Reader.orElse, h]

/-- At the end of the source the closing brace is missing. -/
theorem readOrClose_nil (h : [] <:+ whole) (p : Reader StmtStep) (f : ParseFault)
    (outer : Nest) (closed : StmtStep) :
    readOrClose p f outer closed (slice whole ⟨[], endLine, nextId, noted⟩) =
      recover outer (Cursor.fault ⟨[], endLine, nextId, noted⟩ f)
        (slice whole ⟨[], endLine, nextId, noted⟩) := by
  have hmore : moreInList (slice whole ⟨[], endLine, nextId, noted⟩) =
      some (.ok false (slice whole ⟨[], endLine, nextId, noted⟩)) :=
    (Reader.ite_false (check_nil rfl _)).trans (Reader.bind_ok (isAtEnd_nil rfl))
  have hconsume :
      Reader.consume .rightBrace f (slice whole ⟨[], endLine, nextId, noted⟩) = _ :=
    expect_bind_lacks h (lacks_nil _) f _
  exact (Reader.ite_false hmore).trans (andThen_error hconsume)

theorem readOrClose_cons (h : t :: rest <:+ whole) (p : Reader StmtStep)
    (f : ParseFault) (outer : Nest) (closed : StmtStep) :
    readOrClose p f outer closed (slice whole ⟨t :: rest, endLine, nextId, noted⟩) =
      if Stmt.isRightBrace t.kind then
        some (.ok closed (slice whole ⟨rest, endLine, nextId, noted⟩))
      else p (slice whole ⟨t :: rest, endLine, nextId, noted⟩) := by
  have hmore : moreInList (slice whole ⟨t :: rest, endLine, nextId, noted⟩) = _ :=
    check_ite h (isSymbol .rightBrace) _ _
  cases hbrace : isSymbol .rightBrace t.kind with
  | true =>
    rw [hbrace, if_pos rfl] at hmore
    have hconsume : Reader.consume .rightBrace f
        (slice whole ⟨t :: rest, endLine, nextId, noted⟩) = _ :=
      expect_bind h hbrace f _
    rw [← isSymbol_rightBrace, hbrace, if_pos rfl]
    exact (Reader.ite_false hmore).trans (andThen_ok hconsume)
  | false =>
    rw [hbrace, if_neg Bool.false_ne_true,
      Reader.bind_ok (isAtEnd_cons rfl h)] at hmore
    rw [← isSymbol_rightBrace, hbrace, if_neg Bool.false_ne_true]
    exact Reader.ite_true hmore

theorem mirrors_readItem (hwhole : whole ≠ []) (nest : Nest) :
    Mirrors whole (readItem nest) (fun c => stmtResult (Stmt.readItem nest c)) := by
  rintro ⟨rest, endLine, nextId, noted⟩ h
  cases rest with
  | nil =>
    cases nest with
    | program done => exact ⟨h, Reader.ite_true (isAtEnd_nil rfl)⟩
    | block | body =>
      simp only [readItem, readOrClose_nil h]
      exact mirrors_recover hwhole _ _ _ h
  | cons t rest =>
    cases nest with
    | program done =>
      simp only [Stmt.readItem, Stmt.closeList, ite_self]
      exact ⟨h, Reader.ite_false (isAtEnd_cons rfl h)⟩
    | block done frames outer =>
      simp only [readItem, readOrClose_cons h, Stmt.readItem, Stmt.closeList]
      split
      · exact ⟨suffix_tail h, rfl⟩
      · exact ⟨h, rfl⟩
    | body owner header done outer =>
      simp only [readItem, readOrClose_cons h, Stmt.readItem, Stmt.closeList]
      split
      · cases owner <;> exact ⟨suffix_tail h, rfl⟩
      · exact ⟨h, rfl⟩

theorem mirrors_readDeclaration (hwhole : whole ≠ []) (frames : List Frame)
    (nest : Nest) :
    Mirrors whole (readDeclaration frames nest)
      (fun c => stmtResult (Stmt.readDeclaration frames nest c)) := by
  rintro ⟨rest, endLine, nextId, noted⟩ h
  simp only [readDeclaration, peek_ignored h, Stmt.readDeclaration]
  split
  · simp only [accept_ite h, isKeyword, decide_true, if_true]
    exact mirrors_readClassHead.andThen hwhole nest (fun _ _ => rfl) _ (suffix_tail h)
  · simp only [accept_ite h, isKeyword, reduceCtorEq, decide_false, decide_true,
      Bool.false_eq_true, if_false, if_true]
    exact (mirrors_readHeader _).andThen hwhole nest (fun _ _ => rfl) _ (suffix_tail h)
  · simp only [accept_ite h, isKeyword, reduceCtorEq, decide_false, decide_true,
      Bool.false_eq_true, if_false, if_true]
    exact mirrors_readVar.andThen hwhole nest (fun _ _ => rfl) _ (suffix_tail h)
  · next hclass hfun hvar =>
    simp only [accept_ite_lacks h (lacks_keyword hclass),
      accept_ite_lacks h (lacks_keyword hfun), accept_ite_lacks h (lacks_keyword hvar)]
    exact ⟨h, rfl⟩

theorem mirrors_readStatement (hwhole : whole ≠ []) (frames : List Frame)
    (nest : Nest) :
    Mirrors whole (readStatement frames nest)
      (fun c => stmtResult (Stmt.readStatement frames nest c)) := by
  rintro ⟨rest, endLine, nextId, noted⟩ h
  simp only [readStatement, peek_ignored h, Stmt.readStatement]
  split
  · simp only [accept_ite h, isKeyword, decide_true, if_true]
    exact mirrors_readForClauses.andThen hwhole nest (fun _ _ => rfl) _ (suffix_tail h)
  · simp only [accept_ite h, isKeyword, reduceCtorEq, decide_false, decide_true,
      Bool.false_eq_true, if_false, if_true]
    exact (mirrors_readCondition _ _).andThen hwhole nest (fun _ _ => rfl) _
      (suffix_tail h)
  · simp only [accept_ite h, isKeyword, reduceCtorEq, decide_false, decide_true,
      Bool.false_eq_true, if_false, if_true]
    exact (mirrors_readCondition _ _).andThen hwhole nest (fun _ _ => rfl) _
      (suffix_tail h)
  · simp only [accept_ite h, previous_bind h, isKeyword, reduceCtorEq, decide_false,
      decide_true, Bool.false_eq_true, if_false, if_true]
    exact (mirrors_readReturn _).andThen hwhole nest (fun _ _ => rfl) _ (suffix_tail h)
  · simp only [accept_ite h, isKeyword, isSymbol, decide_true, Bool.false_eq_true,
      if_false, if_true]
    exact ⟨suffix_tail h, rfl⟩
  · simp only [accept_ite h, isKeyword, isSymbol, reduceCtorEq, decide_false,
      decide_true, Bool.false_eq_true, if_false, if_true]
    exact mirrors_readPrint.andThen hwhole nest (fun _ _ => rfl) _ (suffix_tail h)
  · -- All that was asked for is missing, so that an expression has to follow.
    next hfor hif hwhile hreturn hbrace hprint =>
    simp only [accept_ite_lacks h (lacks_keyword hfor),
      accept_ite_lacks h (lacks_keyword hif), accept_ite_lacks h (lacks_keyword hwhile),
      accept_ite_lacks h (lacks_keyword hreturn),
      accept_ite_lacks h (lacks_symbol hbrace),
      accept_ite_lacks h (lacks_keyword hprint)]
    exact mirrors_readExpression.andThen hwhole nest (fun _ _ => rfl) _ h

theorem mirrors_readMember (hwhole : whole ≠ []) (head : ClassHead)
    (earlier : List FunctionDecl) (nest : Nest) :
    Mirrors whole (readMember head earlier nest)
      (fun c => stmtResult (Stmt.readMember head earlier nest c)) := by
  rintro ⟨rest, endLine, nextId, noted⟩ h
  simp only [Stmt.readMember]
  split
  · simp only [readMember, readOrClose_nil h]
    exact mirrors_recover hwhole _ _ _ h
  · simp only [readMember, readOrClose_cons h, Stmt.isRightBrace, if_true]
    exact ⟨suffix_tail h, rfl⟩
  · simp only [readMember, readMethod, readOrClose_cons h, accept_ite h, isKeyword,
      Stmt.isRightBrace, decide_true, Bool.false_eq_true, if_false, if_true]
    exact (mirrors_readHeader _).andThen hwhole nest (fun _ _ => rfl) _ (suffix_tail h)
  · next hnil hbrace hclass =>
    cases rest with
    | nil => exact (hnil rfl).elim
    | cons t rest =>
      have hopen : Stmt.isRightBrace t.kind = false := by
        rw [← isSymbol_rightBrace]
        exact lacks_symbol hbrace t rest rfl
      simp only [readMember, readMethod, readOrClose_cons h, hopen,
        accept_ite_lacks h (lacks_keyword hclass), Bool.false_eq_true, if_false]
      exact (mirrors_readHeader _).andThen hwhole nest (fun _ _ => rfl) _ h

theorem mirrors_resumeStmt (s : Stmt) (frames : List Frame) (nest : Nest) :
    Mirrors whole (resumeStmt s frames nest)
      (fun c => stmtResult (Stmt.resume s frames nest c)) := by
  cases frames with
  | nil => exact fun _ h => ⟨h, rfl⟩
  | cons frame frames =>
    cases frame with
    | elseBranch | whileBody | forBody => exact fun _ h => ⟨h, rfl⟩
    | thenBranch condition =>
      rintro ⟨rest, endLine, nextId, noted⟩ h
      simp only [resumeStmt, Stmt.resume]
      split
      · simp only [accept_ite h, isKeyword, decide_true, if_true]
        exact ⟨suffix_tail h, rfl⟩
      · next helse =>
        simp only [accept_ite_lacks h (lacks_keyword helse)]
        exact ⟨h, rfl⟩

theorem mirrors_stepStmt (hwhole : whole ≠ []) (control : Control)
    (frames : List Frame) (nest : Nest) :
    Mirrors whole (stepStmt control frames nest)
      (fun c => stmtResult (Stmt.step control frames nest c)) := by
  cases control with
  | items => exact mirrors_readItem hwhole nest
  | declaration => exact mirrors_readDeclaration hwhole frames nest
  | statement => exact mirrors_readStatement hwhole frames nest
  | members head earlier => exact mirrors_readMember hwhole head earlier nest
  | built s => exact mirrors_resumeStmt s frames nest

/-! ## Reading -/

/-- With steps for all that is left to do, the machines run to the same end. -/
theorem readStmtsFrom_eq (hwhole : whole ≠ []) {control : Control}
    {frames : List Frame} {nest : Nest} {c : Cursor} (h : c.rest <:+ whole)
    {steps : Nat} (hsteps : Stmt.potential control frames nest c < steps) :
    readStmtsFrom steps control frames nest (slice whole c) =
      some (.ok (Stmt.readFrom control frames nest c).1
        (slice whole (Stmt.readFrom control frames nest c).2)) := by
  -- Each step of the machine on the cursor costs one step here, and lowers the
  -- potential.
  fun_induction Stmt.readFrom control frames nest c generalizing steps with
  | case1 control frames nest c control' frames' nest' c' hstep ih =>
    obtain ⟨hreached, hrun⟩ := mirrors_stepStmt hwhole control frames nest c h
    simp only [hstep] at hreached hrun
    obtain ⟨steps, rfl⟩ : ∃ n, steps = n + 1 := ⟨steps - 1, by omega⟩
    have hlt := Stmt.potential_lt_of_step hstep
    have henough : Stmt.potential control' frames' nest' c' < steps := by omega
    exact (Reader.bind_ok hrun).trans (ih hreached henough)
  | case2 control frames nest c statements c' hstep =>
    obtain ⟨hreached, hrun⟩ := mirrors_stepStmt hwhole control frames nest c h
    simp only [hstep] at hreached hrun
    obtain ⟨steps, rfl⟩ : ∃ n, steps = n + 1 := ⟨steps - 1, by omega⟩
    exact Reader.bind_ok hrun

/-- Without a token a program has ended before there is anything to recover
from. -/
theorem stepStmt_nil (endLine nextId : Nat) (noted : List Diagnostic) :
    stepStmt .items [] (.program [])
        (slice [] ⟨[], endLine, nextId, noted⟩) =
      some (.ok (.done (Stmt.readFrom .items [] (.program [])
          ⟨[], endLine, nextId, noted⟩).1)
        (slice [] (Stmt.readFrom .items [] (.program [])
          ⟨[], endLine, nextId, noted⟩).2)) := by
  have hdone : Stmt.readFrom .items [] (.program []) ⟨[], endLine, nextId, noted⟩ =
      ([], ⟨[], endLine, nextId, noted⟩) := by
    rw [Stmt.readFrom]
    rfl
  rw [hdone]
  exact Reader.ite_true (isAtEnd_nil rfl)

/-- From its start a program is read to its end. -/
theorem readStmtsFrom_start {c : Cursor} (hc : c.rest = whole) {steps : Nat}
    (hsteps : 8 * whole.length + 4 < steps) :
    readStmtsFrom steps .items [] (.program []) (slice whole c) =
      some (.ok (Stmt.readFrom .items [] (.program []) c).1
        (slice whole (Stmt.readFrom .items [] (.program []) c).2)) := by
  obtain ⟨rest, endLine, nextId, noted⟩ := c
  subst hc
  cases rest with
  | nil =>
    obtain ⟨steps, rfl⟩ : ∃ n, steps = n + 1 := ⟨steps - 1, by omega⟩
    exact Reader.bind_ok (stepStmt_nil endLine nextId noted)
  | cons t rest =>
    refine readStmtsFrom_eq (List.cons_ne_nil t rest) (List.suffix_refl _) ?_
    exact hsteps

end

/-- Reading a program by index gives what reading it from the list gives. -/
theorem parse_eq (scan : Token.Scan) (firstId : Nat) :
    parse scan firstId = some (Stmt.parse scan firstId) := by
  have hsteps : 8 * scan.tokens.length + 4 <
      8 * (sliceOf scan firstId).entries.size := by
    simp only [sliceOf, slice, List.size_toArray, List.length_append,
      List.length_map, List.length_singleton]
    omega
  have hrun : readStmtsFrom (8 * (sliceOf scan firstId).entries.size) .items []
      (.program []) (sliceOf scan firstId) = _ :=
    readStmtsFrom_start (c := .start scan firstId) rfl hsteps
  simp only [parse, hrun]
  rfl

/-- Reading an expression by index gives what reading it from the list
gives. -/
theorem parseExpr_eq (scan : Token.Scan) (firstId : Nat) :
    parseExpr scan firstId = some (Expr.parse scan firstId) := by
  have hmirrors : Mirrors scan.tokens readExpr Expr.read := mirrors_readExpr
  obtain ⟨hreached, hrun⟩ := hmirrors (.start scan firstId) (List.suffix_refl _)
  simp only [Expr.parse, parseExpr]
  cases hread : Expr.read (.start scan firstId) with
  | ok e c =>
    rw [hread] at hreached hrun
    have hwhole : readWhole (sliceOf scan firstId) = _ :=
      (Reader.bind_ok hrun).trans ((Reader.bind_ok (isAtEnd_run hreached)).trans
        (Reader.bind_ok (noteIf_run hreached _ _)))
    rw [hwhole]
    rfl
  | error d c =>
    rw [hread] at hrun
    have hwhole : readWhole (sliceOf scan firstId) = _ := Reader.bind_error hrun
    rw [hwhole]
    rfl

end Lox.Indexed
