import Lox.Proofs.Stmt.Appending

/-!
# The loop that a `for` statement is written for

`for (I C; N) S` is read as what `{ I while (C) { S N; } }` is read as.  Both
are given here as tokens, built from those of the parts, and read part by part
(`ForLoop.reads_tokens`, `ForLoop.reads_expansion`).  The parts are the same
but for their ids: in a `for` statement the increment is read before the body,
in the expansion behind it.

How the parts have to look is said by the reader itself, which reads each of
them alone without a fault (`ForLoop.IsWritten`).

Lines have no part in any of this, so two sources are compared by the kinds of
their tokens (`Token.SameKinds`).
-/

namespace Lox

namespace Token

/-- The tokens are the same up to the lines on which they stand. -/
def SameKinds (w w' : List Token) : Prop :=
  w.map kind = w'.map kind

/-- A symbol on no line in particular. -/
def ofSymbol (s : Symbol) : Token := ⟨.symbol s, 0⟩

/-- A keyword on no line in particular. -/
def ofKeyword (k : Keyword) : Token := ⟨.keyword k, 0⟩

theorem map_noLines (w : List Token) :
    w.map (Token.relabel .noLines) = (w.map kind).map fun k => ⟨k, 0⟩ := by
  rw [List.map_map]
  rfl

end Token

namespace Stmt

/-! ## Lines have no part in reading -/

/-- Tokens of the same kinds are read as the same up to lines. -/
theorem parse_sameKinds (scan scan' : Token.Scan)
    (h : Token.SameKinds scan.tokens scan'.tokens) (n : Nat) :
    (parse scan n).relabel .noLines = (parse scan' n).relabel .noLines := by
  have hplain (scan : Token.Scan) :
      parse (.ofTokens (scan.tokens.map (Token.relabel .noLines)) 0) n =
        (parse scan n).relabel .noLines :=
    parse_relabel (Labeling.steps_lines _ _)
      (Token.Scan.tokens_ofTokens _ _) rfl n
  rw [← hplain, ← hplain, Token.map_noLines, h, ← Token.map_noLines]

/-- What can be read can be read on other lines. -/
theorem reads_of_sameKinds {n n' : Nat} {list : List Stmt} {w w' : List Token}
    (h : Reads n (.declarations list) w n') (hw : Token.SameKinds w' w) :
    ∃ list', Reads n (.declarations list') w' n' ∧
      list'.map (Stmt.relabel .noLines) = list.map (Stmt.relabel .noLines) := by
  have hread : parse (.ofTokens w 0) n = ⟨list, [], n'⟩ :=
    parse_of_reads (by rwa [Token.Scan.tokens_ofTokens])
  have hsame := parse_sameKinds (.ofTokens w' 0) (.ofTokens w 0)
    (by simpa only [Token.Scan.tokens_ofTokens]) n
  cases hparse : parse (.ofTokens w' 0) n with
  | mk list' diagnostics m =>
    rw [hread, hparse] at hsame
    simp only [Parsed.relabel, Parsed.mk.injEq, List.map_nil,
      List.map_eq_nil_iff] at hsame
    obtain ⟨hlist, rfl, rfl⟩ := hsame
    refine ⟨list', ?_, hlist⟩
    have hreads := parse_eq_iff.1 hparse
    rwa [Token.Scan.tokens_ofTokens] at hreads

/-! ## The two ways to write a loop -/

/-- The parts of a `for` statement.  The semicolon behind the initializer
belongs to it. -/
structure ForLoop where
  initializer : List Token
  condition : List Token
  increment : List Token
  body : List Token

namespace ForLoop

/-- The `for` statement. -/
def tokens (f : ForLoop) : List Token :=
  .ofKeyword .kwFor :: .ofSymbol .leftParen ::
    (f.initializer ++ (f.condition ++ .ofSymbol .semicolon ::
      (f.increment ++ .ofSymbol .rightParen :: f.body)))

/-- Whether the initializer is a semicolon and nothing else. -/
def isBare (f : ForLoop) : Bool :=
  match f.initializer with
  | [⟨.symbol .semicolon, _⟩] => true
  | _ => false

/-- The condition of the `while` loop: without one the loop has no end. -/
def whileCondition (f : ForLoop) : List Token :=
  match f.condition with
  | [] => [.ofKeyword .kwTrue]
  | _ :: _ => f.condition

/-- What the `while` loop repeats: the body, and the increment behind it. -/
def whileBody (f : ForLoop) : List Token :=
  match f.increment with
  | [] => f.body
  | _ :: _ =>
    .ofSymbol .leftBrace :: (f.body ++ (f.increment ++
      [.ofSymbol .semicolon, .ofSymbol .rightBrace]))

/-- The `while` loop. -/
def whileLoop (f : ForLoop) : List Token :=
  .ofKeyword .kwWhile :: .ofSymbol .leftParen ::
    (f.whileCondition ++ .ofSymbol .rightParen :: f.whileBody)

/-- What the `for` statement stands for: the initializer and the `while` loop
in a block of their own, or the loop alone if there is no initializer. -/
def expansion (f : ForLoop) : List Token :=
  if f.isBare then f.whileLoop
  else .ofSymbol .leftBrace ::
    (f.initializer ++ (f.whileLoop ++ [.ofSymbol .rightBrace]))

end ForLoop

/-! ## Reading them part by part -/

/-- What the loop of a `for` statement repeats. -/
def ForClauses.repeated (clauses : ForClauses) (body : Stmt) : Stmt :=
  match clauses.increment with
  | some increment => .block [body, .expression increment]
  | none => body

/-- The loop of a `for` statement, without the initializer. -/
def ForClauses.whileLoop (clauses : ForClauses) (body : Stmt) : Stmt :=
  .while (clauses.condition.getD (.literal (.bool true))) (clauses.repeated body)

theorem ForClauses.loop_eq (clauses : ForClauses) (body : Stmt) :
    clauses.loop body =
      match clauses.initializer with
      | some initializer => .block [initializer, clauses.whileLoop body]
      | none => clauses.whileLoop body :=
  rfl

namespace ForLoop

variable {f : ForLoop} {c : ForClauses} {o : Bool} {s : Stmt}
  {n n₁ n₂ n₃ n₄ : Nat}

theorem reads_braces {list : List Stmt} {w : List Token}
    (h : Reads n (.declarations list) w n₁) :
    Reads n (.statement false (.block list))
      (.ofSymbol .leftBrace :: (w ++ [.ofSymbol .rightBrace])) n₁ :=
  .block h

/-- The `for` statement: the increment takes its ids before the body. -/
theorem reads_tokens
    (hinitializer : ReadsForInitializer n c.initializer f.initializer n₁)
    (hcondition : ReadsOption n₁ c.condition f.condition n₂)
    (hincrement : ReadsOption n₂ c.increment f.increment n₃)
    (hbody : Reads n₃ (.statement o s) f.body n₄) :
    Reads n (.statement o (c.loop s)) f.tokens n₄ := by
  have hclauses : ReadsForClauses n c
      (.ofSymbol .leftParen :: (f.initializer ++ (f.condition ++
        .ofSymbol .semicolon :: (f.increment ++ [.ofSymbol .rightParen])))) n₃ :=
    .intro hinitializer hcondition hincrement
  have hloop := Reads.for (l := 0) hclauses hbody
  simp only [List.append_assoc, List.cons_append, List.nil_append] at hloop
  exact hloop

theorem reads_whileCondition
    (h : ReadsOption n c.condition f.condition n₁) :
    Expr.Reads n (.expr (.rank .assignment)
      (c.condition.getD (.literal (.bool true)))) f.whileCondition n₁ := by
  obtain ⟨_, condition, _, _⟩ := f
  obtain ⟨_, v, _⟩ := c
  cases h with
  | none => exact .of_call (.literal rfl)
  | some h =>
    obtain ⟨t, w, rfl, -⟩ := h.head
    exact h

theorem reads_whileBody (hbody : Reads n (.statement o s) f.body n₁)
    (hincrement : ReadsOption n₁ c.increment f.increment n₂) :
    ∃ o', Reads n (.statement o' (c.repeated s)) f.whileBody n₂ := by
  obtain ⟨_, _, increment, body⟩ := f
  obtain ⟨_, _, v⟩ := c
  cases hincrement with
  | none => exact ⟨o, hbody⟩
  | some h =>
    obtain ⟨t, w, rfl, -⟩ := h.head
    have hlist := Reads.snoc (.snoc .nil (.statement hbody))
      (.statement (.expression (.intro (l := 0) h)))
    have hblock := reads_braces hlist
    refine ⟨false, ?_⟩
    simp only [List.append_assoc, List.cons_append, List.nil_append] at hblock
    exact hblock

theorem reads_whileLoop
    (hcondition : ReadsOption n c.condition f.condition n₁)
    (hbody : Reads n₁ (.statement o s) f.body n₂)
    (hincrement : ReadsOption n₂ c.increment f.increment n₃) :
    ∃ o', Reads n (.statement o' (c.whileLoop s)) f.whileLoop n₃ := by
  obtain ⟨o', hrepeated⟩ := reads_whileBody hbody hincrement
  have hparens : ReadsCondition n (c.condition.getD (.literal (.bool true)))
      (.ofSymbol .leftParen :: (f.whileCondition ++ [.ofSymbol .rightParen]))
      n₁ := .intro (reads_whileCondition hcondition)
  have hloop := Reads.while (l := 0) hparens hrepeated
  refine ⟨o', ?_⟩
  simp only [List.append_assoc, List.cons_append, List.nil_append] at hloop
  exact hloop

/-- An initializer that is not missing is a declaration or a statement of its
own, and is not read from a lone semicolon. -/
theorem reads_initializer {initializer : Stmt}
    (h : ReadsForInitializer n (some initializer) f.initializer n₁) :
    f.isBare = false ∧
      Reads n (.declaration false initializer) f.initializer n₁ := by
  obtain ⟨w, _, _, _⟩ := f
  cases h with
  | var h => exact ⟨rfl, .var h⟩
  | expression h =>
    refine ⟨?_, .statement (.expression h)⟩
    obtain ⟨t, w', rfl, ht⟩ := h.head
    simp only [isBare]
    split
    · next heq => cases heq; cases ht
    · rfl

/-- The expansion: the same loop, with the increment behind the body. -/
theorem reads_expansion
    (hinitializer : ReadsForInitializer n c.initializer f.initializer n₁)
    (hcondition : ReadsOption n₁ c.condition f.condition n₂)
    (hbody : Reads n₂ (.statement o s) f.body n₃)
    (hincrement : ReadsOption n₃ c.increment f.increment n₄) :
    ∃ o', Reads n (.statement o' (c.loop s)) f.expansion n₄ := by
  obtain ⟨o', hloop⟩ := reads_whileLoop hcondition hbody hincrement
  rw [ForClauses.loop_eq]
  cases hclause : c.initializer with
  | none =>
    rw [hclause] at hinitializer
    have hbare : f.isBare = true ∧ n₁ = n := by
      obtain ⟨w, _, _, _⟩ := f
      cases hinitializer with
      | none => exact ⟨rfl, rfl⟩
    obtain ⟨hbare, rfl⟩ := hbare
    rw [expansion, if_pos hbare]
    exact ⟨o', hloop⟩
  | some initializer =>
    rw [hclause] at hinitializer
    obtain ⟨hbare, hfirst⟩ := reads_initializer hinitializer
    have hblock := reads_braces (.snoc (.snoc .nil hfirst) (.statement hloop))
    refine ⟨false, ?_⟩
    rw [expansion, hbare]
    simp only [List.append_assoc, List.nil_append] at hblock
    exact hblock

end ForLoop

/-! ## How the parts are written -/

/-- Whether the statement can stand first in a `for`. -/
def isInitializer : Stmt → Bool
  | .var _ _ => true
  | .expression _ => true
  | _ => false

/-- Whether the statement can only stand in a list of declarations. -/
def isDeclaration : Stmt → Bool
  | .var _ _ => true
  | .function _ => true
  | .class _ => true
  | _ => false

/-- The tokens alone are read, without a fault, as one statement or declaration
and nothing else, and it is one of those that are meant. -/
def IsOne (meant : Stmt → Bool) (w : List Token) : Prop :=
  ∃ endLine n n' s, parse (.ofTokens w endLine) n = ⟨[s], [], n'⟩ ∧
    meant s = true

/-- There are no tokens, or they alone are read, without a fault, as one
expression and nothing else. -/
def IsClause (w : List Token) : Prop :=
  w = [] ∨ ∃ endLine n n' e,
    Expr.parse (.ofTokens w endLine) n = ⟨.ok e, n'⟩

/-- The initializer is a lone semicolon, a variable declaration or an
expression statement, condition and increment are expressions or missing, and
the body is one statement. -/
structure ForLoop.IsWritten (f : ForLoop) : Prop where
  initializer : (∃ line, f.initializer = [⟨.symbol .semicolon, line⟩]) ∨
    IsOne isInitializer f.initializer
  condition : IsClause f.condition
  increment : IsClause f.increment
  body : IsOne (fun s => !s.isDeclaration) f.body

section

variable {n n' : Nat} {w : List Token} {o : Bool} {s : Stmt}

theorem Reads.nil_inv (h : Reads n (.declarations []) w n') :
    w = [] ∧ n' = n := by
  generalize hphrase : Phrase.declarations [] = phrase at h
  cases h with
  | nil => exact ⟨rfl, rfl⟩
  | snoc =>
    simp only [Phrase.declarations.injEq] at hphrase
    exact absurd hphrase.symm (List.append_ne_nil_of_right_ne_nil _ (by simp))
  | _ => cases hphrase

/-- A list with one declaration is read like the declaration. -/
theorem Reads.singleton_inv (h : Reads n (.declarations [s]) w n') :
    ∃ o, Reads n (.declaration o s) w n' := by
  generalize hphrase : Phrase.declarations [s] = phrase at h
  cases h with
  | @snoc _ list w₁ n₁ o s' w₂ _ earlier last =>
    have hlists : [] ++ [s] = list ++ [s'] := Phrase.declarations.inj hphrase
    obtain ⟨hlist, hs⟩ := List.append_inj' hlists rfl
    cases hs
    rw [← hlist] at earlier
    obtain ⟨rfl, rfl⟩ := earlier.nil_inv
    exact ⟨o, last⟩
  | _ => cases hphrase

theorem ForClauses.isInitializer_loop (clauses : ForClauses) (body : Stmt) :
    (clauses.loop body).isInitializer = false := by
  rcases clauses with ⟨_ | initializer, condition, increment⟩ <;> rfl

/-- A declaration that can stand first in a `for` is read there. -/
theorem Reads.initializer_inv (h : Reads n (.declaration o s) w n')
    (hs : s.isInitializer = true) : ReadsForInitializer n (some s) w n' := by
  cases h with
  | var h => exact .var h
  | function | «class» => cases hs
  | statement inner =>
    cases inner with
    | expression h => exact .expression h
    | print h | «return» h => cases h; cases hs
    | block | ifThen | ifElse | «while» => cases hs
    | «for» h body =>
      rw [ForClauses.isInitializer_loop] at hs
      cases hs

/-- A declaration that can stand elsewhere is a statement. -/
theorem Reads.statement_inv (h : Reads n (.declaration o s) w n')
    (hs : (!s.isDeclaration) = true) : Reads n (.statement o s) w n' := by
  cases h with
  | var h => cases h <;> cases hs
  | function | «class» => cases hs
  | statement inner => exact inner

theorem IsOne.reads {meant : Stmt → Bool} (h : IsOne meant w) :
    ∃ n n' o s, Reads n (.declaration o s) w n' ∧ meant s = true := by
  obtain ⟨endLine, n, n', s, hparse, hs⟩ := h
  have hreads := parse_eq_iff.1 hparse
  rw [Token.Scan.tokens_ofTokens] at hreads
  obtain ⟨o, hreads⟩ := hreads.singleton_inv
  exact ⟨n, n', o, s, hreads, hs⟩

theorem IsClause.reads (h : IsClause w) : ∃ n n' v, ReadsOption n v w n' := by
  obtain rfl | ⟨endLine, n, n', e, hparse⟩ := h
  · exact ⟨0, 0, none, .none⟩
  · have hreads := Expr.parse_eq_iff.1 hparse
    rw [Token.Scan.tokens_ofTokens] at hreads
    exact ⟨n, n', some e, .some hreads⟩

end

end Stmt

end Lox
