import Lox.Proofs.Expr.Acceptance
import Lox.Proofs.Stmt.Reading

/-!
# What the reader accepts

The reader accepts exactly the programs of the grammar.  Both sides are
compared with the phrases: a phrase that is read is derived, by induction over
the reading, and the phrases are a reading of the grammar that is closed under
its productions, so that what is derived is read.

The grammar does not say to which `if` an `else` belongs; the phrases do.  So
a derivation may put an `else` elsewhere than the reader does, and
`Reads.attach` moves it: an open statement and an `else` behind it are
together a statement.
-/

namespace Lox.Stmt

open Grammar

variable {n n' : Nat} {w : List Token}

/-! ## Parts -/

theorem derivable_of_reads {e : Expr}
    (h : Expr.Reads n (.expr (.rank .assignment) e) w n') :
    Derivable .expression w :=
  Expr.derivable_expression (Expr.derived_of_reads h)

theorem derivable_varDecl {s : Stmt} (h : ReadsVar n s w n') (l : Nat) :
    Derivable .varDecl (⟨.keyword .kwVar, l⟩ :: w) := by
  refine derivable_iff.2 (holds_word_cons.2 ⟨l, _, rfl, ?_⟩)
  cases h with
  | @plain x line l' =>
    exact holds_ident_cons.2 ⟨x, line, _, rfl, [], _, rfl, .inl rfl,
      holds_single.2 (holds_sym.2 ⟨l', rfl⟩)⟩
  | @initialized x line l' e w _ l'' value =>
    refine holds_ident_cons.2 ⟨x, line, _, rfl, ⟨.symbol .equal, l'⟩ :: w, _,
      rfl, .inr ?_, holds_single.2 (holds_sym.2 ⟨l'', rfl⟩)⟩
    exact holds_sym_cons.2 ⟨l', w, rfl, holds_single.2 (derivable_of_reads value)⟩

theorem derivable_exprStmt {s : Stmt}
    (h : ReadsExpression .expression n s w n') : Derivable .exprStmt w := by
  obtain ⟨h⟩ := h
  exact derivable_iff.2 ⟨_, _, rfl, derivable_of_reads h,
    holds_single.2 (holds_sym.2 ⟨_, rfl⟩)⟩

theorem holds_of_readsOption {v : Option Expr} (h : ReadsOption n v w n') :
    (Rule.opt (.ref .expression)).Holds Derivable w := by
  cases h with
  | none => exact .inl rfl
  | some h => exact .inr (derivable_of_reads h)

/-- Parameters that are read are those of the grammar. -/
theorem derivable_parameters :
    Derivable .parameters w ↔
      ∃ params, ReadsParams params w ∧ params.length ≤ maxArity := by
  constructor
  · intro h
    obtain ⟨u, v, rfl, hu, hv⟩ := derivable_iff.1 h
    obtain ⟨x, line, rfl⟩ := holds_ident.1 hu
    obtain ⟨ws, rfl, hlength, hws⟩ := holds_single.1 hv
    have hall : ∀ x line, ∃ params, ReadsParams params
        ([⟨.identifier x, line⟩] ++ ws.flatten) ∧
        params.length = ws.length + 1 := by
      clear hu hv h hlength
      intro x line
      induction ws generalizing x line with
      | nil => exact ⟨_, .one, rfl⟩
      | cons v ws ih =>
        obtain ⟨hv, hrest⟩ := List.forall_mem_cons.1 hws
        obtain ⟨l, y, rfl, hy⟩ := holds_sym_cons.1 hv
        obtain ⟨x', line', rfl⟩ := holds_ident.1 (holds_single.1 hy)
        obtain ⟨params, hparams, hlength⟩ := ih hrest x' line'
        exact ⟨_, .more hparams, by simp [hlength]⟩
    obtain ⟨params, hparams, hlength'⟩ := hall x line
    have : 0 < maxArity := by decide
    exact ⟨params, hparams, by omega⟩
  · rintro ⟨params, hparams, hroom⟩
    have hall : ∃ x line ws, w = [⟨.identifier x, line⟩] ++ List.flatten ws ∧
        params.length = ws.length + 1 ∧
        ∀ v ∈ ws, (Rule.all [.sym .comma, .ident]).Holds Derivable v := by
      clear hroom
      induction hparams with
      | @one x line => exact ⟨x, line, [], rfl, rfl, by simp⟩
      | @more x line l params w rest ih =>
        obtain ⟨x', line', ws, rfl, hlength, hws⟩ := ih
        refine ⟨x, line, [⟨.symbol .comma, l⟩, ⟨.identifier x', line'⟩] :: ws,
          rfl, by simp [hlength], List.forall_mem_cons.2 ⟨?_, hws⟩⟩
        exact holds_sym_cons.2 ⟨l, _, rfl,
          holds_single.2 (holds_ident.2 ⟨x', line', rfl⟩)⟩
    obtain ⟨x, line, ws, rfl, hlength, hws⟩ := hall
    exact derivable_iff.2 ⟨_, _, rfl, holds_ident.2 ⟨x, line, rfl⟩,
      holds_single.2 ⟨ws, rfl, by omega, hws⟩⟩

/-- A header that is read is an identifier, a parameter list and a brace; a
method may go without the list. -/
theorem exists_readsHeader {kind : FunctionKind} :
    (∃ header, ReadsHeader kind header w) ↔
      ∃ x line p l, w = ⟨.identifier x, line⟩ :: (p ++
          [⟨.symbol .leftBrace, l⟩]) ∧
        (kind = .method ∧ p = [] ∨
          (Rule.parens .parameters).Holds Derivable p) := by
  constructor
  · rintro ⟨header, h⟩
    cases h with
    | @getter x line l hkind => exact ⟨x, line, [], l, rfl, .inl ⟨hkind, rfl⟩⟩
    | @empty x line l l' l'' =>
      refine ⟨x, line, [_, _], l'', rfl, .inr ?_⟩
      exact holds_sym_cons.2 ⟨l, _, rfl, [], _, rfl, .inl rfl,
        holds_single.2 (holds_sym.2 ⟨l', rfl⟩)⟩
    | @params x line l params w l' l'' list room =>
      refine ⟨x, line, ⟨.symbol .leftParen, l⟩ ::
        (w ++ [⟨.symbol .rightParen, l'⟩]), l'', by simp, .inr ?_⟩
      exact holds_sym_cons.2 ⟨l, _, rfl, w, _, rfl,
        .inr (derivable_parameters.2 ⟨params, list, room⟩),
        holds_single.2 (holds_sym.2 ⟨l', rfl⟩)⟩
  · rintro ⟨x, line, p, l, rfl, (⟨hkind, rfl⟩ | hp)⟩
    · exact ⟨_, .getter hkind⟩
    · obtain ⟨l', y, rfl, u, v, rfl, hu, hv⟩ := holds_sym_cons.1 hp
      obtain ⟨l'', rfl⟩ := holds_sym.1 (holds_single.1 hv)
      rcases hu with (rfl | hu)
      · exact ⟨_, .empty⟩
      · obtain ⟨params, hparams, hroom⟩ := derivable_parameters.1 hu
        simp only [List.cons_append, List.append_assoc]
        exact ⟨_, .params hparams hroom⟩

/-! ## Statements that are read are derived -/

/-- The tokens of the phrase are derived. -/
def Phrase.Derived (w : List Token) : Phrase → Prop
  | .declarations _ => (Rule.star (.ref .declaration)).Holds Derivable w
  | .declaration _ _ => Derivable .declaration w
  | .statement _ _ => Derivable .statement w
  | .members _ => (Rule.star (.ref .member)).Holds Derivable w

theorem derivable_declaration {A : Nonterminal} (h : Derivable A w)
    (hA : A ∈ [Nonterminal.classDecl, .funDecl, .varDecl, .statement]) :
    Derivable .declaration w :=
  derivable_iff.2 (holds_any.2 ⟨.ref A, List.mem_map.2 ⟨A, hA, rfl⟩, h⟩)

theorem derivable_statement {A : Nonterminal} (h : Derivable A w)
    (hA : A ∈ [Nonterminal.exprStmt, .forStmt, .ifStmt, .printStmt,
      .returnStmt, .whileStmt, .block]) : Derivable .statement w :=
  derivable_iff.2 (holds_any.2 ⟨.ref A, List.mem_map.2 ⟨A, hA, rfl⟩, h⟩)

theorem derivable_block (h : (Rule.star (.ref .declaration)).Holds Derivable w)
    (l l' : Nat) :
    Derivable .block
      (⟨.symbol .leftBrace, l⟩ :: (w ++ [⟨.symbol .rightBrace, l'⟩])) :=
  derivable_iff.2 (holds_sym_cons.2 ⟨l, _, rfl, w, _, rfl, h,
    holds_single.2 (holds_sym.2 ⟨l', rfl⟩)⟩)

/-- An identifier, what stands behind it and a body. -/
theorem holds_routine {r : Rule} {p : List Token}
    (hp : r.Holds Derivable p)
    (hbody : (Rule.star (.ref .declaration)).Holds Derivable w) (x : String)
    (line l l' : Nat) :
    (Rule.all [.ident, r, .ref .block]).Holds Derivable
      ((⟨.identifier x, line⟩ :: (p ++ [⟨.symbol .leftBrace, l⟩])) ++
        (w ++ [⟨.symbol .rightBrace, l'⟩])) := by
  have hblock := derivable_block hbody l l'
  rw [List.cons_append, List.append_assoc]
  exact holds_ident_cons.2 ⟨x, line, _, rfl, p, _, rfl, hp,
    holds_single.2 hblock⟩

theorem derivable_member {header : Header} {w' : List Token}
    (h : ReadsMemberHeader header w)
    (hbody : (Rule.star (.ref .declaration)).Holds Derivable w') (l : Nat) :
    Derivable .member (w ++ (w' ++ [⟨.symbol .rightBrace, l⟩])) := by
  refine derivable_iff.2 (holds_any.2 ?_)
  cases h with
  | method h =>
    obtain ⟨x, line, p, l', rfl, hp⟩ := exists_readsHeader.1 ⟨_, h⟩
    have hopt : (Rule.opt (.parens .parameters)).Holds Derivable p := by
      rcases hp with (⟨-, rfl⟩ | hp)
      · exact .inl rfl
      · exact .inr hp
    exact ⟨_, List.mem_cons_of_mem _ (List.mem_singleton.2 rfl),
      holds_routine hopt hbody x line l' l⟩
  | @static w l'' h =>
    obtain ⟨x, line, p, l', rfl, (⟨hkind, -⟩ | hp)⟩ :=
      exists_readsHeader.1 ⟨_, h⟩
    · cases hkind
    · exact ⟨_, List.mem_cons_self, holds_word_cons.2 ⟨l'', _, rfl,
        holds_routine hp hbody x line l' l⟩⟩

theorem derivable_funDecl {header : Header} {w' : List Token}
    (h : ReadsHeader .function header w)
    (hbody : (Rule.star (.ref .declaration)).Holds Derivable w') (l l' : Nat) :
    Derivable .funDecl (⟨.keyword .kwFun, l⟩ ::
      (w ++ (w' ++ [⟨.symbol .rightBrace, l'⟩]))) := by
  obtain ⟨x, line, p, l'', rfl, (⟨hkind, -⟩ | hp)⟩ :=
    exists_readsHeader.1 ⟨_, h⟩
  · cases hkind
  · exact derivable_iff.2 (holds_word_cons.2 ⟨l, _, rfl,
      holds_routine hp hbody x line l'' l'⟩)

theorem derivable_classDecl {head : ClassHead} {w' : List Token}
    (h : ReadsClassHead n head w n')
    (hmembers : (Rule.star (.ref .member)).Holds Derivable w') (l l' : Nat) :
    Derivable .classDecl (⟨.keyword .kwClass, l⟩ ::
      (w ++ (w' ++ [⟨.symbol .rightBrace, l'⟩]))) := by
  refine derivable_iff.2 (holds_word_cons.2 ⟨l, _, rfl, ?_⟩)
  -- The members and the brace behind them are the same in both cases.
  have htail : (Rule.all [.star (.ref .member), .sym .rightBrace]).Holds
      Derivable (w' ++ [⟨.symbol .rightBrace, l'⟩]) :=
    ⟨w', _, rfl, hmembers, holds_single.2 (holds_sym.2 ⟨l', rfl⟩)⟩
  cases h with
  | @base x line l'' =>
    exact holds_ident_cons.2 ⟨x, line, _, rfl, [], _, rfl, .inl rfl,
      holds_sym_cons.2 ⟨l'', _, rfl, htail⟩⟩
  | @derived x line l'' parent line' l₃ =>
    refine holds_ident_cons.2 ⟨x, line, _, rfl,
      [⟨.symbol .less, l''⟩, ⟨.identifier parent, line'⟩], _, rfl, .inr ?_,
      holds_sym_cons.2 ⟨l₃, _, rfl, htail⟩⟩
    exact holds_sym_cons.2 ⟨l'', _, rfl,
      holds_single.2 (holds_ident.2 ⟨parent, line', rfl⟩)⟩

/-- A condition in parentheses and what stands behind it. -/
theorem holds_condition {condition : Expr} {list : List Rule}
    {w' : List Token} (h : ReadsCondition n condition w n')
    (hlist : (Rule.all list).Holds Derivable w') :
    (Rule.all (.sym .leftParen :: .ref .expression :: .sym .rightParen ::
      list)).Holds Derivable (w ++ w') := by
  obtain ⟨h⟩ := h
  rw [List.cons_append, List.append_assoc]
  exact holds_sym_cons.2 ⟨_, _, rfl, _, _, rfl, derivable_of_reads h,
    holds_sym_cons.2 ⟨_, _, rfl, hlist⟩⟩

theorem derivable_forStmt {clauses : ForClauses} {w' : List Token}
    (h : ReadsForClauses n clauses w n') (hbody : Derivable .statement w')
    (l : Nat) : Derivable .forStmt (⟨.keyword .kwFor, l⟩ :: (w ++ w')) := by
  refine derivable_iff.2 (holds_word_cons.2 ⟨l, _, rfl, ?_⟩)
  obtain ⟨first, second, third⟩ := h
  have hfirst : ∀ {n s w n'}, ReadsForInitializer n s w n' →
      (Rule.any [.ref .varDecl, .ref .exprStmt, .sym .semicolon]).Holds
        Derivable w := by
    intro n s w n' hfirst
    cases hfirst with
    | none => exact .inr (.inr (.inl (holds_sym.2 ⟨_, rfl⟩)))
    | var hvar => exact .inl (derivable_varDecl hvar _)
    | expression he => exact .inr (.inl (derivable_exprStmt he))
  simp only [List.cons_append, List.append_assoc, List.nil_append]
  exact holds_sym_cons.2 ⟨_, _, rfl, _, _, rfl, hfirst first, _, _, rfl,
    holds_of_readsOption second, holds_sym_cons.2 ⟨_, _, rfl, _, _, rfl,
      holds_of_readsOption third, holds_sym_cons.2 ⟨_, _, rfl,
        holds_single.2 hbody⟩⟩⟩

/-- What is read is derived. -/
theorem derived_of_reads {phrase : Phrase} (h : Reads n phrase w n') :
    phrase.Derived w := by
  induction h with
  | nil | noMember => exact ⟨[], rfl, by simp⟩
  | snoc earlier last ihearlier ihlast =>
    exact holds_star_snoc ihearlier ihlast
  | statement inner ih => exact derivable_declaration ih (by simp)
  | var h => exact derivable_declaration (derivable_varDecl h _) (by simp)
  | function head body ih =>
    exact derivable_declaration (derivable_funDecl head ih _ _) (by simp)
  | «class» h members ih =>
    exact derivable_declaration (derivable_classDecl h ih _ _) (by simp)
  | member earlier head inner ihearlier ihinner =>
    exact holds_star_snoc ihearlier (derivable_member head ihinner _)
  | expression h => exact derivable_statement (derivable_exprStmt h) (by simp)
  | @print n s w n' l h =>
    obtain ⟨h⟩ := h
    refine derivable_statement (A := .printStmt) ?_ (by simp)
    exact derivable_iff.2 (holds_word_cons.2 ⟨l, _, rfl, _, _, rfl,
      derivable_of_reads h, holds_single.2 (holds_sym.2 ⟨_, rfl⟩)⟩)
  | @«return» n line s w n' h =>
    obtain ⟨h⟩ := h
    refine derivable_statement (A := .returnStmt) ?_ (by simp)
    exact derivable_iff.2 (holds_word_cons.2 ⟨line, _, rfl, _, _, rfl,
      holds_of_readsOption h, holds_single.2 (holds_sym.2 ⟨_, rfl⟩)⟩)
  | block body ih => exact derivable_statement (derivable_block ih _ _) (by simp)
  | @ifThen n condition w n₁ o s w' n₂ l h thenBranch ih =>
    refine derivable_statement (A := .ifStmt) ?_ (by simp)
    refine derivable_iff.2 (holds_word_cons.2 ⟨l, _, rfl,
      holds_condition h ⟨w', [], by rw [List.append_nil], ih, ?_⟩⟩)
    exact holds_single.2 (.inl rfl)
  | @ifElse n condition w n₁ s w₁ n₂ o s' w₂ n₃ l l' h thenBranch elseBranch
      ihthen ihelse =>
    refine derivable_statement (A := .ifStmt) ?_ (by simp)
    refine derivable_iff.2 (holds_word_cons.2 ⟨l, _, rfl,
      holds_condition h ⟨w₁, _, rfl, ihthen, ?_⟩⟩)
    exact holds_single.2 (.inr (holds_word_cons.2 ⟨l', w₂, rfl,
      holds_single.2 ihelse⟩))
  | @«while» n condition w n₁ o s w' n₂ l h body ih =>
    refine derivable_statement (A := .whileStmt) ?_ (by simp)
    exact derivable_iff.2 (holds_word_cons.2 ⟨l, _, rfl,
      holds_condition h (holds_single.2 ih)⟩)
  | «for» h body ih => exact derivable_statement (derivable_forStmt h ih _) (by simp)

/-! ## Statements that are derived are read -/

/-- An open statement and an `else` behind it are together a statement. -/
theorem Reads.attach {n'' : Nat} {s s' : Stmt} {o : Bool} {w' : List Token}
    (h : Reads n (.statement true s) w n')
    (h' : Reads n' (.statement o s') w' n'') (l : Nat) :
    ∃ o' r, Reads n (.statement o' r) (w ++ ⟨.keyword .kwElse, l⟩ :: w') n'' := by
  generalize hphrase : Phrase.statement true s = phrase at h
  induction h generalizing s with
  | nil | snoc | statement | var | function | «class» | noMember | member
  | expression | print | «return» | block => cases hphrase
  | @ifThen n condition w n₁ o₁ s₁ w₁ n₂ l' hcondition thenBranch ih =>
    simp only [List.cons_append, List.append_assoc]
    -- The `else` goes to the innermost `if` that has none.
    cases o₁ with
    | false => exact ⟨_, _, .ifElse hcondition thenBranch h'⟩
    | true =>
      obtain ⟨o', r, hr⟩ := ih h' rfl
      exact ⟨_, _, .ifThen hcondition hr⟩
  | ifElse hcondition thenBranch elseBranch ihthen ihelse =>
    cases hphrase
    obtain ⟨o', r, hr⟩ := ihelse h' rfl
    simp only [List.cons_append, List.append_assoc]
    exact ⟨_, _, .ifElse hcondition thenBranch hr⟩
  | «while» hcondition body ih =>
    cases hphrase
    obtain ⟨o', r, hr⟩ := ih h' rfl
    simp only [List.cons_append, List.append_assoc]
    exact ⟨_, _, .while hcondition hr⟩
  | «for» hclauses body ih =>
    cases hphrase
    obtain ⟨o', r, hr⟩ := ih h' rfl
    simp only [List.cons_append, List.append_assoc]
    exact ⟨_, _, .for hclauses hr⟩

/-- The tokens are read as declarations, from any id on. -/
def ReadAll (w : List Token) : Prop :=
  ∀ n, ∃ list n', Reads n (.declarations list) w n'

/-- The tokens are read as a declaration, from any id on. -/
def ReadDeclaration (w : List Token) : Prop :=
  ∀ n, ∃ o s n', Reads n (.declaration o s) w n'

/-- The tokens are read as a statement, from any id on. -/
def ReadStatement (w : List Token) : Prop :=
  ∀ n, ∃ o s n', Reads n (.statement o s) w n'

/-- How the phrases read the nonterminals of statements. -/
def Means : Nonterminal → List Token → Prop
  | .program => ReadAll
  | .declaration | .classDecl | .funDecl => ReadDeclaration
  | .varDecl => fun w => ∃ l v, w = ⟨.keyword .kwVar, l⟩ :: v ∧
    ∀ n, ∃ s n', ReadsVar n s v n'
  | .statement | .forStmt | .ifStmt | .printStmt | .returnStmt
  | .whileStmt => ReadStatement
  | .exprStmt => fun w => ∀ n, ∃ s n', ReadsExpression .expression n s w n'
  | .block => fun w => ∃ l v l', w = ⟨.symbol .leftBrace, l⟩ ::
    (v ++ [⟨.symbol .rightBrace, l'⟩]) ∧ ReadAll v
  | .member => fun w => ∃ u v l, w = u ++ (v ++ [⟨.symbol .rightBrace, l⟩]) ∧
    (∃ header, ReadsMemberHeader header u) ∧ ReadAll v
  | _ => fun _ => True

/-- Derived, and read by the phrases. -/
def Both (A : Nonterminal) (w : List Token) : Prop :=
  Derivable A w ∧ Means A w

theorem readAll_of_holds (h : (Rule.star (.ref .declaration)).Holds Both w) :
    ReadAll w := by
  obtain ⟨ws, rfl, hws⟩ := h
  have hall := extend (P := fun _ => ReadAll) (k := 0) (u := []) ?_ ?_ hws
  · exact hall
  · intro k u v hu hv n
    obtain ⟨list, n₁, hlist⟩ := hu n
    obtain ⟨o, s, n₂, hs⟩ := hv.2 n₁
    exact ⟨_, n₂, .snoc hlist hs⟩
  · exact fun n => ⟨[], n, .nil⟩

theorem exists_readsOption
    (h : (Rule.opt (.ref .expression)).Holds Both w) (n : Nat) :
    ∃ v n', ReadsOption n v w n' := by
  rcases h with (rfl | h)
  · exact ⟨none, n, .none⟩
  · obtain ⟨e, n', he⟩ := Expr.derivable_expression_iff.1 h.1 n
    exact ⟨some e, n', .some he⟩

/-- A condition in parentheses, and what is behind it. -/
theorem exists_readsCondition {list : List Rule}
    (h : (Rule.all (.sym .leftParen :: .ref .expression :: .sym .rightParen ::
      list)).Holds Both w) :
    ∃ u v, w = u ++ v ∧ (∀ n, ∃ e n', ReadsCondition n e u n') ∧
      (Rule.all list).Holds Both v := by
  obtain ⟨l, x, rfl, y, z, rfl, hy, hz⟩ := holds_sym_cons.1 h
  obtain ⟨l', v, rfl, hv⟩ := holds_sym_cons.1 hz
  refine ⟨⟨.symbol .leftParen, l⟩ :: (y ++ [⟨.symbol .rightParen, l'⟩]), v,
    by simp, ?_, hv⟩
  intro n
  obtain ⟨e, n', he⟩ := Expr.derivable_expression_iff.1 hy.1 n
  exact ⟨e, n', .intro he⟩

/-- An identifier, what stands behind it and a body, as a header that ends
with the brace of the body. -/
theorem routine_of_holds {r : Rule} (h : (Rule.all [.ident, r, .ref .block]).Holds
      Both w) :
    ∃ x line p l v l', w = (⟨.identifier x, line⟩ ::
        (p ++ [⟨.symbol .leftBrace, l⟩])) ++ (v ++ [⟨.symbol .rightBrace, l'⟩]) ∧
      r.Holds Derivable p ∧ ReadAll v := by
  obtain ⟨x, line, y, rfl, p, z, rfl, hp, hz⟩ := holds_ident_cons.1 h
  obtain ⟨l, v, l', rfl, hv⟩ := (holds_single.1 hz).2
  exact ⟨x, line, p, l, v, l', by simp, hp.mono fun _ _ h => h.1, hv⟩

theorem means_member (h : Nonterminal.member.rule.Holds Both w) :
    Means .member w := by
  rcases h with (h | h | h)
  · obtain ⟨l'', y, rfl, hy⟩ := holds_word_cons.1 h
    obtain ⟨x, line, p, l, v, l', rfl, hp, hv⟩ := routine_of_holds hy
    obtain ⟨header, hheader⟩ := exists_readsHeader.2
      ⟨x, line, p, l, rfl, .inr hp⟩
    exact ⟨_, v, l', rfl, ⟨header, .static hheader⟩, hv⟩
  · obtain ⟨x, line, p, l, v, l', rfl, hp, hv⟩ := routine_of_holds h
    obtain ⟨header, hheader⟩ : ∃ header, ReadsHeader .method header
        (⟨.identifier x, line⟩ :: (p ++ [⟨.symbol .leftBrace, l⟩])) := by
      refine exists_readsHeader.2 ⟨x, line, p, l, rfl, ?_⟩
      rcases hp with (rfl | hp)
      · exact .inl ⟨rfl, rfl⟩
      · exact .inr hp
    exact ⟨_, v, l', rfl, ⟨header, .method hheader⟩, hv⟩
  · cases h

theorem means_funDecl (h : Nonterminal.funDecl.rule.Holds Both w) :
    ReadDeclaration w := by
  intro n
  obtain ⟨l'', y, rfl, hy⟩ := holds_word_cons.1 h
  obtain ⟨x, line, p, l, v, l', rfl, hp, hv⟩ := routine_of_holds hy
  obtain ⟨header, hheader⟩ := exists_readsHeader.2
    ⟨x, line, p, l, rfl, .inr hp⟩
  obtain ⟨list, n', hlist⟩ := hv n
  exact ⟨_, _, n', .function hheader hlist⟩

theorem means_classDecl (h : Nonterminal.classDecl.rule.Holds Both w) :
    ReadDeclaration w := by
  intro n
  obtain ⟨l, x, rfl, hx⟩ := holds_word_cons.1 h
  obtain ⟨name, line, y, rfl, u, v, rfl, hu, hv⟩ := holds_ident_cons.1 hx
  obtain ⟨l', z, rfl, p, q, rfl, hp, hq⟩ := holds_sym_cons.1 hv
  obtain ⟨l'', rfl⟩ := holds_sym.1 (holds_single.1 hq)
  obtain ⟨head, n₁, hhead⟩ : ∃ head n', ReadsClassHead n head
      (⟨.identifier name, line⟩ :: (u ++ [⟨.symbol .leftBrace, l'⟩])) n' := by
    rcases hu with (rfl | hu)
    · exact ⟨_, n, .base⟩
    · obtain ⟨l₁, y, rfl, hy⟩ := holds_sym_cons.1 hu
      obtain ⟨parent, line', rfl⟩ := holds_ident.1 (holds_single.1 hy)
      exact ⟨_, n + 1, .derived⟩
  -- The members are read one after another, from the id behind the head on.
  obtain ⟨ws, rfl, hws⟩ := hp
  have hmembers : ∀ n, ∃ list n', Reads n (.members list) ([] ++ ws.flatten) n' := by
    refine extend (P := fun _ w => ∀ n, ∃ list n', Reads n (.members list) w n')
      (k := 0) ?_ (fun n => ⟨[], n, .noMember⟩) hws
    intro k u v hu hv n
    obtain ⟨list, n₁, hlist⟩ := hu n
    obtain ⟨x, y, l, rfl, ⟨header, hheader⟩, hy⟩ := hv.2
    obtain ⟨body, n₂, hbody⟩ := hy n₁
    exact ⟨_, n₂, .member hlist hheader hbody⟩
  obtain ⟨list, n₂, hlist⟩ := hmembers n₁
  have hread : Reads n (.declaration false
        (.class ⟨head.name, head.superclass, list⟩))
      (⟨.keyword .kwClass, l⟩ :: ((⟨.identifier name, line⟩ ::
        (u ++ [⟨.symbol .leftBrace, l'⟩])) ++ (([] ++ ws.flatten) ++
          [⟨.symbol .rightBrace, l''⟩]))) n₂ := .class hhead hlist
  simp only [List.nil_append, List.cons_append, List.append_assoc] at hread
  exact ⟨_, _, n₂, hread⟩

theorem means_varDecl (h : Nonterminal.varDecl.rule.Holds Both w) :
    Means .varDecl w := by
  obtain ⟨l, x, rfl, hx⟩ := holds_word_cons.1 h
  refine ⟨l, x, rfl, fun n => ?_⟩
  obtain ⟨name, line, y, rfl, u, v, rfl, hu, hv⟩ := holds_ident_cons.1 hx
  obtain ⟨l', rfl⟩ := holds_sym.1 (holds_single.1 hv)
  rcases hu with (rfl | hu)
  · exact ⟨_, n, .plain⟩
  · obtain ⟨l'', z, rfl, hz⟩ := holds_sym_cons.1 hu
    obtain ⟨e, n', he⟩ :=
      Expr.derivable_expression_iff.1 (holds_single.1 hz).1 n
    exact ⟨_, n', .initialized he⟩

theorem means_exprStmt (h : Nonterminal.exprStmt.rule.Holds Both w) (n : Nat) :
    ∃ s n', ReadsExpression .expression n s w n' := by
  obtain ⟨u, v, rfl, hu, hv⟩ := h
  obtain ⟨l, rfl⟩ := holds_sym.1 (holds_single.1 hv)
  obtain ⟨e, n', he⟩ := Expr.derivable_expression_iff.1 hu.1 n
  exact ⟨_, n', .intro he⟩

theorem means_forStmt (h : Nonterminal.forStmt.rule.Holds Both w) :
    ReadStatement w := by
  intro n
  obtain ⟨l, x, rfl, hx⟩ := holds_word_cons.1 h
  obtain ⟨l', y, rfl, w₀, z, rfl, h₀, hz⟩ := holds_sym_cons.1 hx
  obtain ⟨w₁, z, rfl, h₁, hz⟩ := hz
  obtain ⟨l₁, z, rfl, w₂, z, rfl, h₂, hz⟩ := holds_sym_cons.1 hz
  obtain ⟨l₂, w₃, rfl, h₃⟩ := holds_sym_cons.1 hz
  obtain ⟨initializer, n₁, hfirst⟩ :
      ∃ s n', ReadsForInitializer n s w₀ n' := by
    rcases h₀ with (h₀ | h₀ | h₀ | h₀)
    · obtain ⟨l, v, rfl, hv⟩ := h₀.2
      obtain ⟨s, n', hs⟩ := hv n
      exact ⟨_, n', .var hs⟩
    · obtain ⟨s, n', hs⟩ := h₀.2 n
      exact ⟨_, n', .expression hs⟩
    · obtain ⟨l, rfl⟩ := holds_sym.1 h₀
      exact ⟨none, n, .none⟩
    · cases h₀
  obtain ⟨condition, n₂, hsecond⟩ := exists_readsOption h₁ n₁
  obtain ⟨increment, n₃, hthird⟩ := exists_readsOption h₂ n₂
  obtain ⟨o, s, n₄, hbody⟩ := (holds_single.1 h₃).2 n₃
  have hclauses : ReadsForClauses n ⟨initializer, condition, increment⟩
      (⟨.symbol .leftParen, l'⟩ :: (w₀ ++ (w₁ ++ ⟨.symbol .semicolon, l₁⟩ ::
        (w₂ ++ [⟨.symbol .rightParen, l₂⟩])))) n₃ :=
    .intro hfirst hsecond hthird
  have hread := Reads.for (l := l) hclauses hbody
  simp only [List.cons_append, List.append_assoc, List.nil_append] at hread
  exact ⟨_, _, n₄, hread⟩

theorem means_ifStmt (h : Nonterminal.ifStmt.rule.Holds Both w) :
    ReadStatement w := by
  intro n
  obtain ⟨l, x, rfl, hx⟩ := holds_word_cons.1 h
  obtain ⟨u, v, rfl, hu, p, q, rfl, hp, hq⟩ := exists_readsCondition hx
  obtain ⟨condition, n₁, hcondition⟩ := hu n
  obtain ⟨o, s, n₂, hthen⟩ := hp.2 n₁
  rcases holds_single.1 hq with (rfl | hq)
  · rw [List.append_nil]
    exact ⟨_, _, n₂, .ifThen hcondition hthen⟩
  · obtain ⟨l', z, rfl, hz⟩ := holds_word_cons.1 hq
    obtain ⟨o', s', n₃, helse⟩ := (holds_single.1 hz).2 n₂
    cases o with
    | false => exact ⟨_, _, n₃, .ifElse hcondition hthen helse⟩
    | true =>
      obtain ⟨o'', r, hr⟩ := hthen.attach helse l'
      exact ⟨_, _, n₃, .ifThen hcondition hr⟩

theorem means_statement (h : Nonterminal.statement.rule.Holds Both w) :
    ReadStatement w := by
  intro n
  rcases h with (h | h | h | h | h | h | h | h)
  · obtain ⟨s, n', hs⟩ := h.2 n
    exact ⟨_, s, n', .expression hs⟩
  · exact h.2 n
  · exact h.2 n
  · exact h.2 n
  · exact h.2 n
  · exact h.2 n
  · obtain ⟨l, v, l', rfl, hv⟩ := h.2
    obtain ⟨list, n', hlist⟩ := hv n
    exact ⟨_, _, n', .block hlist⟩
  · cases h

theorem means_declaration (h : Nonterminal.declaration.rule.Holds Both w) :
    ReadDeclaration w := by
  intro n
  rcases h with (h | h | h | h | h)
  · exact h.2 n
  · exact h.2 n
  · obtain ⟨l, v, rfl, hv⟩ := h.2
    obtain ⟨s, n', hs⟩ := hv n
    exact ⟨_, s, n', .var hs⟩
  · obtain ⟨o, s, n', hs⟩ := h.2 n
    exact ⟨o, s, n', .statement hs⟩
  · cases h

theorem means_closed (A : Nonterminal) (w : List Token)
    (h : A.rule.Holds Both w) : Means A w := by
  cases A with
  | program => exact readAll_of_holds h
  | declaration => exact means_declaration h
  | classDecl => exact means_classDecl h
  | member => exact means_member h
  | funDecl => exact means_funDecl h
  | varDecl => exact means_varDecl h
  | statement => exact means_statement h
  | exprStmt => exact means_exprStmt h
  | forStmt => exact means_forStmt h
  | ifStmt => exact means_ifStmt h
  | printStmt =>
    intro n
    obtain ⟨l, x, rfl, hx⟩ := holds_word_cons.1 h
    obtain ⟨u, v, rfl, hu, hv⟩ := hx
    obtain ⟨l', rfl⟩ := holds_sym.1 (holds_single.1 hv)
    obtain ⟨e, n', he⟩ := Expr.derivable_expression_iff.1 hu.1 n
    exact ⟨_, _, n', .print (.intro he)⟩
  | returnStmt =>
    intro n
    obtain ⟨l, x, rfl, hx⟩ := holds_word_cons.1 h
    obtain ⟨u, v, rfl, hu, hv⟩ := hx
    obtain ⟨l', rfl⟩ := holds_sym.1 (holds_single.1 hv)
    obtain ⟨value, n', hvalue⟩ := exists_readsOption hu n
    exact ⟨_, _, n', .return (.intro hvalue)⟩
  | whileStmt =>
    intro n
    obtain ⟨l, x, rfl, hx⟩ := holds_word_cons.1 h
    obtain ⟨u, v, rfl, hu, hv⟩ := exists_readsCondition hx
    obtain ⟨condition, n₁, hcondition⟩ := hu n
    obtain ⟨o, s, n₂, hbody⟩ := (holds_single.1 hv).2 n₁
    exact ⟨_, _, n₂, .while hcondition hbody⟩
  | block =>
    obtain ⟨l, x, rfl, u, v, rfl, hu, hv⟩ := holds_sym_cons.1 h
    obtain ⟨l', rfl⟩ := holds_sym.1 (holds_single.1 hv)
    exact ⟨l, u, l', rfl, readAll_of_holds hu⟩
  | _ => trivial

/-! ## A whole source -/

/-- A source is read without a fault exactly if its tokens are a program of
the grammar. -/
theorem parse_accepts_iff_derivable (scan : Token.Scan) (firstId : Nat) :
    (parse scan firstId).diagnostics = [] ↔
      Derives (.ref .program) scan.tokens := by
  constructor
  · intro h
    have hparse : parse scan firstId = ⟨(parse scan firstId).statements, [],
        (parse scan firstId).nextId⟩ := by
      rw [← h]
    have hderived := derived_of_reads (parse_eq_iff.1 hparse)
    exact derivable_iff.2 hderived
  · intro h
    have hread : ReadAll scan.tokens :=
      derivable_induction (M := Means) means_closed h
    obtain ⟨list, n', hlist⟩ := hread firstId
    rw [parse_of_reads hlist]

end Lox.Stmt
