import Lox.Proofs.Scope.Effect
import Lox.Proofs.Stmt.Phrase
import Lox.Proofs.Token.Splitting

/-!
# Well-formed trees

What the parser gives is a little less than any tree.  Names are never
keywords, so no declaration and no assignment uses `this` or `super` as a
name; the branches of an `if` and the body of a loop are no declarations; and
a function that is declared as a statement is no initializer.  `WellFormed`
says so, and `Reads.wellFormed` proves it of everything that is read from the
tokens of a source.
-/

namespace Lox

/-- The name is not one of those that only the scope rules give. -/
def Unreserved (name : String) : Prop :=
  name ≠ Keyword.kwThis.lexeme ∧ name ≠ Keyword.kwSuper.lexeme

theorem not_unreserved_this : ¬ Unreserved Keyword.kwThis.lexeme :=
  fun h => h.1 rfl

theorem not_unreserved_super : ¬ Unreserved Keyword.kwSuper.lexeme :=
  fun h => h.2 rfl

/-! ## Identifiers -/

namespace Token

/-- The identifiers among the tokens are not reserved. -/
def Named (w : List Token) : Prop :=
  ∀ t ∈ w, ∀ x, t.kind = .identifier x → Unreserved x

@[simp] theorem named_nil : Named [] := by
  simp [Named]

@[simp] theorem named_cons (t : Token) (w : List Token) :
    Named (t :: w) ↔ (∀ x, t.kind = .identifier x → Unreserved x) ∧ Named w := by
  simp [Named]

@[simp] theorem named_append (w w' : List Token) :
    Named (w ++ w') ↔ Named w ∧ Named w' :=
  List.forall_mem_append

/-- A word that is read as an identifier is no keyword. -/
theorem unreserved_ofWord {word x : String}
    (h : Kind.ofWord word = .identifier x) : Unreserved x := by
  unfold Kind.ofWord at h
  split at h
  · cases h
  · next hnone =>
    cases h
    have hall := List.find?_eq_none.1 hnone
    have hthis := hall .kwThis (by decide)
    have hsuper := hall .kwSuper (by decide)
    exact ⟨fun heq => hthis (by simp [heq]), fun heq => hsuper (by simp [heq])⟩

theorem unreserved_itemAt {c : Char} {text : List Char} {line l : Nat}
    {x : String}
    (h : (itemAt c text line).item = .token ⟨.identifier x, l⟩) :
    Unreserved x := by
  unfold itemAt at h
  split at h
  · cases h
  · split at h <;> cases h
  · split at h
    · unfold stringFrom at h
      split at h <;> cases h
    · split at h
      · unfold numberFrom at h
        split at h
        · split at h <;> cases h
        · cases h
      · split at h
        · simp only [wordFrom, Item.token.injEq, Token.mk.injEq] at h
          exact unreserved_ofWord h.1
        · cases h

theorem unreserved_scanFrom {text : List Char} {line l : Nat}
    {found : List Item} {x : String}
    (hfound : ∀ l, .token ⟨.identifier x, l⟩ ∈ found → Unreserved x)
    (h : .token ⟨.identifier x, l⟩ ∈ (scanFrom text line found).items) :
    Unreserved x := by
  fun_induction scanFrom text line found with
  | case1 line found => exact hfound l (List.mem_reverse.1 h)
  | case2 line found c rest _ ih => exact ih hfound h
  | case3 line found c rest _ _ ih => exact ih hfound h
  | case4 line found c rest _ _ _ ih => exact ih hfound h
  | case5 line found c rest _ _ _ lexed ih =>
    refine ih ?_ h
    intro l' hmem
    rcases List.mem_cons.1 hmem with heq | hmem
    · exact unreserved_itemAt heq.symm
    · exact hfound l' hmem

/-- No identifier of a source is reserved. -/
theorem named_scan (source : String) : Named (scan source).tokens := by
  intro t ht x hx
  simp only [Scan.tokens, List.mem_filterMap] at ht
  obtain ⟨item, hitem, heq⟩ := ht
  cases item with
  | fault => cases heq
  | token t' =>
    cases heq
    obtain ⟨kind, line⟩ := t
    subst hx
    exact unreserved_scanFrom (fun l h => absurd h List.not_mem_nil) hitem

end Token

open Token (Named)

/-! ## Expressions -/

mutual

/-- No assignment in the expression is to a reserved name. -/
def Expr.WellFormed : Expr → Prop
  | .group inner => inner.WellFormed
  | .unary _ _ right => right.WellFormed
  | .binary left _ _ right => left.WellFormed ∧ right.WellFormed
  | .logical left _ _ right => left.WellFormed ∧ right.WellFormed
  | .assign target value => Unreserved target.name ∧ value.WellFormed
  | .call callee _ arguments =>
    callee.WellFormed ∧ Expr.AllWellFormed arguments
  | .get object _ => object.WellFormed
  | .set object _ value => object.WellFormed ∧ value.WellFormed
  | _ => True

/-- No assignment in the expressions is to a reserved name. -/
def Expr.AllWellFormed : List Expr → Prop
  | [] => True
  | e :: rest => e.WellFormed ∧ Expr.AllWellFormed rest

end

/-- The same for an optional expression. -/
def Expr.OptionWellFormed : Option Expr → Prop
  | none => True
  | some e => e.WellFormed

theorem Expr.allWellFormed_append {list list' : List Expr}
    (h : Expr.AllWellFormed list) (h' : Expr.AllWellFormed list') :
    Expr.AllWellFormed (list ++ list') := by
  induction list with
  | nil => exact h'
  | cons e rest ih =>
    rw [Expr.AllWellFormed] at h
    rw [List.cons_append, Expr.AllWellFormed]
    exact ⟨h.1, ih h.2⟩

/-- The phrase is well formed. -/
def Expr.Phrase.WellFormed : Expr.Phrase → Prop
  | .expr _ e => e.WellFormed
  | .arguments list => Expr.AllWellFormed list

theorem Expr.wellFormed_apply (op : Operator) {left right : Expr} (line : Nat)
    (hleft : left.WellFormed) (hright : right.WellFormed) :
    (op.apply left line right).WellFormed := by
  cases op <;> (rw [Operator.apply, Expr.WellFormed]; exact ⟨hleft, hright⟩)

theorem Expr.Reads.wellFormed {n n' : Nat} {phrase : Expr.Phrase}
    {w : List Token} (h : Expr.Reads n phrase w n') (hw : Named w) :
    phrase.WellFormed := by
  induction h with
  | literal | name | this | super => simp only [Phrase.WellFormed, Expr.WellFormed]
  | group _ ih | get _ ih | unary _ _ ih =>
    simp only [Token.named_cons, Token.named_append] at hw
    simp only [Phrase.WellFormed, Expr.WellFormed] at ih ⊢
    exact ih (by simp only [hw])
  | callEmpty _ ih =>
    simp only [Token.named_append] at hw
    simp only [Phrase.WellFormed, Expr.WellFormed, Expr.AllWellFormed] at ih ⊢
    exact ⟨ih hw.1, trivial⟩
  | call _ _ ihhead ihtail =>
    simp only [Token.named_cons, Token.named_append] at hw
    simp only [Phrase.WellFormed, Expr.WellFormed] at ihhead ihtail ⊢
    exact ⟨ihhead hw.1, ihtail hw.2.2.1⟩
  | one _ ih =>
    simp only [Phrase.WellFormed, Expr.AllWellFormed] at ih ⊢
    exact ⟨ih hw, trivial⟩
  | more _ _ _ ihearlier ihlast =>
    simp only [Token.named_cons, Token.named_append] at hw
    simp only [Phrase.WellFormed] at ihearlier ihlast ⊢
    refine Expr.allWellFormed_append (ihearlier hw.1) ?_
    simp only [Expr.AllWellFormed]
    exact ⟨ihlast hw.2.2, trivial⟩
  | operand _ ih | level _ ih | assignment _ ih => exact ih hw
  | operator _ _ _ ihfirst ihsecond =>
    simp only [Token.named_cons, Token.named_append] at hw
    exact Expr.wellFormed_apply _ _ (ihfirst hw.1) (ihsecond hw.2.2)
  | assign _ ih =>
    simp only [Token.named_cons] at hw
    simp only [Phrase.WellFormed, Expr.WellFormed] at ih ⊢
    exact ⟨hw.1 _ rfl, ih hw.2.2⟩
  | set _ _ ihhead ihinner =>
    simp only [Token.named_cons, Token.named_append] at hw
    simp only [Phrase.WellFormed, Expr.WellFormed] at ihhead ihinner ⊢
    exact ⟨ihhead hw.1, ihinner hw.2.2.2.2⟩

/-! ## Statements -/

mutual

/-- The statement declares and assigns to no reserved names, its branches and
loop bodies are no declarations, and its functions are no methods. -/
def Stmt.WellFormed : Stmt → Prop
  | .expression e => e.WellFormed
  | .print e => e.WellFormed
  | .var x initializer => Unreserved x.name ∧ Expr.OptionWellFormed initializer
  | .block body => Stmt.AllWellFormed body
  | .ifElse condition thenBranch none =>
    condition.WellFormed ∧ thenBranch.declared = [] ∧ thenBranch.WellFormed
  | .ifElse condition thenBranch (some elseBranch) =>
    condition.WellFormed ∧ (thenBranch.declared = [] ∧ thenBranch.WellFormed) ∧
      elseBranch.declared = [] ∧ elseBranch.WellFormed
  | .while condition body =>
    condition.WellFormed ∧ body.declared = [] ∧ body.WellFormed
  | .function f =>
    Unreserved f.name.name ∧ f.kind = .function ∧ f.WellFormed
  | .return _ value => Expr.OptionWellFormed value
  | .class c => c.WellFormed

/-- All the statements are well formed. -/
def Stmt.AllWellFormed : List Stmt → Prop
  | [] => True
  | s :: rest => s.WellFormed ∧ Stmt.AllWellFormed rest

/-- The parameters and the body of the function are well formed. -/
def FunctionDecl.WellFormed : FunctionDecl → Prop
  | ⟨_, params, body, _⟩ =>
    (∀ x ∈ params, Unreserved x.name) ∧ Stmt.AllWellFormed body

/-- All the functions are well formed. -/
def FunctionDecl.AllWellFormed : List FunctionDecl → Prop
  | [] => True
  | f :: rest => f.WellFormed ∧ FunctionDecl.AllWellFormed rest

/-- The name and the members of the class are well formed. -/
def ClassDecl.WellFormed : ClassDecl → Prop
  | ⟨name, _, methods⟩ =>
    Unreserved name.name ∧ FunctionDecl.AllWellFormed methods

end

theorem FunctionDecl.isInitializer_of_function {f : FunctionDecl}
    (h : f.kind = .function) : f.isInitializer = false := by
  rw [FunctionDecl.isInitializer, h]
  rfl

namespace Stmt

variable {n n' : Nat} {w : List Token}

theorem allWellFormed_append {list list' : List Stmt}
    (h : Stmt.AllWellFormed list) (h' : Stmt.AllWellFormed list') :
    Stmt.AllWellFormed (list ++ list') := by
  induction list with
  | nil => exact h'
  | cons s rest ih =>
    rw [Stmt.AllWellFormed] at h
    rw [List.cons_append, Stmt.AllWellFormed]
    exact ⟨h.1, ih h.2⟩

theorem allWellFormed_members_append {list list' : List FunctionDecl}
    (h : FunctionDecl.AllWellFormed list)
    (h' : FunctionDecl.AllWellFormed list') :
    FunctionDecl.AllWellFormed (list ++ list') := by
  induction list with
  | nil => exact h'
  | cons f rest ih =>
    rw [FunctionDecl.AllWellFormed] at h
    rw [List.cons_append, FunctionDecl.AllWellFormed]
    exact ⟨h.1, ih h.2⟩

theorem ReadsOption.wellFormed {v : Option Expr} (h : ReadsOption n v w n')
    (hw : Named w) : Expr.OptionWellFormed v := by
  cases h with
  | none => trivial
  | some h => exact h.wellFormed hw

theorem ReadsVar.wellFormed {s : Stmt} (h : ReadsVar n s w n')
    (hw : Named w) : s.WellFormed := by
  cases h with
  | plain =>
    simp only [Token.named_cons] at hw
    simp only [Stmt.WellFormed, Expr.OptionWellFormed]
    exact ⟨hw.1 _ rfl, trivial⟩
  | initialized value =>
    simp only [Token.named_cons, Token.named_append] at hw
    simp only [Stmt.WellFormed]
    exact ⟨hw.1 _ rfl, value.wellFormed hw.2.2.1⟩

theorem ReadsExpression.wellFormed {build : Expr → Stmt} {s : Stmt}
    (h : ReadsExpression build n s w n')
    (hbuild : ∀ e, (build e).WellFormed = e.WellFormed) (hw : Named w) :
    s.WellFormed := by
  obtain ⟨h⟩ := h
  rw [Token.named_append] at hw
  rw [hbuild]
  exact h.wellFormed hw.1

theorem ReadsCondition.wellFormed {e : Expr} (h : ReadsCondition n e w n')
    (hw : Named w) : e.WellFormed := by
  obtain ⟨h⟩ := h
  simp only [Token.named_cons, Token.named_append] at hw
  exact h.wellFormed hw.2.1

theorem ReadsForInitializer.wellFormed {v : Option Stmt}
    (h : ReadsForInitializer n v w n') (hw : Named w) :
    ∀ s ∈ v, s.WellFormed := by
  cases h with
  | none => simp
  | var h =>
    rw [Token.named_cons] at hw
    simpa using h.wellFormed hw.2
  | expression h =>
    simpa using h.wellFormed (fun e => by simp only [Stmt.WellFormed]) hw

/-- A `for` loop is no declaration, whatever its clauses are. -/
theorem ForClauses.declared_loop (clauses : ForClauses) {s : Stmt}
    (hs : s.declared = []) : (clauses.loop s).declared = [] := by
  rcases clauses with ⟨_ | initializer, condition, _ | increment⟩ <;>
    simp [ForClauses.loop, Stmt.declared, hs]

/-- The clauses of a `for` loop are well formed. -/
def ForClauses.WellFormed (clauses : ForClauses) : Prop :=
  (∀ s ∈ clauses.initializer, s.WellFormed) ∧
    Expr.OptionWellFormed clauses.condition ∧
    Expr.OptionWellFormed clauses.increment

theorem ForClauses.wellFormed_loop {clauses : ForClauses} {s : Stmt}
    (h : clauses.WellFormed) (hdeclared : s.declared = [])
    (hs : s.WellFormed) : (clauses.loop s).WellFormed := by
  obtain ⟨initializer, condition, increment⟩ := clauses
  obtain ⟨hfirst, hcondition, hincrement⟩ := h
  have hloop : (ForClauses.loop ⟨none, condition, increment⟩ s).WellFormed := by
    cases condition <;> cases increment <;>
      simp_all [ForClauses.loop, Stmt.WellFormed, Stmt.AllWellFormed,
        Stmt.declared, Expr.OptionWellFormed, Expr.WellFormed]
  cases initializer with
  | none => exact hloop
  | some initializer =>
    simp only [ForClauses.loop] at hloop
    simp only [ForClauses.loop, Stmt.WellFormed, Stmt.AllWellFormed]
    exact ⟨hfirst initializer rfl, hloop, trivial⟩

theorem ReadsForClauses.wellFormed {clauses : ForClauses}
    (h : ReadsForClauses n clauses w n') (hw : Named w) :
    clauses.WellFormed := by
  obtain ⟨first, second, third⟩ := h
  simp only [Token.named_cons, Token.named_append] at hw
  exact ⟨first.wellFormed hw.2.1, second.wellFormed hw.2.2.1,
    third.wellFormed hw.2.2.2.2.1⟩

theorem ReadsParams.unreserved {params : List Ident} (h : ReadsParams params w)
    (hw : Named w) : ∀ x ∈ params, Unreserved x.name := by
  induction h with
  | one =>
    rw [Token.named_cons] at hw
    simp only [List.mem_singleton, forall_eq]
    exact hw.1 _ rfl
  | more _ ih =>
    simp only [Token.named_cons] at hw
    exact List.forall_mem_cons.2 ⟨hw.1 _ rfl, ih hw.2.2⟩

theorem ReadsHeader.unreserved {kind : FunctionKind} {header : Header}
    (h : ReadsHeader kind header w) (hw : Named w) :
    Unreserved header.name.name ∧ ∀ x ∈ header.params, Unreserved x.name := by
  cases h with
  | getter | empty =>
    rw [Token.named_cons] at hw
    exact ⟨hw.1 _ rfl, fun x hx => absurd hx List.not_mem_nil⟩
  | params list =>
    simp only [Token.named_cons, Token.named_append] at hw
    exact ⟨hw.1 _ rfl, list.unreserved hw.2.2.1⟩

theorem ReadsMemberHeader.unreserved {header : Header}
    (h : ReadsMemberHeader header w) (hw : Named w) :
    ∀ x ∈ header.params, Unreserved x.name := by
  cases h with
  | method h => exact (h.unreserved hw).2
  | static h =>
    rw [Token.named_cons] at hw
    exact (h.unreserved hw.2).2

/-- What is declared with `fun` is no method. -/
theorem ReadsHeader.kind_eq {header : Header}
    (h : ReadsHeader .function header w) : header.kind = .function := by
  cases h with
  | getter h => cases h
  | empty | params => rfl

theorem ReadsClassHead.unreserved {head : ClassHead}
    (h : ReadsClassHead n head w n') (hw : Named w) :
    Unreserved head.name.name := by
  cases h with
  | base | derived =>
    rw [Token.named_cons] at hw
    exact hw.1 _ rfl

/-- The phrase is well formed; a statement is no declaration. -/
def Phrase.WellFormed : Phrase → Prop
  | .declarations list => Stmt.AllWellFormed list
  | .declaration _ s => s.WellFormed
  | .statement _ s => s.declared = [] ∧ s.WellFormed
  | .members list => FunctionDecl.AllWellFormed list

theorem Reads.wellFormed {phrase : Phrase} (h : Reads n phrase w n')
    (hw : Named w) : phrase.WellFormed := by
  induction h with
  | nil => simp only [Phrase.WellFormed, Stmt.AllWellFormed]
  | noMember => simp only [Phrase.WellFormed, FunctionDecl.AllWellFormed]
  | snoc _ _ ihearlier ihlast =>
    rw [Token.named_append] at hw
    refine allWellFormed_append (ihearlier hw.1) ?_
    rw [Stmt.AllWellFormed, Stmt.AllWellFormed]
    exact ⟨ihlast hw.2, trivial⟩
  | statement _ ih => exact (ih hw).2
  | var h =>
    rw [Token.named_cons] at hw
    exact h.wellFormed hw.2
  | function head _ ih =>
    simp only [Token.named_cons, Token.named_append] at hw
    obtain ⟨hname, hparams⟩ := head.unreserved hw.2.1
    simp only [Phrase.WellFormed, Stmt.WellFormed, Header.withBody,
      FunctionDecl.WellFormed] at ih ⊢
    exact ⟨hname, head.kind_eq, hparams, ih hw.2.2.1⟩
  | «class» h _ ih =>
    simp only [Token.named_cons, Token.named_append] at hw
    simp only [Phrase.WellFormed, Stmt.WellFormed, ClassDecl.WellFormed] at ih ⊢
    exact ⟨h.unreserved hw.2.1, ih hw.2.2.1⟩
  | member _ head _ ihearlier ihinner =>
    simp only [Token.named_append] at hw
    refine allWellFormed_members_append (ihearlier hw.1) ?_
    rw [FunctionDecl.AllWellFormed, FunctionDecl.AllWellFormed,
      Header.withBody, FunctionDecl.WellFormed]
    exact ⟨⟨head.unreserved hw.2.1, ihinner hw.2.2.1⟩, trivial⟩
  | expression h =>
    refine ⟨?_, h.wellFormed (fun e => by simp only [Stmt.WellFormed]) hw⟩
    obtain ⟨h⟩ := h
    rfl
  | print h =>
    rw [Token.named_cons] at hw
    refine ⟨?_, h.wellFormed (fun e => by simp only [Stmt.WellFormed]) hw.2⟩
    obtain ⟨h⟩ := h
    rfl
  | «return» h =>
    obtain ⟨h⟩ := h
    simp only [Token.named_cons, Token.named_append] at hw
    simp only [Phrase.WellFormed, Stmt.WellFormed]
    exact ⟨rfl, h.wellFormed hw.2.1⟩
  | block _ ih =>
    simp only [Token.named_cons, Token.named_append] at hw
    simp only [Phrase.WellFormed, Stmt.WellFormed] at ih ⊢
    exact ⟨rfl, ih hw.2.1⟩
  | ifThen h _ ih | «while» h _ ih =>
    simp only [Token.named_cons, Token.named_append] at hw
    have hbody := ih hw.2.2
    simp only [Phrase.WellFormed, Stmt.WellFormed, Stmt.declared] at hbody ⊢
    exact ⟨hbody.1, h.wellFormed hw.2.1, hbody⟩
  | ifElse h _ _ ihthen ihelse =>
    simp only [Token.named_cons, Token.named_append] at hw
    have hthen := ihthen hw.2.2.1
    have helse := ihelse hw.2.2.2.2
    simp only [Phrase.WellFormed, Stmt.WellFormed, Stmt.declared] at hthen helse ⊢
    refine ⟨?_, h.wellFormed hw.2.1, hthen, helse⟩
    rw [hthen.1, helse.1, List.nil_append]
  | «for» h _ ih =>
    simp only [Token.named_cons, Token.named_append] at hw
    obtain ⟨hdeclared, hs⟩ := ih hw.2.2
    exact ⟨ForClauses.declared_loop _ hdeclared,
      ForClauses.wellFormed_loop (h.wellFormed hw.2.1) hdeclared hs⟩

end Stmt

end Lox
