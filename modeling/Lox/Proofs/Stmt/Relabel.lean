import Lox.Proofs.Expr.Relabel
import Lox.Proofs.Stmt.Phrase

/-!
# Programs with other labels

If the lines of the tokens of a program are changed and its ids counted from
elsewhere, the same statements are read with their labels changed in the same
way.
-/

namespace Lox.Stmt

variable {n n' : Nat} {w : List Token} {ρ : Labeling}

/-! ## Parts -/

theorem ReadsOption.relabel {v : Option Expr} (h : ReadsOption n v w n')
    (hρ : ρ.Steps n) :
    ReadsOption (ρ.id n) (v.map (Expr.relabel ρ)) (w.map (Token.relabel ρ))
      (ρ.id n') := by
  cases h with
  | none => exact .none
  | some h => exact .some (h.relabel hρ)

theorem ReadsVar.relabel {s : Stmt} (h : ReadsVar n s w n')
    (hρ : ρ.Steps n) :
    ReadsVar (ρ.id n) (s.relabel ρ) (w.map (Token.relabel ρ)) (ρ.id n') := by
  cases h with
  | plain => exact .plain
  | initialized value =>
    simp only [List.map_cons, List.map_append, Stmt.relabel, Option.map_some]
    exact .initialized (value.relabel hρ)

theorem ReadsExpression.relabel {build : Expr → Stmt} {s : Stmt}
    (h : ReadsExpression build n s w n') (hρ : ρ.Steps n)
    (hbuild : ∀ e, (build e).relabel ρ = build (e.relabel ρ)) :
    ReadsExpression build (ρ.id n) (s.relabel ρ) (w.map (Token.relabel ρ))
      (ρ.id n') := by
  obtain ⟨h⟩ := h
  rw [List.map_append, hbuild]
  exact .intro (h.relabel hρ)

theorem ReadsReturn.relabel {line : Nat} {s : Stmt}
    (h : ReadsReturn line n s w n') (hρ : ρ.Steps n) :
    ReadsReturn (ρ.line line) (ρ.id n) (s.relabel ρ) (w.map (Token.relabel ρ))
      (ρ.id n') := by
  obtain ⟨h⟩ := h
  simp only [List.map_append, Stmt.relabel]
  exact .intro (h.relabel hρ)

theorem ReadsCondition.relabel {e : Expr} (h : ReadsCondition n e w n')
    (hρ : ρ.Steps n) :
    ReadsCondition (ρ.id n) (e.relabel ρ) (w.map (Token.relabel ρ))
      (ρ.id n') := by
  obtain ⟨h⟩ := h
  simp only [List.map_cons, List.map_append]
  exact .intro (h.relabel hρ)

theorem ReadsForInitializer.relabel {s : Option Stmt}
    (h : ReadsForInitializer n s w n') (hρ : ρ.Steps n) :
    ReadsForInitializer (ρ.id n) (s.map (Stmt.relabel ρ))
      (w.map (Token.relabel ρ)) (ρ.id n') := by
  cases h with
  | none => exact .none
  | var h => exact .var (h.relabel hρ)
  | expression h =>
    exact .expression (h.relabel hρ fun e => by simp only [Stmt.relabel])

/-- The clauses with other labels. -/
def ForClauses.relabel (ρ : Labeling) (clauses : ForClauses) : ForClauses :=
  ⟨clauses.initializer.map (Stmt.relabel ρ),
    clauses.condition.map (Expr.relabel ρ),
    clauses.increment.map (Expr.relabel ρ)⟩

theorem ForClauses.relabel_loop (ρ : Labeling) (clauses : ForClauses)
    (body : Stmt) :
    (clauses.loop body).relabel ρ =
      (clauses.relabel ρ).loop (body.relabel ρ) := by
  rcases clauses with ⟨_ | initializer, _ | condition, _ | increment⟩ <;>
    simp [ForClauses.loop, ForClauses.relabel, Stmt.relabel, Expr.relabel]

theorem ReadsForClauses.relabel {clauses : ForClauses}
    (h : ReadsForClauses n clauses w n') (hρ : ρ.Steps n) :
    ReadsForClauses (ρ.id n) (clauses.relabel ρ) (w.map (Token.relabel ρ))
      (ρ.id n') := by
  obtain ⟨first, second, third⟩ := h
  have hsecond := hρ.later first.fresh.le
  have hthird := hsecond.later second.fresh.le
  simp only [List.map_cons, List.map_append]
  exact .intro (first.relabel hρ) (second.relabel hsecond)
    (third.relabel hthird)

theorem ReadsParams.relabel {params : List Ident} (h : ReadsParams params w)
    (ρ : Labeling) :
    ReadsParams (params.map (Ident.relabel ρ)) (w.map (Token.relabel ρ)) := by
  induction h with
  | one => exact .one
  | more rest ih => exact .more ih

/-- The header with other labels. -/
def Header.relabel (ρ : Labeling) (header : Header) : Header :=
  ⟨header.name.relabel ρ, header.params.map (Ident.relabel ρ), header.kind⟩

theorem Header.relabel_withBody (ρ : Labeling) (header : Header)
    (body : List Stmt) :
    (header.withBody body).relabel ρ =
      (header.relabel ρ).withBody (body.map (Stmt.relabel ρ)) := by
  rw [FunctionDecl.relabel_eq]
  rfl

theorem ReadsHeader.relabel {kind : FunctionKind} {header : Header}
    (h : ReadsHeader kind header w) (ρ : Labeling) :
    ReadsHeader kind (header.relabel ρ) (w.map (Token.relabel ρ)) := by
  cases h with
  | getter hkind => exact .getter hkind
  | empty => exact .empty
  | params list room =>
    simp only [List.map_cons, List.map_append]
    exact .params (list.relabel ρ) (by rw [List.length_map]; exact room)

theorem ReadsMemberHeader.relabel {header : Header}
    (h : ReadsMemberHeader header w) (ρ : Labeling) :
    ReadsMemberHeader (header.relabel ρ) (w.map (Token.relabel ρ)) := by
  cases h with
  | method h => exact .method (h.relabel ρ)
  | static h => exact .static (h.relabel ρ)

/-- The head of a class with other labels. -/
def ClassHead.relabel (ρ : Labeling) (head : ClassHead) : ClassHead :=
  ⟨head.name.relabel ρ, head.superclass.map (Ref.relabel ρ)⟩

theorem ReadsClassHead.le {head : ClassHead} (h : ReadsClassHead n head w n') :
    n ≤ n' := by
  cases h <;> omega

theorem ReadsClassHead.relabel {head : ClassHead}
    (h : ReadsClassHead n head w n') (hρ : ρ.Steps n) :
    ReadsClassHead (ρ.id n) (head.relabel ρ) (w.map (Token.relabel ρ))
      (ρ.id n') := by
  cases h with
  | base => exact .base
  | derived =>
    rw [hρ n (Nat.le_refl n)]
    exact .derived

/-! ## Statements -/

/-- The phrase with other labels. -/
def Phrase.relabel (ρ : Labeling) : Phrase → Phrase
  | .declarations list => .declarations (list.map (Stmt.relabel ρ))
  | .declaration o s => .declaration o (s.relabel ρ)
  | .statement o s => .statement o (s.relabel ρ)
  | .members list => .members (list.map (FunctionDecl.relabel ρ))

/-- With other labels the same is read, with its labels changed. -/
theorem Reads.relabel {phrase : Phrase} (h : Reads n phrase w n')
    (hρ : ρ.Steps n) :
    Reads (ρ.id n) (phrase.relabel ρ) (w.map (Token.relabel ρ)) (ρ.id n') := by
  induction h with
  | nil => exact .nil
  | snoc earlier last ihearlier ihlast =>
    simp only [List.map_append, Phrase.relabel]
    exact .snoc (ihearlier hρ) (ihlast (hρ.later earlier.fresh.le))
  | statement inner ih => exact .statement (ih hρ)
  | var h => exact .var (h.relabel hρ)
  | function head body ih =>
    simp only [List.map_cons, List.map_append, Phrase.relabel, Stmt.relabel,
      Header.relabel_withBody]
    exact .function (head.relabel ρ) (ih hρ)
  | «class» h members ih =>
    simp only [List.map_cons, List.map_append, Phrase.relabel, Stmt.relabel,
      ClassDecl.relabel_eq]
    exact .class (h.relabel hρ) (ih (hρ.later h.le))
  | noMember => exact .noMember
  | member earlier head inner ihearlier ihinner =>
    simp only [List.map_cons, List.map_append, Phrase.relabel,
      Header.relabel_withBody]
    exact .member (ihearlier hρ) (head.relabel ρ)
      (ihinner (hρ.later earlier.fresh.le))
  | expression h =>
    exact .expression (h.relabel hρ fun e => by simp only [Stmt.relabel])
  | print h => exact .print (h.relabel hρ fun e => by simp only [Stmt.relabel])
  | «return» h => exact .return (h.relabel hρ)
  | block body ih =>
    simp only [List.map_cons, List.map_append, Phrase.relabel, Stmt.relabel,
      Stmt.relabelAll_eq_map]
    exact .block (ih hρ)
  | ifThen h thenBranch ih =>
    simp only [List.map_cons, List.map_append, Phrase.relabel, Stmt.relabel]
    exact .ifThen (h.relabel hρ) (ih (hρ.later h.fresh.le))
  | ifElse h thenBranch elseBranch ihthen ihelse =>
    have hthen := hρ.later h.fresh.le
    simp only [List.map_cons, List.map_append, Phrase.relabel, Stmt.relabel]
    exact .ifElse (h.relabel hρ) (ihthen hthen)
      (ihelse (hthen.later thenBranch.fresh.le))
  | «while» h body ih =>
    simp only [List.map_cons, List.map_append, Phrase.relabel, Stmt.relabel]
    exact .while (h.relabel hρ) (ih (hρ.later h.fresh.le))
  | «for» h body ih =>
    simp only [List.map_cons, List.map_append, Phrase.relabel,
      ForClauses.relabel_loop]
    exact .for (h.relabel hρ) (ih (hρ.later h.fresh.le))

end Lox.Stmt
