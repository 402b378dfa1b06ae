import Lox.Proofs.Induction

/-!
# Labels of a tree

Ids and lines are labels: they say which occurrence a node is and where it
stood in its source, and nothing of what it means.  `relabel` changes them
throughout a tree.  Two trees are the same up to ids if they are equal once
all ids are forgotten, and likewise for lines.
-/

namespace Lox

/-- A change of the labels of a tree. -/
structure Labeling where
  id : Nat → Nat
  line : Nat → Nat

namespace Labeling

/-- Forgets the ids. -/
def noIds : Labeling := ⟨fun _ => 0, fun line => line⟩

/-- Changes the lines only. -/
def lines (f : Nat → Nat) : Labeling := ⟨fun id => id, f⟩

/-- Forgets the lines. -/
def noLines : Labeling := lines fun _ => 0

/-- Forgets ids and lines. -/
def noLabels : Labeling := ⟨fun _ => 0, fun _ => 0⟩

/-- Moves all lines down. -/
def down (k : Nat) : Labeling := lines fun line => line + k

/-- One change of labels after another. -/
def andThen (ρ σ : Labeling) : Labeling :=
  ⟨fun id => σ.id (ρ.id id), fun line => σ.line (ρ.line line)⟩

@[simp] theorem id_lines (f : Nat → Nat) (id : Nat) : (lines f).id id = id := rfl

@[simp] theorem line_lines (f : Nat → Nat) (line : Nat) :
    (lines f).line line = f line := rfl

end Labeling

/-! ## Tokens and expressions -/

/-- The token with other labels. -/
def Token.relabel (ρ : Labeling) (t : Token) : Token :=
  ⟨t.kind, ρ.line t.line⟩

/-- The identifier with other labels. -/
def Ident.relabel (ρ : Labeling) (x : Ident) : Ident :=
  ⟨x.name, ρ.line x.line⟩

/-- The occurrence with other labels. -/
def Ref.relabel (ρ : Labeling) (ref : Ref) : Ref :=
  ⟨ρ.id ref.id, ref.name, ρ.line ref.line⟩

@[simp] theorem Ident.name_relabel (ρ : Labeling) (x : Ident) :
    (x.relabel ρ).name = x.name := rfl

@[simp] theorem Ident.line_relabel (ρ : Labeling) (x : Ident) :
    (x.relabel ρ).line = ρ.line x.line := rfl

@[simp] theorem Ref.name_relabel (ρ : Labeling) (ref : Ref) :
    (ref.relabel ρ).name = ref.name := rfl

@[simp] theorem Ref.id_relabel (ρ : Labeling) (ref : Ref) :
    (ref.relabel ρ).id = ρ.id ref.id := rfl

@[simp] theorem Ref.line_relabel (ρ : Labeling) (ref : Ref) :
    (ref.relabel ρ).line = ρ.line ref.line := rfl

mutual

/-- The expression with other labels. -/
def Expr.relabel (ρ : Labeling) : Expr → Expr
  | .literal value => .literal value
  | .group inner => .group (inner.relabel ρ)
  | .unary op line right => .unary op (ρ.line line) (right.relabel ρ)
  | .binary left op line right =>
    .binary (left.relabel ρ) op (ρ.line line) (right.relabel ρ)
  | .logical left op line right =>
    .logical (left.relabel ρ) op (ρ.line line) (right.relabel ρ)
  | .variable ref => .variable (ref.relabel ρ)
  | .assign target value => .assign (target.relabel ρ) (value.relabel ρ)
  | .call callee line arguments =>
    .call (callee.relabel ρ) (ρ.line line) (Expr.relabelAll ρ arguments)
  | .get object name => .get (object.relabel ρ) (name.relabel ρ)
  | .set object name value =>
    .set (object.relabel ρ) (name.relabel ρ) (value.relabel ρ)
  | .this id line => .this (ρ.id id) (ρ.line line)
  | .super id line method =>
    .super (ρ.id id) (ρ.line line) (method.relabel ρ)

/-- Expressions with other labels. -/
def Expr.relabelAll (ρ : Labeling) : List Expr → List Expr
  | [] => []
  | e :: rest => e.relabel ρ :: Expr.relabelAll ρ rest

end

@[simp] theorem Expr.relabelAll_eq_map (ρ : Labeling) (list : List Expr) :
    Expr.relabelAll ρ list = list.map (Expr.relabel ρ) := by
  induction list with
  | nil => rfl
  | cons e rest ih => rw [Expr.relabelAll, ih, List.map_cons]

/-! ## Statements -/

mutual

/-- The statement with other labels. -/
def Stmt.relabel (ρ : Labeling) : Stmt → Stmt
  | .expression e => .expression (e.relabel ρ)
  | .print e => .print (e.relabel ρ)
  | .var x initializer =>
    .var (x.relabel ρ) (initializer.map (Expr.relabel ρ))
  | .block body => .block (Stmt.relabelAll ρ body)
  | .ifElse condition thenBranch none =>
    .ifElse (condition.relabel ρ) (thenBranch.relabel ρ) none
  | .ifElse condition thenBranch (some elseBranch) =>
    .ifElse (condition.relabel ρ) (thenBranch.relabel ρ)
      (some (elseBranch.relabel ρ))
  | .while condition body => .while (condition.relabel ρ) (body.relabel ρ)
  | .function f => .function (f.relabel ρ)
  | .return line value =>
    .return (ρ.line line) (value.map (Expr.relabel ρ))
  | .class c => .class (c.relabel ρ)

/-- Statements with other labels. -/
def Stmt.relabelAll (ρ : Labeling) : List Stmt → List Stmt
  | [] => []
  | s :: rest => s.relabel ρ :: Stmt.relabelAll ρ rest

/-- The function with other labels. -/
def FunctionDecl.relabel (ρ : Labeling) : FunctionDecl → FunctionDecl
  | ⟨name, params, body, kind⟩ =>
    ⟨name.relabel ρ, params.map (Ident.relabel ρ), Stmt.relabelAll ρ body, kind⟩

/-- Functions with other labels. -/
def FunctionDecl.relabelAll (ρ : Labeling) :
    List FunctionDecl → List FunctionDecl
  | [] => []
  | f :: rest => f.relabel ρ :: FunctionDecl.relabelAll ρ rest

/-- The class with other labels. -/
def ClassDecl.relabel (ρ : Labeling) : ClassDecl → ClassDecl
  | ⟨name, superclass, methods⟩ =>
    ⟨name.relabel ρ, superclass.map (Ref.relabel ρ),
      FunctionDecl.relabelAll ρ methods⟩

end

@[simp] theorem Stmt.relabelAll_eq_map (ρ : Labeling) (list : List Stmt) :
    Stmt.relabelAll ρ list = list.map (Stmt.relabel ρ) := by
  induction list with
  | nil => rfl
  | cons s rest ih => rw [Stmt.relabelAll, ih, List.map_cons]

@[simp] theorem FunctionDecl.relabelAll_eq_map (ρ : Labeling)
    (list : List FunctionDecl) :
    FunctionDecl.relabelAll ρ list = list.map (FunctionDecl.relabel ρ) := by
  induction list with
  | nil => rfl
  | cons f rest ih => rw [FunctionDecl.relabelAll, ih, List.map_cons]

theorem FunctionDecl.relabel_eq (ρ : Labeling) (f : FunctionDecl) :
    f.relabel ρ = ⟨f.name.relabel ρ, f.params.map (Ident.relabel ρ),
      f.body.map (Stmt.relabel ρ), f.kind⟩ := by
  cases f
  simp only [FunctionDecl.relabel, Stmt.relabelAll_eq_map]

theorem ClassDecl.relabel_eq (ρ : Labeling) (c : ClassDecl) :
    c.relabel ρ = ⟨c.name.relabel ρ, c.superclass.map (Ref.relabel ρ),
      c.methods.map (FunctionDecl.relabel ρ)⟩ := by
  cases c
  simp only [ClassDecl.relabel, FunctionDecl.relabelAll_eq_map]

theorem Stmt.relabel_ifElse (ρ : Labeling) (condition : Expr)
    (thenBranch : Stmt) (elseBranch : Option Stmt) :
    (Stmt.ifElse condition thenBranch elseBranch).relabel ρ =
      .ifElse (condition.relabel ρ) (thenBranch.relabel ρ)
        (elseBranch.map (Stmt.relabel ρ)) := by
  cases elseBranch <;> simp only [Stmt.relabel, Option.map]

/-! ## One change after another -/

section

variable (ρ σ : Labeling)

theorem Expr.relabel_relabel (e : Expr) :
    (e.relabel ρ).relabel σ = e.relabel (ρ.andThen σ) := by
  induction e with
  | call callee line arguments ihcallee iharguments =>
    have hmap : (arguments.map (Expr.relabel ρ)).map (Expr.relabel σ) =
        arguments.map (Expr.relabel (ρ.andThen σ)) := by
      rw [List.map_map]
      exact List.map_congr_left iharguments
    simp only [Expr.relabel, ihcallee, Expr.relabelAll_eq_map, hmap]
    rfl
  | literal => simp only [Expr.relabel]
  | group inner ih => simp only [Expr.relabel, ih]
  | unary _ _ _ ih | assign _ _ ih | get _ _ ih =>
    simp only [Expr.relabel, ih]
    rfl
  | binary _ _ _ _ ihleft ihright | logical _ _ _ _ ihleft ihright
  | set _ _ _ ihleft ihright =>
    simp only [Expr.relabel, ihleft, ihright]
    rfl
  | occurrence | this | super =>
    simp only [Expr.relabel]
    rfl

theorem Expr.relabelOption_relabel (e : Option Expr) :
    (e.map (Expr.relabel ρ)).map (Expr.relabel σ) =
      e.map (Expr.relabel (ρ.andThen σ)) := by
  rw [Option.map_map]
  congr 1
  funext e
  exact e.relabel_relabel ρ σ

theorem Stmt.relabelAll_relabel_of {list : List Stmt}
    (h : ∀ s ∈ list, (s.relabel ρ).relabel σ = s.relabel (ρ.andThen σ)) :
    (list.map (Stmt.relabel ρ)).map (Stmt.relabel σ) =
      list.map (Stmt.relabel (ρ.andThen σ)) := by
  rw [List.map_map]
  exact List.map_congr_left h

theorem FunctionDecl.relabel_relabel_of {f : FunctionDecl}
    (h : ∀ s ∈ f.body, (s.relabel ρ).relabel σ = s.relabel (ρ.andThen σ)) :
    (f.relabel ρ).relabel σ = f.relabel (ρ.andThen σ) := by
  simp only [FunctionDecl.relabel_eq, Stmt.relabelAll_relabel_of ρ σ h,
    List.map_map]
  rfl

theorem Stmt.relabel_relabel (s : Stmt) :
    (s.relabel ρ).relabel σ = s.relabel (ρ.andThen σ) := by
  induction s with
  | expression e | print e => simp only [Stmt.relabel, Expr.relabel_relabel]
  | var x initializer =>
    simp only [Stmt.relabel, Expr.relabelOption_relabel]
    rfl
  | block body ih =>
    simp only [Stmt.relabel, Stmt.relabelAll_eq_map,
      Stmt.relabelAll_relabel_of ρ σ ih]
  | ifElse condition thenBranch elseBranch ihthen ihelse =>
    cases elseBranch with
    | none => simp only [Stmt.relabel, Expr.relabel_relabel, ihthen]
    | some elseBranch =>
      simp only [Stmt.relabel, Expr.relabel_relabel, ihthen,
        ihelse elseBranch rfl]
  | loop condition body ih =>
    simp only [Stmt.relabel, Expr.relabel_relabel, ih]
  | function f ih =>
    simp only [Stmt.relabel, FunctionDecl.relabel_relabel_of ρ σ ih]
  | giveBack line value =>
    simp only [Stmt.relabel, Expr.relabelOption_relabel]
    rfl
  | cls c ih =>
    have hmethods : (c.methods.map (FunctionDecl.relabel ρ)).map
        (FunctionDecl.relabel σ) =
          c.methods.map (FunctionDecl.relabel (ρ.andThen σ)) := by
      rw [List.map_map]
      exact List.map_congr_left fun f hf =>
        FunctionDecl.relabel_relabel_of ρ σ (ih f hf)
    simp only [Stmt.relabel, ClassDecl.relabel_eq, hmethods, Option.map_map]
    rfl

end

end Lox
