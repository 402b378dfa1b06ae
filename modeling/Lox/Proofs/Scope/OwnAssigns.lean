import Lox.Proofs.Ids

/-!
# Assignments in initializers

In the initializer of a local variable the variable is declared but has no
value yet; reading it there is a fault, but assigning to it is not.
`Stmt.ownAssigns` collects the ids of these assignments, which are among the
ids of the statement (`Scope.ownAssigns_sublist`).
-/

namespace Lox

mutual

/-- The ids of the assignments to the variable `opening` in an expression. -/
def Expr.assignsTo (opening : Option String) : Expr → List Nat
  | .literal _ => []
  | .group inner => inner.assignsTo opening
  | .unary _ _ right => right.assignsTo opening
  | .binary left _ _ right => left.assignsTo opening ++ right.assignsTo opening
  | .logical left _ _ right => left.assignsTo opening ++ right.assignsTo opening
  | .variable _ => []
  | .assign target value =>
    value.assignsTo opening ++
      if opening = some target.name then [target.id] else []
  | .call callee _ arguments =>
    callee.assignsTo opening ++ Expr.assignsToAll opening arguments
  | .get object _ => object.assignsTo opening
  | .set object _ value => object.assignsTo opening ++ value.assignsTo opening
  | .this _ _ => []
  | .super _ _ _ => []

/-- The ids of the assignments to the variable `opening` in some
expressions. -/
def Expr.assignsToAll (opening : Option String) : List Expr → List Nat
  | [] => []
  | e :: rest => e.assignsTo opening ++ Expr.assignsToAll opening rest

end

/-- The same for an optional expression. -/
def Expr.assignsToOption (opening : Option String) : Option Expr → List Nat
  | none => []
  | some e => e.assignsTo opening

mutual

/-- The ids of the assignments that lie inside the initializer of the local
variable they assign to.  `inner` says whether the statement stands in a
scope, that is, whether its variables are local.  No expression opens a scope,
so such an assignment is to the variable that is being declared and to no
other of its name. -/
def Stmt.ownAssigns : Stmt → (inner : Bool) → List Nat
  | .expression _, _ => []
  | .print _, _ => []
  | .var _ none, _ => []
  | .var x (some e), inner =>
    if inner then e.assignsTo (some x.name) else []
  | .block body, _ => Stmt.ownAssignsAll body true
  | .ifElse _ thenBranch none, inner => thenBranch.ownAssigns inner
  | .ifElse _ thenBranch (some elseBranch), inner =>
    thenBranch.ownAssigns inner ++ elseBranch.ownAssigns inner
  | .while _ body, inner => body.ownAssigns inner
  | .function f, _ => f.ownAssigns
  | .return _ _, _ => []
  | .class c, _ => c.ownAssigns

/-- The same for some statements. -/
def Stmt.ownAssignsAll : List Stmt → (inner : Bool) → List Nat
  | [], _ => []
  | s :: rest, inner => s.ownAssigns inner ++ Stmt.ownAssignsAll rest inner

/-- The same for a function, whose body has a scope. -/
def FunctionDecl.ownAssigns : FunctionDecl → List Nat
  | ⟨_, _, body, _⟩ => Stmt.ownAssignsAll body true

/-- The same for some functions. -/
def FunctionDecl.ownAssignsAll : List FunctionDecl → List Nat
  | [] => []
  | f :: rest => f.ownAssigns ++ FunctionDecl.ownAssignsAll rest

/-- The same for a class. -/
def ClassDecl.ownAssigns : ClassDecl → List Nat
  | ⟨_, _, methods⟩ => FunctionDecl.ownAssignsAll methods

end

theorem Stmt.ownAssignsAll_append (list list' : List Stmt) (inner : Bool) :
    Stmt.ownAssignsAll (list ++ list') inner =
      Stmt.ownAssignsAll list inner ++ Stmt.ownAssignsAll list' inner := by
  induction list with
  | nil => rfl
  | cons s rest ih =>
    rw [List.cons_append, Stmt.ownAssignsAll, ih, Stmt.ownAssignsAll,
      List.append_assoc]

/-! ## Ids of assignments -/

namespace Scope

theorem assignsToAll_none {list : List Expr}
    (ih : ∀ e ∈ list, e.assignsTo none = []) :
    Expr.assignsToAll none list = [] := by
  induction list with
  | nil => rfl
  | cons e rest ihrest =>
    obtain ⟨he, hrest⟩ := List.forall_mem_cons.1 ih
    rw [Expr.assignsToAll, he, ihrest hrest, List.nil_append]

theorem assignsTo_none (e : Expr) : e.assignsTo none = [] := by
  induction e with
  | call callee line arguments ihcallee iharguments =>
    rw [Expr.assignsTo, ihcallee, assignsToAll_none iharguments, List.nil_append]
  | _ => simp_all [Expr.assignsTo]

theorem assignsToOption_none (e : Option Expr) :
    Expr.assignsToOption none e = [] := by
  cases e with
  | none => rfl
  | some e => exact assignsTo_none e

theorem assignsToAll_sublist {opening : Option String} {list : List Expr}
    (ih : ∀ e ∈ list, (e.assignsTo opening).Sublist e.ids) :
    (Expr.assignsToAll opening list).Sublist (Expr.idsAll list) := by
  induction list with
  | nil => simp [Expr.assignsToAll]
  | cons e rest ihrest =>
    obtain ⟨he, hrest⟩ := List.forall_mem_cons.1 ih
    rw [Expr.assignsToAll, Expr.idsAll]
    exact he.append (ihrest hrest)

theorem assignsTo_sublist (opening : Option String) (e : Expr) :
    (e.assignsTo opening).Sublist e.ids := by
  induction e with
  | literal | occurrence | this | super => simp [Expr.assignsTo]
  | group _ ih | unary _ _ _ ih | get _ _ ih =>
    rw [Expr.assignsTo, Expr.ids]
    exact ih
  | binary _ _ _ _ ihleft ihright | logical _ _ _ _ ihleft ihright
  | set _ _ _ ihleft ihright =>
    rw [Expr.assignsTo, Expr.ids]
    exact ihleft.append ihright
  | assign target value ih =>
    rw [Expr.assignsTo, Expr.ids]
    refine ih.append ?_
    split
    · exact List.Sublist.refl _
    · exact List.nil_sublist _
  | call callee line arguments ihcallee iharguments =>
    rw [Expr.assignsTo, Expr.ids]
    exact ihcallee.append (assignsToAll_sublist iharguments)

theorem ownAssigns_stmts_sublist_of {list : List Stmt}
    (ih : ∀ s ∈ list, ∀ inner, (s.ownAssigns inner).Sublist s.ids)
    (inner : Bool) :
    (Stmt.ownAssignsAll list inner).Sublist (Stmt.idsAll list) := by
  induction list with
  | nil => exact List.Sublist.refl _
  | cons s rest ihrest =>
    obtain ⟨hs, hrest⟩ := List.forall_mem_cons.1 ih
    rw [Stmt.ownAssignsAll, Stmt.idsAll]
    exact (hs inner).append (ihrest hrest)

theorem ownAssigns_routine_sublist_of {f : FunctionDecl}
    (ih : ∀ s ∈ f.body, ∀ inner, (s.ownAssigns inner).Sublist s.ids) :
    f.ownAssigns.Sublist f.ids := by
  obtain ⟨name, params, body, kind⟩ := f
  rw [FunctionDecl.ownAssigns, FunctionDecl.ids]
  exact ownAssigns_stmts_sublist_of ih true

theorem ownAssigns_members_sublist_of {list : List FunctionDecl}
    (ih : ∀ f ∈ list, ∀ s ∈ f.body, ∀ inner, (s.ownAssigns inner).Sublist s.ids) :
    (FunctionDecl.ownAssignsAll list).Sublist (FunctionDecl.idsAll list) := by
  induction list with
  | nil => exact List.Sublist.refl _
  | cons f rest ihrest =>
    obtain ⟨hf, hrest⟩ := List.forall_mem_cons.1 ih
    rw [FunctionDecl.ownAssignsAll, FunctionDecl.idsAll]
    exact (ownAssigns_routine_sublist_of hf).append (ihrest hrest)

theorem ownAssigns_sublist (s : Stmt) (inner : Bool) :
    (s.ownAssigns inner).Sublist s.ids := by
  induction s generalizing inner with
  | expression | print | giveBack => exact List.nil_sublist _
  | var x initializer =>
    cases initializer with
    | none => exact List.nil_sublist _
    | some e =>
      rw [Stmt.ownAssigns, Stmt.ids]
      split
      · exact assignsTo_sublist _ e
      · exact List.nil_sublist _
  | block body ih =>
    rw [Stmt.ownAssigns, Stmt.ids]
    exact ownAssigns_stmts_sublist_of ih true
  | ifElse condition thenBranch elseBranch ihthen ihelse =>
    cases elseBranch with
    | none =>
      rw [Stmt.ownAssigns, Stmt.ids]
      exact (ihthen inner).trans (List.sublist_append_right _ _)
    | some elseBranch =>
      rw [Stmt.ownAssigns, Stmt.ids]
      exact ((ihthen inner).append (ihelse elseBranch rfl inner)).trans
        (List.sublist_append_right _ _)
  | loop condition body ih =>
    rw [Stmt.ownAssigns, Stmt.ids]
    exact (ih inner).trans (List.sublist_append_right _ _)
  | function f ih =>
    rw [Stmt.ownAssigns, Stmt.ids]
    exact ownAssigns_routine_sublist_of ih
  | cls c ih =>
    obtain ⟨name, superclass, methods⟩ := c
    rw [Stmt.ownAssigns, Stmt.ids, ClassDecl.ownAssigns]
    cases superclass with
    | none =>
      rw [ClassDecl.ids]
      exact ownAssigns_members_sublist_of ih
    | some parent =>
      rw [ClassDecl.ids]
      exact (ownAssigns_members_sublist_of ih).cons _

theorem ownAssigns_stmts_sublist (list : List Stmt) (inner : Bool) :
    (Stmt.ownAssignsAll list inner).Sublist (Stmt.idsAll list) :=
  ownAssigns_stmts_sublist_of (fun s _ => ownAssigns_sublist s) inner

theorem ownAssigns_routine_sublist (f : FunctionDecl) :
    f.ownAssigns.Sublist f.ids :=
  ownAssigns_routine_sublist_of fun s _ => ownAssigns_sublist s

theorem ownAssigns_members_sublist (list : List FunctionDecl) :
    (FunctionDecl.ownAssignsAll list).Sublist (FunctionDecl.idsAll list) :=
  ownAssigns_members_sublist_of fun _ _ s _ => ownAssigns_sublist s

end Scope

end Lox
