import Lox.Stmt

/-!
# Induction over trees

The arguments of a call are a list of expressions inside an expression, and
statements nest through lists, options and declarations.  The principles here
give the hypothesis of an induction for every part of a tree at once, in the
form `∀ a ∈ list, _`.
-/

namespace Lox

/-- Induction over expressions. -/
@[induction_eliminator]
theorem Expr.induction {motive : Expr → Prop}
    (literal : ∀ value, motive (.literal value))
    (group : ∀ inner, motive inner → motive (.group inner))
    (unary : ∀ op line right, motive right → motive (.unary op line right))
    (binary : ∀ left op line right, motive left → motive right →
      motive (.binary left op line right))
    (logical : ∀ left op line right, motive left → motive right →
      motive (.logical left op line right))
    (occurrence : ∀ ref, motive (.variable ref))
    (assign : ∀ target value, motive value → motive (.assign target value))
    (call : ∀ callee line arguments, motive callee →
      (∀ a ∈ arguments, motive a) → motive (.call callee line arguments))
    (get : ∀ object name, motive object → motive (.get object name))
    (set : ∀ object name value, motive object → motive value →
      motive (.set object name value))
    (this : ∀ id line, motive (.this id line))
    (super : ∀ id line method, motive (.super id line method)) (e : Expr) :
    motive e :=
  @Expr.rec motive (fun list => ∀ a ∈ list, motive a)
    literal group unary binary logical occurrence assign call get set this super
    (fun _ h => absurd h List.not_mem_nil)
    (fun _ _ hfirst hrest _ h =>
      (List.mem_cons.1 h).elim (fun heq => heq ▸ hfirst) (hrest _)) e

/-- Induction over statements. -/
@[induction_eliminator]
theorem Stmt.induction {motive : Stmt → Prop}
    (expression : ∀ e, motive (.expression e))
    (print : ∀ e, motive (.print e))
    (var : ∀ x initializer, motive (.var x initializer))
    (block : ∀ body, (∀ s ∈ body, motive s) → motive (.block body))
    (ifElse : ∀ condition thenBranch elseBranch, motive thenBranch →
      (∀ s ∈ elseBranch, motive s) →
      motive (.ifElse condition thenBranch elseBranch))
    (loop : ∀ condition body, motive body → motive (.while condition body))
    (function : ∀ f, (∀ s ∈ f.body, motive s) → motive (.function f))
    (giveBack : ∀ line value, motive (.return line value))
    (cls : ∀ c, (∀ f ∈ c.methods, ∀ s ∈ f.body, motive s) →
      motive (.class c)) (s : Stmt) : motive s :=
  @Stmt.rec motive (fun f => ∀ s ∈ f.body, motive s)
    (fun c => ∀ f ∈ c.methods, ∀ s ∈ f.body, motive s)
    (fun list => ∀ s ∈ list, motive s) (fun option => ∀ s ∈ option, motive s)
    (fun list => ∀ f ∈ list, ∀ s ∈ f.body, motive s)
    expression print var block ifElse loop function giveBack cls
    (fun _ _ _ _ hbody => hbody) (fun _ _ _ hmethods => hmethods)
    (fun _ h => absurd h List.not_mem_nil)
    (fun _ _ hfirst hrest _ h =>
      (List.mem_cons.1 h).elim (fun heq => heq ▸ hfirst) (hrest _))
    (fun _ h => nomatch h) (fun _ hvalue _ h => Option.some.inj h ▸ hvalue)
    (fun _ h => absurd h List.not_mem_nil)
    (fun _ _ hfirst hrest _ h =>
      (List.mem_cons.1 h).elim (fun heq => heq ▸ hfirst) (hrest _)) s

end Lox
