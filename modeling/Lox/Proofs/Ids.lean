import Lox.Proofs.Induction
import Lox.Proofs.Labels
import Lox.Proofs.Stmt.Phrase

/-!
# The ids of a tree

Every occurrence that the scope rules can bind has an id, and no two
occurrences of a program share one.  `Reads.fresh` proves it for what is read
from a source: the ids of the tree are those that the reader handed out, each
at most once.

A change of labels that keeps the ids of a tree, and all lines, keeps the
tree (`Stmt.relabel_eq_self`).
-/

namespace Lox

/-! ## Ids in a tree -/

mutual

/-- The ids of an expression. -/
def Expr.ids : Expr → List Nat
  | .literal _ => []
  | .group inner => inner.ids
  | .unary _ _ right => right.ids
  | .binary left _ _ right => left.ids ++ right.ids
  | .logical left _ _ right => left.ids ++ right.ids
  | .variable ref => [ref.id]
  | .assign target value => value.ids ++ [target.id]
  | .call callee _ arguments => callee.ids ++ Expr.idsAll arguments
  | .get object _ => object.ids
  | .set object _ value => object.ids ++ value.ids
  | .this id _ => [id]
  | .super id _ _ => [id]

/-- The ids of some expressions. -/
def Expr.idsAll : List Expr → List Nat
  | [] => []
  | e :: rest => e.ids ++ Expr.idsAll rest

end

/-- The ids of an optional expression. -/
def Expr.idsOption : Option Expr → List Nat
  | none => []
  | some e => e.ids

mutual

/-- The ids of a statement. -/
def Stmt.ids : Stmt → List Nat
  | .expression e => e.ids
  | .print e => e.ids
  | .var _ initializer => Expr.idsOption initializer
  | .block body => Stmt.idsAll body
  | .ifElse condition thenBranch none => condition.ids ++ thenBranch.ids
  | .ifElse condition thenBranch (some elseBranch) =>
    condition.ids ++ (thenBranch.ids ++ elseBranch.ids)
  | .while condition body => condition.ids ++ body.ids
  | .function f => f.ids
  | .return _ value => Expr.idsOption value
  | .class c => c.ids

/-- The ids of some statements. -/
def Stmt.idsAll : List Stmt → List Nat
  | [] => []
  | s :: rest => s.ids ++ Stmt.idsAll rest

/-- The ids of a function. -/
def FunctionDecl.ids : FunctionDecl → List Nat
  | ⟨_, _, body, _⟩ => Stmt.idsAll body

/-- The ids of some functions. -/
def FunctionDecl.idsAll : List FunctionDecl → List Nat
  | [] => []
  | f :: rest => f.ids ++ FunctionDecl.idsAll rest

/-- The ids of a class. -/
def ClassDecl.ids : ClassDecl → List Nat
  | ⟨_, none, methods⟩ => FunctionDecl.idsAll methods
  | ⟨_, some parent, methods⟩ => parent.id :: FunctionDecl.idsAll methods

end

theorem Expr.idsAll_append (list list' : List Expr) :
    Expr.idsAll (list ++ list') = Expr.idsAll list ++ Expr.idsAll list' := by
  induction list with
  | nil => rfl
  | cons e rest ih =>
    rw [List.cons_append, Expr.idsAll, ih, Expr.idsAll, List.append_assoc]

theorem Stmt.idsAll_append (list list' : List Stmt) :
    Stmt.idsAll (list ++ list') = Stmt.idsAll list ++ Stmt.idsAll list' := by
  induction list with
  | nil => rfl
  | cons s rest ih =>
    rw [List.cons_append, Stmt.idsAll, ih, Stmt.idsAll, List.append_assoc]

theorem FunctionDecl.idsAll_append (list list' : List FunctionDecl) :
    FunctionDecl.idsAll (list ++ list') =
      FunctionDecl.idsAll list ++ FunctionDecl.idsAll list' := by
  induction list with
  | nil => rfl
  | cons f rest ih =>
    rw [List.cons_append, FunctionDecl.idsAll, ih, FunctionDecl.idsAll,
      List.append_assoc]

/-! ## Fresh ids -/

/-- The ids lie from `n` up to but not including `n'`, and no id is there
twice. -/
structure Fresh (n : Nat) (ids : List Nat) (n' : Nat) : Prop where
  le : n ≤ n'
  range : ∀ id ∈ ids, n ≤ id ∧ id < n'
  nodup : ids.Nodup

namespace Fresh

variable {n m n' : Nat} {ids ids' : List Nat}

theorem nil (n : Nat) : Fresh n [] n :=
  ⟨Nat.le_refl n, by simp, List.nodup_nil⟩

theorem single (n : Nat) : Fresh n [n] (n + 1) :=
  ⟨Nat.le_succ n, by simp, by simp⟩

theorem append (h : Fresh n ids m) (h' : Fresh m ids' n') :
    Fresh n (ids ++ ids') n' where
  le := Nat.le_trans h.le h'.le
  range := by
    have hle := h.le
    have hle' := h'.le
    intro id hid
    rcases List.mem_append.1 hid with hid | hid
    · have := h.range id hid
      omega
    · have := h'.range id hid
      omega
  nodup := by
    refine List.nodup_append.2 ⟨h.nodup, h'.nodup, ?_⟩
    intro id hid id' hid'
    have := h.range id hid
    have := h'.range id' hid'
    omega

theorem perm (h : Fresh n ids n') (hperm : ids.Perm ids') : Fresh n ids' n' :=
  ⟨h.le, fun id hid => h.range id (hperm.mem_iff.2 hid),
    hperm.nodup_iff.1 h.nodup⟩

theorem widen (h : Fresh m ids n') (hle : n ≤ m) : Fresh n ids n' where
  le := Nat.le_trans hle h.le
  range := by
    intro id hid
    have := h.range id hid
    omega
  nodup := h.nodup

end Fresh

/-! ## What is read has fresh ids -/

/-- The ids of a phrase. -/
def Expr.Phrase.ids : Expr.Phrase → List Nat
  | .expr _ e => e.ids
  | .arguments list => Expr.idsAll list

theorem Expr.ids_apply (op : Operator) (left right : Expr) (line : Nat) :
    (op.apply left line right).ids = left.ids ++ right.ids := by
  cases op <;> simp only [Operator.apply, Expr.ids]

theorem Expr.Reads.fresh {n n' : Nat} {phrase : Expr.Phrase} {w : List Token}
    (h : Expr.Reads n phrase w n') : Fresh n phrase.ids n' := by
  induction h with
  | literal => simp only [Phrase.ids, Expr.ids]; exact .nil _
  | name | this | super => simp only [Phrase.ids, Expr.ids]; exact .single _
  | group _ ih | get _ ih | unary _ _ ih =>
    simp only [Phrase.ids, Expr.ids] at ih ⊢
    exact ih
  | callEmpty _ ih =>
    simp only [Phrase.ids, Expr.ids, Expr.idsAll, List.append_nil] at ih ⊢
    exact ih
  | call _ _ ihhead ihtail =>
    simp only [Phrase.ids, Expr.ids] at ihhead ihtail ⊢
    exact ihhead.append ihtail
  | one _ ih =>
    simp only [Phrase.ids, Expr.idsAll, List.append_nil] at ih ⊢
    exact ih
  | more _ _ _ ihearlier ihlast =>
    simp only [Phrase.ids, Expr.idsAll_append, Expr.idsAll,
      List.append_nil] at ihearlier ihlast ⊢
    exact ihearlier.append ihlast
  | operand _ ih | level _ ih | assignment _ ih => exact ih
  | operator _ _ _ ihfirst ihsecond =>
    simp only [Phrase.ids, Expr.ids_apply] at ihfirst ihsecond ⊢
    exact ihfirst.append ihsecond
  | assign _ ih =>
    simp only [Phrase.ids, Expr.ids] at ih ⊢
    exact (ih.widen (Nat.le_succ _)).append (.single _)
  | set _ _ ihhead ihinner =>
    simp only [Phrase.ids, Expr.ids] at ihhead ihinner ⊢
    exact ihhead.append ihinner

namespace Stmt

variable {n n' : Nat} {w : List Token}

theorem ReadsOption.fresh {v : Option Expr} (h : ReadsOption n v w n') :
    Fresh n (Expr.idsOption v) n' := by
  cases h with
  | none => exact .nil _
  | some h => exact h.fresh

theorem ReadsVar.fresh {s : Stmt} (h : ReadsVar n s w n') : Fresh n s.ids n' := by
  cases h with
  | plain => simp only [Stmt.ids, Expr.idsOption]; exact .nil _
  | initialized value => simp only [Stmt.ids, Expr.idsOption]; exact value.fresh

theorem ReadsExpression.fresh {build : Expr → Stmt} {s : Stmt}
    (h : ReadsExpression build n s w n') (hbuild : ∀ e, (build e).ids = e.ids) :
    Fresh n s.ids n' := by
  obtain ⟨h⟩ := h
  rw [hbuild]
  exact h.fresh

theorem ReadsCondition.fresh {e : Expr} (h : ReadsCondition n e w n') :
    Fresh n e.ids n' := by
  obtain ⟨h⟩ := h
  exact h.fresh

/-- The ids of an optional statement. -/
def idsOption : Option Stmt → List Nat
  | none => []
  | some s => s.ids

theorem ReadsForInitializer.fresh {s : Option Stmt}
    (h : ReadsForInitializer n s w n') : Fresh n (idsOption s) n' := by
  cases h with
  | none => exact .nil _
  | var h => exact h.fresh
  | expression h => exact h.fresh fun e => by simp only [Stmt.ids]

/-- The ids of the clauses of a `for` loop, in the order of the source. -/
def ForClauses.ids (clauses : ForClauses) : List Nat :=
  idsOption clauses.initializer ++ (Expr.idsOption clauses.condition ++
    Expr.idsOption clauses.increment)

theorem ReadsForClauses.fresh {clauses : ForClauses}
    (h : ReadsForClauses n clauses w n') : Fresh n clauses.ids n' := by
  obtain ⟨first, second, third⟩ := h
  exact first.fresh.append (second.fresh.append third.fresh)

theorem ForClauses.ids_loop (clauses : ForClauses) (body : Stmt) :
    (clauses.loop body).ids = idsOption clauses.initializer ++
      (Expr.idsOption clauses.condition ++
        (body.ids ++ Expr.idsOption clauses.increment)) := by
  rcases clauses with ⟨_ | initializer, _ | condition, _ | increment⟩ <;>
    simp [ForClauses.loop, idsOption, Expr.idsOption, Stmt.ids, Stmt.idsAll,
      Expr.ids]

/-- In the loop the increment comes after the body, which is read after it. -/
theorem ForClauses.ids_loop_perm (clauses : ForClauses) (body : Stmt) :
    (clauses.ids ++ body.ids).Perm (clauses.loop body).ids := by
  rw [ForClauses.ids_loop, ForClauses.ids, List.append_assoc, List.append_assoc]
  exact (List.perm_append_comm.append_left _).append_left _

theorem ReadsClassHead.fresh {head : ClassHead} {list : List FunctionDecl}
    {m : Nat} (h : ReadsClassHead n head w m)
    (hlist : Fresh m (FunctionDecl.idsAll list) n') :
    Fresh n (ClassDecl.ids ⟨head.name, head.superclass, list⟩) n' := by
  cases h with
  | base => simp only [ClassDecl.ids]; exact hlist
  | derived => simp only [ClassDecl.ids]; exact (Fresh.single n).append hlist

/-- The ids of a phrase. -/
def Phrase.ids : Phrase → List Nat
  | .declarations list => Stmt.idsAll list
  | .declaration _ s => s.ids
  | .statement _ s => s.ids
  | .members list => FunctionDecl.idsAll list

theorem Reads.fresh {phrase : Phrase} (h : Reads n phrase w n') :
    Fresh n phrase.ids n' := by
  induction h with
  | nil | noMember => exact .nil _
  | snoc _ _ ihearlier ihlast =>
    simp only [Phrase.ids, Stmt.idsAll_append, Stmt.idsAll,
      List.append_nil] at ihearlier ihlast ⊢
    exact ihearlier.append ihlast
  | statement _ ih => exact ih
  | var h => exact h.fresh
  | function _ _ ih =>
    simp only [Phrase.ids, Stmt.ids, Header.withBody, FunctionDecl.ids] at ih ⊢
    exact ih
  | «class» h _ ih =>
    simp only [Phrase.ids, Stmt.ids] at ih ⊢
    exact h.fresh ih
  | member _ _ _ ihearlier ihinner =>
    simp only [Phrase.ids, FunctionDecl.idsAll_append, FunctionDecl.idsAll,
      Header.withBody, FunctionDecl.ids, List.append_nil] at ihearlier ihinner ⊢
    exact ihearlier.append ihinner
  | expression h | print h => exact h.fresh fun e => by simp only [Stmt.ids]
  | «return» h =>
    obtain ⟨h⟩ := h
    simp only [Phrase.ids, Stmt.ids]
    exact h.fresh
  | block _ ih =>
    simp only [Phrase.ids, Stmt.ids] at ih ⊢
    exact ih
  | ifThen h _ ih | «while» h _ ih =>
    simp only [Phrase.ids, Stmt.ids] at ih ⊢
    exact h.fresh.append ih
  | ifElse h _ _ ihthen ihelse =>
    simp only [Phrase.ids, Stmt.ids] at ihthen ihelse ⊢
    exact h.fresh.append (ihthen.append ihelse)
  | «for» h _ ih =>
    simp only [Phrase.ids] at ih ⊢
    exact (h.fresh.append ih).perm (ForClauses.ids_loop_perm _ _)

end Stmt

/-! ## Labels that are kept -/

/-- The labeling keeps all lines and the ids of a list. -/
structure Labeling.Keeps (ρ : Labeling) (ids : List Nat) : Prop where
  line : ∀ line, ρ.line line = line
  id : ∀ id ∈ ids, ρ.id id = id

namespace Labeling.Keeps

variable {ρ : Labeling} {ids ids' : List Nat}

theorem left (h : ρ.Keeps (ids ++ ids')) : ρ.Keeps ids :=
  ⟨h.line, fun id hid => h.id id (List.mem_append_left _ hid)⟩

theorem right (h : ρ.Keeps (ids ++ ids')) : ρ.Keeps ids' :=
  ⟨h.line, fun id hid => h.id id (List.mem_append_right _ hid)⟩

theorem ident (h : ρ.Keeps ids) (x : Ident) : x.relabel ρ = x := by
  rw [Ident.relabel, h.line]

theorem idents (h : ρ.Keeps ids) (list : List Ident) :
    list.map (Ident.relabel ρ) = list := by
  rw [funext h.ident, List.map_id']

theorem ref {ref : Ref} (h : ρ.Keeps [ref.id]) : ref.relabel ρ = ref := by
  rw [Ref.relabel, h.line, h.id _ (List.mem_singleton_self _)]

end Labeling.Keeps

theorem Expr.relabelAll_eq_self {ρ : Labeling} {list : List Expr}
    (h : ρ.Keeps (Expr.idsAll list))
    (ih : ∀ e ∈ list, ρ.Keeps e.ids → e.relabel ρ = e) :
    list.map (Expr.relabel ρ) = list := by
  induction list with
  | nil => rfl
  | cons e rest ihrest =>
    rw [Expr.idsAll] at h
    obtain ⟨he, hrest⟩ := List.forall_mem_cons.1 ih
    rw [List.map_cons, he h.left, ihrest h.right hrest]

theorem Expr.relabel_eq_self {ρ : Labeling} {e : Expr} (h : ρ.Keeps e.ids) :
    e.relabel ρ = e := by
  induction e with
  | literal => rw [Expr.relabel]
  | group inner ih | get inner _ ih | unary _ _ inner ih =>
    rw [Expr.ids] at h
    simp only [Expr.relabel, ih h, h.line, h.ident]
  | binary left _ _ right ihleft ihright | logical left _ _ right ihleft ihright
  | set left _ right ihleft ihright =>
    rw [Expr.ids] at h
    simp only [Expr.relabel, ihleft h.left, ihright h.right, h.line, h.ident]
  | occurrence ref => rw [Expr.ids] at h; rw [Expr.relabel, h.ref]
  | assign target value ih =>
    rw [Expr.ids] at h
    rw [Expr.relabel, ih h.left, h.right.ref]
  | call callee line arguments ihcallee iharguments =>
    rw [Expr.ids] at h
    rw [Expr.relabel, ihcallee h.left, h.line, Expr.relabelAll_eq_map,
      Expr.relabelAll_eq_self h.right iharguments]
  | this id line | super id line =>
    rw [Expr.ids] at h
    simp only [Expr.relabel, h.line, h.ident, h.id id (List.mem_singleton_self _)]

theorem Expr.relabelOption_eq_self {ρ : Labeling} {e : Option Expr}
    (h : ρ.Keeps (Expr.idsOption e)) : e.map (Expr.relabel ρ) = e := by
  cases e with
  | none => rfl
  | some e => rw [Option.map_some, Expr.relabel_eq_self h]

theorem Stmt.relabelAll_eq_self_of {ρ : Labeling} {list : List Stmt}
    (h : ρ.Keeps (Stmt.idsAll list))
    (ih : ∀ s ∈ list, ρ.Keeps s.ids → s.relabel ρ = s) :
    list.map (Stmt.relabel ρ) = list := by
  induction list with
  | nil => rfl
  | cons s rest ihrest =>
    rw [Stmt.idsAll] at h
    obtain ⟨hs, hrest⟩ := List.forall_mem_cons.1 ih
    rw [List.map_cons, hs h.left, ihrest h.right hrest]

theorem FunctionDecl.relabel_eq_self_of {ρ : Labeling} {f : FunctionDecl}
    (h : ρ.Keeps f.ids) (ih : ∀ s ∈ f.body, ρ.Keeps s.ids → s.relabel ρ = s) :
    f.relabel ρ = f := by
  obtain ⟨name, params, body, kind⟩ := f
  rw [FunctionDecl.ids] at h
  simp only [FunctionDecl.relabel_eq, h.ident, h.idents,
    Stmt.relabelAll_eq_self_of h ih]

theorem FunctionDecl.relabelAll_eq_self_of {ρ : Labeling}
    {list : List FunctionDecl} (h : ρ.Keeps (FunctionDecl.idsAll list))
    (ih : ∀ f ∈ list, ∀ s ∈ f.body, ρ.Keeps s.ids → s.relabel ρ = s) :
    list.map (FunctionDecl.relabel ρ) = list := by
  induction list with
  | nil => rfl
  | cons f rest ihrest =>
    rw [FunctionDecl.idsAll] at h
    obtain ⟨hf, hrest⟩ := List.forall_mem_cons.1 ih
    rw [List.map_cons, FunctionDecl.relabel_eq_self_of h.left hf,
      ihrest h.right hrest]

theorem ClassDecl.relabel_eq_self_of {ρ : Labeling} {c : ClassDecl}
    (h : ρ.Keeps c.ids)
    (ih : ∀ f ∈ c.methods, ∀ s ∈ f.body, ρ.Keeps s.ids → s.relabel ρ = s) :
    c.relabel ρ = c := by
  obtain ⟨name, superclass, methods⟩ := c
  cases superclass with
  | none =>
    rw [ClassDecl.ids] at h
    simp only [ClassDecl.relabel_eq, h.ident, Option.map_none,
      FunctionDecl.relabelAll_eq_self_of h ih]
  | some parent =>
    have h : ρ.Keeps ([parent.id] ++ FunctionDecl.idsAll methods) := h
    simp only [ClassDecl.relabel_eq, h.ident, Option.map_some, h.left.ref,
      FunctionDecl.relabelAll_eq_self_of h.right ih]

theorem Stmt.relabel_eq_self {ρ : Labeling} {s : Stmt} (h : ρ.Keeps s.ids) :
    s.relabel ρ = s := by
  induction s with
  | expression e | print e =>
    rw [Stmt.ids] at h
    rw [Stmt.relabel, Expr.relabel_eq_self h]
  | var x initializer =>
    rw [Stmt.ids] at h
    rw [Stmt.relabel, h.ident, Expr.relabelOption_eq_self h]
  | block body ih =>
    rw [Stmt.ids] at h
    rw [Stmt.relabel, Stmt.relabelAll_eq_map, Stmt.relabelAll_eq_self_of h ih]
  | ifElse condition thenBranch elseBranch ihthen ihelse =>
    cases elseBranch with
    | none =>
      rw [Stmt.ids] at h
      rw [Stmt.relabel, Expr.relabel_eq_self h.left, ihthen h.right]
    | some elseBranch =>
      rw [Stmt.ids] at h
      rw [Stmt.relabel, Expr.relabel_eq_self h.left, ihthen h.right.left,
        ihelse elseBranch rfl h.right.right]
  | loop condition body ih =>
    rw [Stmt.ids] at h
    rw [Stmt.relabel, Expr.relabel_eq_self h.left, ih h.right]
  | function f ih =>
    rw [Stmt.ids] at h
    rw [Stmt.relabel, FunctionDecl.relabel_eq_self_of h ih]
  | giveBack line value =>
    rw [Stmt.ids] at h
    rw [Stmt.relabel, h.line, Expr.relabelOption_eq_self h]
  | cls c ih =>
    rw [Stmt.ids] at h
    rw [Stmt.relabel, ClassDecl.relabel_eq_self_of h ih]

theorem Stmt.relabelAll_eq_self {ρ : Labeling} {list : List Stmt}
    (h : ρ.Keeps (Stmt.idsAll list)) : list.map (Stmt.relabel ρ) = list :=
  Stmt.relabelAll_eq_self_of h fun _ _ => Stmt.relabel_eq_self

end Lox
