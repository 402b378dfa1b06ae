import Lox.Proofs.Scope.OwnAssigns
import Lox.Proofs.Stmt.WellFormed

/-!
# Code that fits its scopes

`Stmt.Scoped` says of a statement in some scopes that the distance table
suits it: every occurrence has the distance at which the scopes hold its name,
or none if they do not hold it, and `super` stands where `this` is held one
scope further in, unless the scope rules were never applied to it.  It follows
the scopes through the statement as the walk does, but records and reports
nothing.  An assignment to a local variable in its own initializer is apart:
its distance is that of a variable that is declared but has no value yet.

What is known of the code of a session is kept in a `Ledger`.  A ledger that
knows more ids suits all code that the smaller one suits (`Stmt.Scoped.mono`).
-/

namespace Lox

/-! ## Ledgers -/

/-- What is known of the code of a session: the ids below `nextId` are in
use, they have these distances, and `program` is what was given to run. -/
structure Ledger where
  nextId : Nat
  distances : Distances
  program : List Stmt

namespace Ledger

/-- The ids of what was given to run. -/
def ran (L : Ledger) : List Nat :=
  Stmt.idsAll L.program

/-- The assignments that lie inside the initializer of the local variable
they assign to. -/
def own (L : Ledger) : List Nat :=
  Stmt.ownAssignsAll L.program false

/-- The id is in use, and its distance is the given one. -/
structure Records (L : Ledger) (id : Nat) (distance : Option Nat) : Prop where
  lt : id < L.nextId
  find : L.distances.find? id = distance

/-- The second ledger knows more ids, and no more of the ids that the first
one knows. -/
structure Extends (L L' : Ledger) : Prop where
  le : L.nextId ≤ L'.nextId
  distances : ∀ id, id < L.nextId →
    L'.distances.find? id = L.distances.find? id
  ran : ∀ id, id < L.nextId → (id ∈ L'.ran ↔ id ∈ L.ran)
  own : ∀ id, id < L.nextId → (id ∈ L'.own ↔ id ∈ L.own)

theorem Records.mono {L L' : Ledger} {id : Nat} {distance : Option Nat}
    (h : L.Records id distance) (hle : L.Extends L') :
    L'.Records id distance :=
  ⟨Nat.lt_of_lt_of_le h.lt hle.le, (hle.distances id h.lt).trans h.find⟩

end Ledger

/-! ## Scopes -/

theorem Table.contains_insert {α : Type} (t : Table α) (name other : String)
    (value : α) :
    (t.insert name value).contains other =
      (decide (other = name) || t.contains other) := by
  unfold Table.contains
  rw [Table.find?_insert]
  by_cases h : other = name
  · simp [h]
  · simp [h]

namespace Scope

/-- How many scopes lie inside the innermost one that holds a name. -/
def distance (scopes : List (Table Bool)) (name : String) : Option Nat :=
  scopes.findIdx? fun scope => scope.contains name

theorem distance_cons (scope : Table Bool) (outer : List (Table Bool))
    (name : String) :
    distance (scope :: outer) name =
      if scope.contains name then some 0
      else (distance outer name).map (· + 1) := by
  unfold distance
  rw [List.findIdx?_cons]

theorem contains_foldl_insert (names : List String) (scope : Table Bool)
    (name : String) :
    (names.foldl (fun scope name => scope.insert name true) scope).contains
        name = (decide (name ∈ names) || scope.contains name) := by
  induction names generalizing scope with
  | nil => simp
  | cons x rest ih =>
    rw [List.foldl_cons, ih, Table.contains_insert]
    by_cases hx : name = x
    · simp [hx]
    · simp [hx]

/-- Other names of the innermost scope do not change a distance. -/
theorem distance_addNames {names : List String} {name : String}
    (h : name ∉ names) (scopes : List (Table Bool)) :
    distance (addNames names scopes) name = distance scopes name := by
  cases scopes with
  | nil => rfl
  | cons scope outer =>
    rw [addNames, distance_cons, distance_cons, contains_foldl_insert]
    simp [h]

/-- The scope around the members of a class. -/
def thisScope : Table Bool :=
  Table.empty.insert Keyword.kwThis.lexeme true

/-- The scope around that, in a class with a superclass. -/
def superScope : Table Bool :=
  Table.empty.insert Keyword.kwSuper.lexeme true

/-- The scopes hold `super`, and `this` one scope further in. -/
def Derived (scopes : List (Table Bool)) : Prop :=
  ∃ d, distance scopes Keyword.kwSuper.lexeme = some (d + 1) ∧
    distance scopes Keyword.kwThis.lexeme = some d

theorem Derived.addNames {names : List String} {scopes : List (Table Bool)}
    (h : Derived scopes) (hnames : ∀ name ∈ names, Unreserved name) :
    Derived (addNames names scopes) := by
  obtain ⟨d, hsuper, hthis⟩ := h
  refine ⟨d, ?_, ?_⟩
  · rw [distance_addNames fun hmem => (hnames _ hmem).2 rfl, hsuper]
  · rw [distance_addNames fun hmem => (hnames _ hmem).1 rfl, hthis]

/-- A scope further in that holds neither of the two names. -/
theorem Derived.cons_empty {scopes : List (Table Bool)} (h : Derived scopes) :
    Derived (.empty :: scopes) := by
  obtain ⟨d, hsuper, hthis⟩ := h
  refine ⟨d + 1, ?_, ?_⟩
  · rw [distance_cons, hsuper]
    rfl
  · rw [distance_cons, hthis]
    rfl

theorem derived_members (scopes : List (Table Bool)) :
    Derived (thisScope :: superScope :: scopes) := by
  refine ⟨0, ?_, ?_⟩
  · rw [distance_cons, distance_cons]
    rfl
  · rw [distance_cons]
    rfl

/-- The name that is declared but has no value yet in the initializer of a
variable: none at the top level, where there is no scope. -/
def opening (scopes : List (Table Bool)) (name : String) : Option String :=
  match scopes with
  | [] => none
  | _ :: _ => some name

/-- The name is not in the innermost scope. -/
def Free (scopes : List (Table Bool)) (name : String) : Prop :=
  ∀ scope ∈ scopes.head?, scope.contains name = false

end Scope

open Scope (distance addNames thisScope superScope Derived opening Free)

/-! ## Fitting code -/

/-- The assignment has the distance of its variable. -/
structure Ledger.Assigns (L : Ledger) (opening : Option String)
    (scopes : List (Table Bool)) (target : Ref) : Prop where
  unreserved : Unreserved target.name
  own : target.id ∈ L.own ↔ opening = some target.name
  records : L.Records target.id
    (if opening = some target.name then some 0 else distance scopes target.name)

mutual

/-- The expression fits the scopes, in the initializer of `opening` if there
is one. -/
def Expr.Scoped (L : Ledger) (opening : Option String)
    (scopes : List (Table Bool)) : Expr → Prop
  | .literal _ => True
  | .group inner => inner.Scoped L opening scopes
  | .unary _ _ right => right.Scoped L opening scopes
  | .binary left _ _ right =>
    left.Scoped L opening scopes ∧ right.Scoped L opening scopes
  | .logical left _ _ right =>
    left.Scoped L opening scopes ∧ right.Scoped L opening scopes
  | .variable ref => L.Records ref.id (distance scopes ref.name)
  | .assign target value =>
    value.Scoped L opening scopes ∧ L.Assigns opening scopes target
  | .call callee _ arguments =>
    callee.Scoped L opening scopes ∧ Expr.AllScoped L opening scopes arguments
  | .get object _ => object.Scoped L opening scopes
  | .set object _ value =>
    object.Scoped L opening scopes ∧ value.Scoped L opening scopes
  | .this id _ => L.Records id (distance scopes Keyword.kwThis.lexeme)
  | .super id _ _ =>
    L.Records id (distance scopes Keyword.kwSuper.lexeme) ∧
      (Derived scopes ∨ scopes = [] ∧ id ∉ L.ran)

/-- The expressions fit the scopes. -/
def Expr.AllScoped (L : Ledger) (opening : Option String)
    (scopes : List (Table Bool)) : List Expr → Prop
  | [] => True
  | e :: rest =>
    e.Scoped L opening scopes ∧ Expr.AllScoped L opening scopes rest

end

/-- The optional expression fits the scopes. -/
def Expr.OptionScoped (L : Ledger) (opening : Option String)
    (scopes : List (Table Bool)) : Option Expr → Prop
  | none => True
  | some e => e.Scoped L opening scopes

mutual

/-- The statement fits the scopes. -/
def Stmt.Scoped (L : Ledger) : Stmt → List (Table Bool) → Prop
  | .expression e, scopes => e.Scoped L none scopes
  | .print e, scopes => e.Scoped L none scopes
  | .var x initializer, scopes =>
    Unreserved x.name ∧ Free scopes x.name ∧
      Expr.OptionScoped L (opening scopes x.name) scopes initializer
  | .block body, scopes => Stmt.AllScoped L body (.empty :: scopes)
  | .ifElse condition thenBranch none, scopes =>
    condition.Scoped L none scopes ∧ thenBranch.declared = [] ∧
      thenBranch.Scoped L scopes
  | .ifElse condition thenBranch (some elseBranch), scopes =>
    condition.Scoped L none scopes ∧
      (thenBranch.declared = [] ∧ thenBranch.Scoped L scopes) ∧
      elseBranch.declared = [] ∧ elseBranch.Scoped L scopes
  | .while condition body, scopes =>
    condition.Scoped L none scopes ∧ body.declared = [] ∧ body.Scoped L scopes
  | .function f, scopes =>
    Unreserved f.name.name ∧ f.isInitializer = false ∧
      f.Scoped L (addNames [f.name.name] scopes)
  | .return _ value, scopes => Expr.OptionScoped L none scopes value
  | .class c, scopes => c.Scoped L scopes

/-- The statements fit the scopes one after the other. -/
def Stmt.AllScoped (L : Ledger) : List Stmt → List (Table Bool) → Prop
  | [], _ => True
  | s :: rest, scopes =>
    s.Scoped L scopes ∧ Stmt.AllScoped L rest (addNames s.declared scopes)

/-- The function fits the scopes around it. -/
def FunctionDecl.Scoped (L : Ledger) : FunctionDecl → List (Table Bool) → Prop
  | ⟨_, params, body, _⟩, scopes =>
    (∀ x ∈ params, Unreserved x.name) ∧
      Stmt.AllScoped L body
        (addNames (params.map Ident.name) (.empty :: scopes))

/-- All the functions fit the scopes around them. -/
def FunctionDecl.AllScoped (L : Ledger) :
    List FunctionDecl → List (Table Bool) → Prop
  | [], _ => True
  | f :: rest, scopes => f.Scoped L scopes ∧ FunctionDecl.AllScoped L rest scopes

/-- The class fits the scopes. -/
def ClassDecl.Scoped (L : Ledger) : ClassDecl → List (Table Bool) → Prop
  | ⟨name, none, methods⟩, scopes =>
    Unreserved name.name ∧
      FunctionDecl.AllScoped L methods
        (thisScope :: addNames [name.name] scopes)
  | ⟨name, some parent, methods⟩, scopes =>
    Unreserved name.name ∧
      L.Records parent.id
        (distance (addNames [name.name] scopes) parent.name) ∧
      FunctionDecl.AllScoped L methods
        (thisScope :: superScope :: addNames [name.name] scopes)

end

theorem FunctionDecl.scoped_iff {L : Ledger} {f : FunctionDecl}
    {scopes : List (Table Bool)} :
    f.Scoped L scopes ↔ (∀ x ∈ f.params, Unreserved x.name) ∧
      Stmt.AllScoped L f.body
        (addNames (f.params.map Ident.name) (.empty :: scopes)) := by
  obtain ⟨name, params, body, kind⟩ := f
  rw [FunctionDecl.Scoped]

/-! ## Larger ledgers -/

section

variable {L L' : Ledger}

theorem Ledger.Assigns.mono {opening : Option String}
    {scopes : List (Table Bool)} {target : Ref}
    (h : L.Assigns opening scopes target) (hle : L.Extends L') :
    L'.Assigns opening scopes target :=
  ⟨h.unreserved, (hle.own _ h.records.lt).trans h.own, h.records.mono hle⟩

theorem Expr.AllScoped.mono_of {opening : Option String}
    {scopes : List (Table Bool)} {list : List Expr}
    (ih : ∀ e ∈ list, e.Scoped L opening scopes → e.Scoped L' opening scopes)
    (h : Expr.AllScoped L opening scopes list) :
    Expr.AllScoped L' opening scopes list := by
  induction list with
  | nil => exact h
  | cons e rest ihrest =>
    obtain ⟨he, hrest⟩ := List.forall_mem_cons.1 ih
    rw [Expr.AllScoped] at h ⊢
    exact ⟨he h.1, ihrest hrest h.2⟩

theorem Expr.Scoped.mono {opening : Option String}
    {scopes : List (Table Bool)} {e : Expr} (h : e.Scoped L opening scopes)
    (hle : L.Extends L') : e.Scoped L' opening scopes := by
  induction e with
  | literal => simp only [Expr.Scoped]
  | group _ ih | unary _ _ _ ih | get _ _ ih =>
    rw [Expr.Scoped] at h ⊢
    exact ih h
  | binary _ _ _ _ ihleft ihright | logical _ _ _ _ ihleft ihright
  | set _ _ _ ihleft ihright =>
    rw [Expr.Scoped] at h ⊢
    exact ⟨ihleft h.1, ihright h.2⟩
  | occurrence | this =>
    rw [Expr.Scoped] at h ⊢
    exact h.mono hle
  | assign _ _ ih =>
    rw [Expr.Scoped] at h ⊢
    exact ⟨ih h.1, h.2.mono hle⟩
  | call _ _ _ ihcallee iharguments =>
    rw [Expr.Scoped] at h ⊢
    exact ⟨ihcallee h.1, .mono_of iharguments h.2⟩
  | super id =>
    rw [Expr.Scoped] at h ⊢
    refine ⟨h.1.mono hle, h.2.imp_right fun hoccurs => ⟨hoccurs.1, ?_⟩⟩
    rw [hle.ran id h.1.lt]
    exact hoccurs.2

theorem Expr.OptionScoped.mono {opening : Option String}
    {scopes : List (Table Bool)} {e : Option Expr}
    (h : Expr.OptionScoped L opening scopes e) (hle : L.Extends L') :
    Expr.OptionScoped L' opening scopes e := by
  cases e with
  | none => trivial
  | some e => exact Expr.Scoped.mono h hle

theorem Stmt.AllScoped.mono_of {list : List Stmt}
    (ih : ∀ s ∈ list, ∀ scopes, s.Scoped L scopes → s.Scoped L' scopes)
    {scopes : List (Table Bool)} (h : Stmt.AllScoped L list scopes) :
    Stmt.AllScoped L' list scopes := by
  induction list generalizing scopes with
  | nil => simp only [Stmt.AllScoped]
  | cons s rest ihrest =>
    obtain ⟨hs, hrest⟩ := List.forall_mem_cons.1 ih
    rw [Stmt.AllScoped] at h ⊢
    exact ⟨hs _ h.1, ihrest hrest h.2⟩

theorem FunctionDecl.Scoped.mono_of {f : FunctionDecl}
    (ih : ∀ s ∈ f.body, ∀ scopes, s.Scoped L scopes → s.Scoped L' scopes)
    {scopes : List (Table Bool)} (h : f.Scoped L scopes) :
    f.Scoped L' scopes := by
  obtain ⟨name, params, body, kind⟩ := f
  rw [FunctionDecl.Scoped] at h ⊢
  exact ⟨h.1, .mono_of ih h.2⟩

theorem FunctionDecl.AllScoped.mono_of {list : List FunctionDecl}
    (ih : ∀ f ∈ list, ∀ s ∈ f.body, ∀ scopes, s.Scoped L scopes →
      s.Scoped L' scopes) {scopes : List (Table Bool)}
    (h : FunctionDecl.AllScoped L list scopes) :
    FunctionDecl.AllScoped L' list scopes := by
  induction list with
  | nil => simp only [FunctionDecl.AllScoped]
  | cons f rest ihrest =>
    obtain ⟨hf, hrest⟩ := List.forall_mem_cons.1 ih
    rw [FunctionDecl.AllScoped] at h ⊢
    exact ⟨.mono_of hf h.1, ihrest hrest h.2⟩

theorem ClassDecl.Scoped.mono_of (hle : L.Extends L') {c : ClassDecl}
    (ih : ∀ f ∈ c.methods, ∀ s ∈ f.body, ∀ scopes, s.Scoped L scopes →
      s.Scoped L' scopes) {scopes : List (Table Bool)} (h : c.Scoped L scopes) :
    c.Scoped L' scopes := by
  obtain ⟨name, superclass, methods⟩ := c
  cases superclass with
  | none =>
    rw [ClassDecl.Scoped] at h ⊢
    exact ⟨h.1, .mono_of ih h.2⟩
  | some parent =>
    rw [ClassDecl.Scoped] at h ⊢
    exact ⟨h.1, h.2.1.mono hle, .mono_of ih h.2.2⟩

/-- Code that fits its scopes goes on to do so when more code is loaded. -/
theorem Stmt.Scoped.mono {s : Stmt} {scopes : List (Table Bool)}
    (h : s.Scoped L scopes) (hle : L.Extends L') : s.Scoped L' scopes := by
  induction s generalizing scopes with
  | expression e | print e =>
    rw [Stmt.Scoped] at h ⊢
    exact Expr.Scoped.mono h hle
  | var x initializer =>
    rw [Stmt.Scoped] at h ⊢
    exact ⟨h.1, h.2.1, h.2.2.mono hle⟩
  | block body ih =>
    rw [Stmt.Scoped] at h ⊢
    exact .mono_of (fun s hs _ => ih s hs) h
  | ifElse condition thenBranch elseBranch ihthen ihelse =>
    cases elseBranch with
    | none =>
      rw [Stmt.Scoped] at h ⊢
      exact ⟨h.1.mono hle, h.2.1, ihthen h.2.2⟩
    | some elseBranch =>
      rw [Stmt.Scoped] at h ⊢
      exact ⟨h.1.mono hle, ⟨h.2.1.1, ihthen h.2.1.2⟩, h.2.2.1,
        ihelse elseBranch rfl h.2.2.2⟩
  | loop condition body ih =>
    rw [Stmt.Scoped] at h ⊢
    exact ⟨h.1.mono hle, h.2.1, ih h.2.2⟩
  | function f ih =>
    rw [Stmt.Scoped] at h ⊢
    exact ⟨h.1, h.2.1, .mono_of (fun s hs _ => ih s hs) h.2.2⟩
  | giveBack line value =>
    rw [Stmt.Scoped] at h ⊢
    exact h.mono hle
  | cls c ih =>
    rw [Stmt.Scoped] at h ⊢
    exact .mono_of hle (fun f hf s hs _ => ih f hf s hs) h

theorem FunctionDecl.Scoped.mono {f : FunctionDecl}
    {scopes : List (Table Bool)} (h : f.Scoped L scopes)
    (hle : L.Extends L') : f.Scoped L' scopes :=
  .mono_of (fun _ _ _ h => h.mono hle) h

end

end Lox
