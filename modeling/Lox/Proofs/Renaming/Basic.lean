import Lox.Proofs.Stmt.WellFormed
import Lox.Scope.Distances
import Mathlib.Data.List.Forall2

/-!
# New names for local variables

A `Renaming` gives local variables called `old` the name `new`.  Which ones is
up to the scopes: each scope that a block or a function opens is changed or
not.  In a changed scope the declaration of `old`, as a variable or as a
parameter, becomes one of `new`, and so do the occurrences that the table of
distances binds to that scope; nothing else becomes another.  What this makes
of an expression is a function of the scopes around it (`Expr.rename`); what
it makes of a statement depends on the choice that is made for each scope in
it, so `Stmt.Renames` is a relation.

In a changed scope the two names change places.  Where `new` stands nowhere
in a program this is the same as to put `new` for `old`, and it needs no case
for names that are neither.
-/

section

variable {α β : Type} {R S : α → β → Prop} {a : Option α} {b : Option β}

theorem Option.Rel.isSome_eq (h : Option.Rel R a b) : b.isSome = a.isSome := by
  cases h <;> rfl

theorem Option.Rel.imp (h : Option.Rel R a b) (himp : ∀ x y, R x y → S x y) :
    Option.Rel S a b := by
  cases h with
  | none => exact .none
  | some hvalue => exact .some (himp _ _ hvalue)

theorem Option.Rel.eq {a b : Option α} (h : Option.Rel Eq a b) : b = a := by
  cases h with
  | none => rfl
  | some heq => rw [heq]

end

namespace Lox

/-- Whether a word is the name of something: an identifier and no keyword. -/
def Token.isName (word : String) : Bool :=
  match word.toList with
  | [] => false
  | c :: rest =>
    isNameStart c && rest.all isNamePart && (Keyword.ofLexeme? word).isNone

theorem Token.unreserved_of_isName {word : String}
    (h : Token.isName word = true) : Unreserved word := by
  have hword : Kind.ofWord word = .identifier word := by
    unfold Token.isName at h
    split at h
    · cases h
    · simp only [Bool.and_eq_true] at h
      rw [Kind.ofWord, Option.isNone_iff_eq_none.1 h.2]
  exact unreserved_ofWord hword

/-- A new name for local variables.  The table says which scope an occurrence
is bound to. -/
structure Renaming where
  old : String
  new : String
  table : Distances
  old_isName : Token.isName old = true
  new_isName : Token.isName new = true

namespace Renaming

variable (r : Renaming)

/-- What becomes of a name of a scope. -/
def name (changed : Bool) (x : String) : String :=
  if changed then
    if x = r.old then r.new else if x = r.new then r.old else x
  else x

@[simp] theorem name_false (x : String) : r.name false x = x := rfl

theorem name_of_ne {x : String} (hold : x ≠ r.old) (hnew : x ≠ r.new)
    (changed : Bool) : r.name changed x = x := by
  cases changed with
  | false => rfl
  | true => rw [name, if_pos rfl, if_neg hold, if_neg hnew]

@[simp] theorem name_name (changed : Bool) (x : String) :
    r.name changed (r.name changed x) = x := by
  cases changed with
  | false => rfl
  | true =>
    by_cases hold : x = r.old
    · by_cases hsame : r.new = r.old <;> simp [name, hold, hsame]
    · by_cases hnew : x = r.new
      · simp [name, hnew]
      · rw [name_of_ne r hold hnew, name_of_ne r hold hnew]

theorem name_injective (changed : Bool) :
    Function.Injective (r.name changed) := by
  intro x y h
  rw [← r.name_name changed x, h, r.name_name]

theorem ne_new_of_reserved {x : String} (h : ¬ Unreserved x) : x ≠ r.new := by
  rintro rfl
  exact h (Token.unreserved_of_isName r.new_isName)

theorem name_of_reserved {x : String} (h : ¬ Unreserved x) (changed : Bool) :
    r.name changed x = x := by
  apply name_of_ne
  · rintro rfl
    exact h (Token.unreserved_of_isName r.old_isName)
  · exact r.ne_new_of_reserved h

/-- The two ways in which a name other than `new` can come out. -/
theorem name_eq {x : String} (h : x ≠ r.new) (changed : Bool) :
    r.name changed x = x ∨ x = r.old ∧ r.name changed x = r.new := by
  by_cases hold : x = r.old
  · cases changed with
    | false => exact .inl rfl
    | true => exact .inr ⟨hold, by rw [name, if_pos rfl, if_pos hold]⟩
  · exact .inl (r.name_of_ne hold h changed)

/-- A scope gives a name back that another scope gave, unless it is `new`. -/
theorem name_name_eq {x : String} (h : x ≠ r.new) (changed other : Bool) :
    r.name changed (r.name other x) = x ∨
      r.name changed (r.name other x) = r.new := by
  cases changed with
  | false => exact (r.name_eq h other).imp_right And.right
  | true =>
    cases other with
    | false => exact (r.name_eq h true).imp_right And.right
    | true => exact .inl (r.name_name true x)

/-- What becomes of the name of an occurrence at a distance, where `chain`
says which of the scopes around it are changed, innermost first. -/
def nameAt (chain : List Bool) (distance : Option Nat) (x : String) : String :=
  match distance with
  | none => x
  | some d => r.name (chain.getD d false) x

theorem nameAt_eq (chain : List Bool) (distance : Option Nat) (x : String) :
    ∃ changed, r.nameAt chain distance x = r.name changed x := by
  cases distance with
  | none => exact ⟨false, rfl⟩
  | some d => exact ⟨chain.getD d false, rfl⟩

theorem nameAt_of_reserved {x : String} (h : ¬ Unreserved x)
    (chain : List Bool) (distance : Option Nat) :
    r.nameAt chain distance x = x := by
  obtain ⟨changed, hchanged⟩ := r.nameAt_eq chain distance x
  rw [hchanged, r.name_of_reserved h]

/-- Where an occurrence is one scope further in, so is its distance. -/
theorem nameAt_cons (changed : Bool) (chain : List Bool)
    (distance : Option Nat) (x : String) :
    r.nameAt (changed :: chain) (distance.map (· + 1)) x =
      r.nameAt chain distance x := by
  cases distance <;> rfl

/-- The innermost scope keeps a name. -/
def Keeps (chain : List Bool) (x : Ident) : Prop :=
  r.name (chain.headD false) x.name = x.name

end Renaming

/-! ## Expressions -/

/-- The identifier in a scope that is changed or not. -/
def Ident.rename (r : Renaming) (changed : Bool) (x : Ident) : Ident :=
  ⟨r.name changed x.name, x.line⟩

/-- The occurrence with the name of what it is bound to. -/
def Ref.rename (r : Renaming) (chain : List Bool) (ref : Ref) : Ref :=
  ⟨ref.id, r.nameAt chain (r.table.find? ref.id) ref.name, ref.line⟩

mutual

/-- The expression with the names of what its occurrences are bound to. -/
def Expr.rename (r : Renaming) (chain : List Bool) : Expr → Expr
  | .literal value => .literal value
  | .group inner => .group (inner.rename r chain)
  | .unary op line right => .unary op line (right.rename r chain)
  | .binary left op line right =>
    .binary (left.rename r chain) op line (right.rename r chain)
  | .logical left op line right =>
    .logical (left.rename r chain) op line (right.rename r chain)
  | .variable ref => .variable (ref.rename r chain)
  | .assign target value =>
    .assign (target.rename r chain) (value.rename r chain)
  | .call callee line arguments =>
    .call (callee.rename r chain) line (Expr.renameAll r chain arguments)
  | .get object name => .get (object.rename r chain) name
  | .set object name value =>
    .set (object.rename r chain) name (value.rename r chain)
  | .this id line => .this id line
  | .super id line method => .super id line method

/-- Expressions with the names of what their occurrences are bound to. -/
def Expr.renameAll (r : Renaming) (chain : List Bool) : List Expr → List Expr
  | [] => []
  | e :: rest => e.rename r chain :: Expr.renameAll r chain rest

end

@[simp] theorem Expr.renameAll_eq_map (r : Renaming) (chain : List Bool)
    (list : List Expr) :
    Expr.renameAll r chain list = list.map (Expr.rename r chain) := by
  induction list with
  | nil => rfl
  | cons e rest ih => rw [Expr.renameAll, ih, List.map_cons]

/-! ## Statements -/

mutual

/-- The statement becomes the other one.  `chain` says which of the scopes
around it are changed, innermost first; those that it opens may be changed or
not.  Functions and classes keep their names. -/
def Stmt.Renames (r : Renaming) : Stmt → List Bool → Stmt → Prop
  | .expression e, chain, s' => s' = .expression (e.rename r chain)
  | .print e, chain, s' => s' = .print (e.rename r chain)
  | .var x initializer, chain, s' =>
    s' = .var (x.rename r (chain.headD false))
      (initializer.map (Expr.rename r chain))
  | .block body, chain, s' => ∃ changed body',
    Stmt.AllRename r body (changed :: chain) body' ∧ s' = .block body'
  | .ifElse condition thenBranch none, chain, s' => ∃ thenBranch',
    thenBranch.Renames r chain thenBranch' ∧
      s' = .ifElse (condition.rename r chain) thenBranch' none
  | .ifElse condition thenBranch (some elseBranch), chain, s' =>
    ∃ thenBranch' elseBranch', thenBranch.Renames r chain thenBranch' ∧
      elseBranch.Renames r chain elseBranch' ∧
      s' = .ifElse (condition.rename r chain) thenBranch' (some elseBranch')
  | .while condition body, chain, s' => ∃ body',
    body.Renames r chain body' ∧ s' = .while (condition.rename r chain) body'
  | .function f, chain, s' => r.Keeps chain f.name ∧ ∃ f',
    f.Renames r chain f' ∧ s' = .function f'
  | .return line value, chain, s' =>
    s' = .return line (value.map (Expr.rename r chain))
  | .class c, chain, s' => ∃ c', c.Renames r chain c' ∧ s' = .class c'

/-- The statements become the others one by one. -/
def Stmt.AllRename (r : Renaming) : List Stmt → List Bool → List Stmt → Prop
  | [], _, list' => list' = []
  | s :: rest, chain, list' => ∃ s' rest', s.Renames r chain s' ∧
    Stmt.AllRename r rest chain rest' ∧ list' = s' :: rest'

/-- The function becomes the other one.  Its parameters and the variables of
its body are in one scope. -/
def FunctionDecl.Renames (r : Renaming) :
    FunctionDecl → List Bool → FunctionDecl → Prop
  | ⟨name, params, body, kind⟩, chain, f' => ∃ changed body',
    Stmt.AllRename r body (changed :: chain) body' ∧
      f' = ⟨name, params.map (Ident.rename r changed), body', kind⟩

/-- The functions become the others one by one. -/
def FunctionDecl.AllRename (r : Renaming) :
    List FunctionDecl → List Bool → List FunctionDecl → Prop
  | [], _, list' => list' = []
  | f :: rest, chain, list' => ∃ f' rest', f.Renames r chain f' ∧
    FunctionDecl.AllRename r rest chain rest' ∧ list' = f' :: rest'

/-- The class becomes the other one.  The scopes of `this` and `super` are
never changed. -/
def ClassDecl.Renames (r : Renaming) :
    ClassDecl → List Bool → ClassDecl → Prop
  | ⟨name, none, methods⟩, chain, c' => r.Keeps chain name ∧ ∃ methods',
    FunctionDecl.AllRename r methods (false :: chain) methods' ∧
      c' = ⟨name, none, methods'⟩
  | ⟨name, some parent, methods⟩, chain, c' => r.Keeps chain name ∧ ∃ methods',
    FunctionDecl.AllRename r methods (false :: false :: chain) methods' ∧
      c' = ⟨name, some (parent.rename r chain), methods'⟩

end

theorem FunctionDecl.renames_iff {r : Renaming} {f f' : FunctionDecl}
    {chain : List Bool} :
    f.Renames r chain f' ↔ ∃ changed,
      Stmt.AllRename r f.body (changed :: chain) f'.body ∧
        f'.name = f.name ∧ f'.params = f.params.map (Ident.rename r changed) ∧
        f'.kind = f.kind := by
  obtain ⟨name, params, body, kind⟩ := f
  obtain ⟨name', params', body', kind'⟩ := f'
  simp only [FunctionDecl.Renames, FunctionDecl.mk.injEq]
  constructor
  · rintro ⟨changed, _, hbody, rfl, rfl, rfl, rfl⟩
    exact ⟨changed, hbody, rfl, rfl, rfl⟩
  · rintro ⟨changed, hbody, rfl, rfl, rfl⟩
    exact ⟨changed, body', hbody, rfl, rfl, rfl, rfl⟩

/-- What a call sees of a function from outside. -/
theorem FunctionDecl.Renames.same {r : Renaming} {f f' : FunctionDecl}
    {chain : List Bool} (h : f.Renames r chain f') :
    f'.name = f.name ∧ f'.kind = f.kind ∧
      f'.params.length = f.params.length := by
  obtain ⟨changed, -, hname, hparams, hkind⟩ := renames_iff.1 h
  exact ⟨hname, hkind, by rw [hparams, List.length_map]⟩

theorem FunctionDecl.Renames.isInitializer {r : Renaming}
    {f f' : FunctionDecl} {chain : List Bool} (h : f.Renames r chain f') :
    f'.isInitializer = f.isInitializer := by
  obtain ⟨hname, hkind, -⟩ := h.same
  rw [FunctionDecl.isInitializer, hname, hkind, FunctionDecl.isInitializer]

theorem Stmt.allRename_append {r : Renaming} {list list' : List Stmt}
    {chain : List Bool} {renamed : List Stmt} :
    Stmt.AllRename r (list ++ list') chain renamed ↔ ∃ first second,
      Stmt.AllRename r list chain first ∧
        Stmt.AllRename r list' chain second ∧ renamed = first ++ second := by
  induction list generalizing renamed with
  | nil => simp [Stmt.AllRename]
  | cons s rest ih =>
    simp only [List.cons_append, Stmt.AllRename, ih]
    constructor
    · rintro ⟨s', _, hs, ⟨first, second, hfirst, hsecond, rfl⟩, rfl⟩
      exact ⟨s' :: first, second, ⟨s', first, hs, hfirst, rfl⟩, hsecond, rfl⟩
    · rintro ⟨_, second, ⟨s', first, hs, hfirst, rfl⟩, hsecond, rfl⟩
      exact ⟨s', first ++ second, hs, ⟨first, second, hfirst, hsecond, rfl⟩, rfl⟩

theorem FunctionDecl.allRename_append {r : Renaming}
    {list list' : List FunctionDecl} {chain : List Bool}
    {renamed : List FunctionDecl} :
    FunctionDecl.AllRename r (list ++ list') chain renamed ↔ ∃ first second,
      FunctionDecl.AllRename r list chain first ∧
        FunctionDecl.AllRename r list' chain second ∧
        renamed = first ++ second := by
  induction list generalizing renamed with
  | nil => simp [FunctionDecl.AllRename]
  | cons f rest ih =>
    simp only [List.cons_append, FunctionDecl.AllRename, ih]
    constructor
    · rintro ⟨f', _, hf, ⟨first, second, hfirst, hsecond, rfl⟩, rfl⟩
      exact ⟨f' :: first, second, ⟨f', first, hf, hfirst, rfl⟩, hsecond, rfl⟩
    · rintro ⟨_, second, ⟨f', first, hf, hfirst, rfl⟩, hsecond, rfl⟩
      exact ⟨f', first ++ second, hf, ⟨first, second, hfirst, hsecond, rfl⟩, rfl⟩

/-! ## Nothing changed -/

section

variable (r : Renaming)

@[simp] theorem Renaming.nameAt_replicate (n : Nat) (distance : Option Nat)
    (x : String) : r.nameAt (List.replicate n false) distance x = x := by
  cases distance with
  | none => rfl
  | some d =>
    have hd : (List.replicate n false).getD d false = false := by
      rw [List.getD_eq_getElem?_getD, List.getElem?_replicate]
      split <;> rfl
    rw [Renaming.nameAt, hd, Renaming.name_false]

@[simp] theorem Ref.rename_replicate (n : Nat) (ref : Ref) :
    ref.rename r (List.replicate n false) = ref := by
  rw [Ref.rename, Renaming.nameAt_replicate]

@[simp] theorem Expr.rename_replicate (n : Nat) (e : Expr) :
    e.rename r (List.replicate n false) = e := by
  induction e with
  | literal | this | super => rw [Expr.rename]
  | group _ ih | unary _ _ _ ih | get _ _ ih => rw [Expr.rename, ih]
  | binary _ _ _ _ ihleft ihright | logical _ _ _ _ ihleft ihright
  | set _ _ _ ihleft ihright => rw [Expr.rename, ihleft, ihright]
  | occurrence ref => rw [Expr.rename, Ref.rename_replicate]
  | assign target value ih => rw [Expr.rename, Ref.rename_replicate, ih]
  | call callee line arguments ihcallee iharguments =>
    rw [Expr.rename, ihcallee, Expr.renameAll_eq_map,
      List.map_congr_left iharguments, List.map_id']

end

theorem Renaming.keeps_replicate (r : Renaming) (n : Nat) (x : Ident) :
    r.Keeps (List.replicate n false) x := by
  cases n <;> rfl

theorem Ident.rename_false (r : Renaming) (x : Ident) : x.rename r false = x :=
  rfl

section

variable {r : Renaming}

theorem Stmt.allRename_self_of {list : List Stmt}
    (h : ∀ s ∈ list, ∀ n, s.Renames r (List.replicate n false) s) (n : Nat) :
    Stmt.AllRename r list (List.replicate n false) list := by
  induction list with
  | nil => rw [Stmt.AllRename]
  | cons s rest ih =>
    obtain ⟨hs, hrest⟩ := List.forall_mem_cons.1 h
    rw [Stmt.AllRename]
    exact ⟨s, rest, hs n, ih hrest, rfl⟩

theorem FunctionDecl.renames_self_of {f : FunctionDecl}
    (h : ∀ s ∈ f.body, ∀ n, s.Renames r (List.replicate n false) s) (n : Nat) :
    f.Renames r (List.replicate n false) f := by
  rw [FunctionDecl.renames_iff]
  refine ⟨false, Stmt.allRename_self_of h (n + 1), rfl, ?_, rfl⟩
  exact (List.map_id'' (Ident.rename_false r) f.params).symm

theorem FunctionDecl.allRename_self_of {list : List FunctionDecl}
    (h : ∀ f ∈ list, ∀ s ∈ f.body, ∀ n, s.Renames r (List.replicate n false) s)
    (n : Nat) : FunctionDecl.AllRename r list (List.replicate n false) list := by
  induction list with
  | nil => rw [FunctionDecl.AllRename]
  | cons f rest ih =>
    obtain ⟨hf, hrest⟩ := List.forall_mem_cons.1 h
    rw [FunctionDecl.AllRename]
    exact ⟨f, rest, FunctionDecl.renames_self_of hf n, ih hrest, rfl⟩

theorem ClassDecl.renames_self_of {c : ClassDecl}
    (h : ∀ f ∈ c.methods, ∀ s ∈ f.body, ∀ n,
      s.Renames r (List.replicate n false) s) (n : Nat) :
    c.Renames r (List.replicate n false) c := by
  obtain ⟨name, superclass, methods⟩ := c
  cases superclass with
  | none =>
    rw [ClassDecl.Renames]
    exact ⟨r.keeps_replicate n name, methods,
      FunctionDecl.allRename_self_of h (n + 1), rfl⟩
  | some parent =>
    rw [ClassDecl.Renames, Ref.rename_replicate]
    exact ⟨r.keeps_replicate n name, methods,
      FunctionDecl.allRename_self_of h (n + 2), rfl⟩

/-- Where no scope is changed, code can stay as it is. -/
theorem Stmt.renames_self (s : Stmt) (n : Nat) :
    s.Renames r (List.replicate n false) s := by
  induction s generalizing n with
  | expression e | print e => rw [Stmt.Renames, Expr.rename_replicate]
  | var x initializer =>
    have hx : x.rename r ((List.replicate n false).headD false) = x := by
      rw [Ident.rename, r.keeps_replicate n x]
    rw [Stmt.Renames, hx]
    cases initializer <;> simp
  | block body ih =>
    rw [Stmt.Renames]
    exact ⟨false, body, Stmt.allRename_self_of ih (n + 1), rfl⟩
  | ifElse condition thenBranch elseBranch ihthen ihelse =>
    cases elseBranch with
    | none =>
      rw [Stmt.Renames, Expr.rename_replicate]
      exact ⟨thenBranch, ihthen n, rfl⟩
    | some elseBranch =>
      rw [Stmt.Renames, Expr.rename_replicate]
      exact ⟨thenBranch, elseBranch, ihthen n, ihelse elseBranch rfl n, rfl⟩
  | loop condition body ih =>
    rw [Stmt.Renames, Expr.rename_replicate]
    exact ⟨body, ih n, rfl⟩
  | function f ih =>
    rw [Stmt.Renames]
    exact ⟨r.keeps_replicate n f.name, f, FunctionDecl.renames_self_of ih n, rfl⟩
  | giveBack line value =>
    rw [Stmt.Renames]
    cases value <;> simp
  | cls c ih =>
    rw [Stmt.Renames]
    exact ⟨c, ClassDecl.renames_self_of ih n, rfl⟩

theorem FunctionDecl.renames_self (f : FunctionDecl) (n : Nat) :
    f.Renames r (List.replicate n false) f :=
  FunctionDecl.renames_self_of (fun s _ => s.renames_self) n

end

/-! ## Tables with new names -/

namespace Table

variable {α β : Type} {f : String → String} {R S : α → β → Prop}
  {t : Table α} {t' : Table β}

/-- The second table holds under the changed name what the first holds under
the name, up to `R`. -/
def Twin (f : String → String) (R : α → β → Prop) (t : Table α)
    (t' : Table β) : Prop :=
  ∀ name, Option.Rel R (t.find? name) (t'.find? (f name))

theorem twin_empty : Twin f R .empty .empty :=
  fun _ => .none

theorem Twin.imp (h : Twin f R t t') (himp : ∀ a b, R a b → S a b) :
    Twin f S t t' :=
  fun name => (h name).imp himp

theorem Twin.contains (h : Twin f R t t') (name : String) :
    t'.contains (f name) = t.contains name :=
  (h name).isSome_eq

theorem Twin.insert (h : Twin f R t t') (hf : Function.Injective f)
    (name : String) {value : α} {value' : β} (hvalue : R value value') :
    Twin f R (t.insert name value) (t'.insert (f name) value') := by
  intro other
  rw [find?_insert, find?_insert]
  by_cases hother : other = name
  · rw [if_pos hother, if_pos (congrArg f hother)]
    exact .some hvalue
  · rw [if_neg hother, if_neg fun heq => hother (hf heq)]
    exact h other

theorem Twin.insertAll (h : Twin f R t t') (hf : Function.Injective f)
    (names : List String) {values : List α} {values' : List β}
    (hvalues : List.Forall₂ R values values') :
    Twin f R (t.insertAll (names.zip values))
      (t'.insertAll ((names.map f).zip values')) := by
  induction names generalizing t t' values values' with
  | nil => exact h
  | cons name names ih =>
    cases hvalues with
    | nil => exact h
    | cons hvalue hvalues => exact ih (h.insert hf name hvalue) hvalues

end Table

end Lox
