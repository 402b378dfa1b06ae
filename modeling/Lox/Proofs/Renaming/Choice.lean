import Lox.Proofs.Renaming.Reading
import Lox.Proofs.Scope.Rules
import Mathlib.Data.List.Pairwise

/-!
# Scopes that can be changed

`Stmt.Renames` leaves open which scopes a renaming changes.  A scope can be
changed, and everything around it left as it is, as long as no function and no
class that is declared in it is called `old` or `new`: these keep their names
(`Stmt.exists_allRename`), and a statement with new names can stand where the
statement stood (`Scope.Stands.exists_rename`).

Where `old` is a variable of the scope and `new` stands nowhere, the static
rules see to that, since no name is declared twice in a scope.  So every local
variable of an accepted program can get a new name (`Scope.Opens.exists_rename`).
-/

/-- Where no value comes twice, it comes from one element. -/
theorem List.eq_of_nodup_filterMap {α β : Type} {f : α → Option β} {list : List α}
    (h : (list.filterMap f).Nodup) {a b : α} {x : β} (ha : a ∈ list)
    (hb : b ∈ list) (hfa : f a = some x) (hfb : f b = some x) : a = b := by
  have hsymm : Std.Symm fun a b =>
      ∀ x, f a = some x → ∀ y, f b = some y → x ≠ y :=
    ⟨fun _ _ h x hx y hy => (h y hy x hx).symm⟩
  by_contra hne
  exact (List.pairwise_filterMap.1 h).forall ha hb hne x hfa x hfb rfl

namespace Lox

/-! ## Functions and classes -/

/-- The name of the function or the class that a statement declares itself. -/
def Stmt.fixedName : Stmt → Option Ident
  | .function f => some f.name
  | .class c => some c.name
  | _ => none

/-- The name of the variable that a statement declares itself. -/
def Stmt.variableName : Stmt → Option String
  | .var x _ => some x.name
  | _ => none

theorem Stmt.introduces_of_variableName {s : Stmt} {x : String}
    (h : s.variableName = some x) : s.introduces = some x := by
  cases s with
  | var => exact h
  | _ => cases h

theorem Stmt.fixedName_of_variableName {s : Stmt} {x : String}
    (h : s.variableName = some x) : s.fixedName = none := by
  cases s with
  | var => rfl
  | _ => cases h

theorem Stmt.introduces_of_fixedName {s : Stmt} {x : Ident}
    (h : s.fixedName = some x) : s.introduces = some x.name := by
  cases s with
  | function | «class» =>
    cases h
    rfl
  | _ => cases h

/-- What declares nothing keeps its names in any scope. -/
theorem Stmt.keeps_of_declared {r : Renaming} {s : Stmt} {chain : List Bool}
    (hform : s.WellFormed) (h : s.declared = []) :
    ∀ x ∈ s.fixedName, r.Keeps chain x := by
  intro x hx
  have hintroduces := introduces_of_fixedName hx
  rw [hform.declared_eq, hintroduces] at h
  cases h

/-! ## Parts of declarations -/

theorem FunctionDecl.WellFormed.body {f : FunctionDecl} (h : f.WellFormed) :
    Stmt.AllWellFormed f.body := by
  obtain ⟨name, params, body, kind⟩ := f
  rw [FunctionDecl.WellFormed] at h
  exact h.2

theorem ClassDecl.WellFormed.method {c : ClassDecl} {f : FunctionDecl}
    (h : c.WellFormed) (hf : f ∈ c.methods) : f.WellFormed := by
  obtain ⟨name, superclass, methods⟩ := c
  rw [ClassDecl.WellFormed] at h
  exact h.2.of_mem hf

theorem Stmt.Avoids.fixedName_ne {y : String} {s : Stmt} (h : s.Avoids y) :
    ∀ x ∈ s.fixedName, x.name ≠ y := by
  intro x hx
  cases s with
  | function f =>
    obtain ⟨name, params, body, kind⟩ := f
    cases hx
    rw [Stmt.Avoids, FunctionDecl.Avoids] at h
    exact h.1
  | «class» c =>
    obtain ⟨name, superclass, methods⟩ := c
    cases hx
    rw [Stmt.Avoids, ClassDecl.Avoids] at h
    exact h.1
  | _ => cases hx

theorem Stmt.AllAvoid.of_mem {y : String} {list : List Stmt} {s : Stmt}
    (h : Stmt.AllAvoid y list) (hs : s ∈ list) : s.Avoids y := by
  induction list with
  | nil => cases hs
  | cons first rest ih =>
    rw [Stmt.AllAvoid] at h
    rcases List.mem_cons.1 hs with rfl | hs
    · exact h.1
    · exact ih h.2 hs

theorem FunctionDecl.AllAvoid.of_mem {y : String} {list : List FunctionDecl}
    {f : FunctionDecl} (h : FunctionDecl.AllAvoid y list) (hf : f ∈ list) :
    f.Avoids y := by
  induction list with
  | nil => cases hf
  | cons first rest ih =>
    rw [FunctionDecl.AllAvoid] at h
    rcases List.mem_cons.1 hf with rfl | hf
    · exact h.1
    · exact ih h.2 hf

theorem FunctionDecl.Avoids.body {y : String} {f : FunctionDecl}
    (h : f.Avoids y) : Stmt.AllAvoid y f.body := by
  obtain ⟨name, params, body, kind⟩ := f
  rw [FunctionDecl.Avoids] at h
  exact h.2.2

theorem ClassDecl.Avoids.method {y : String} {c : ClassDecl} {f : FunctionDecl}
    (h : c.Avoids y) (hf : f ∈ c.methods) : f.Avoids y := by
  obtain ⟨name, superclass, methods⟩ := c
  rw [ClassDecl.Avoids] at h
  exact h.2.2.of_mem hf

/-! ## A scope with new names -/

section

variable {r : Renaming}

theorem Stmt.exists_allRename_of {list : List Stmt} {chain : List Bool}
    (h : ∀ s ∈ list, ∃ s', s.Renames r chain s') :
    ∃ list', Stmt.AllRename r list chain list' := by
  induction list with
  | nil => exact ⟨[], by rw [Stmt.AllRename]⟩
  | cons s rest ih =>
    obtain ⟨⟨s', hs⟩, hrest⟩ := List.forall_mem_cons.1 h
    obtain ⟨rest', hrest⟩ := ih hrest
    refine ⟨s' :: rest', ?_⟩
    rw [Stmt.AllRename]
    exact ⟨s', rest', hs, hrest, rfl⟩

/-- The scope of a function need not be changed. -/
theorem FunctionDecl.exists_renames_of {f : FunctionDecl} {chain : List Bool}
    (h : ∀ s ∈ f.body, ∃ s', s.Renames r (false :: chain) s') :
    ∃ f', f.Renames r chain f' := by
  obtain ⟨body', hbody⟩ := Stmt.exists_allRename_of h
  refine ⟨{ f with body := body' }, FunctionDecl.renames_iff.2
    ⟨false, hbody, rfl, ?_, rfl⟩⟩
  exact (List.map_id'' (Ident.rename_false r) f.params).symm

theorem FunctionDecl.exists_allRename_of {list : List FunctionDecl}
    {chain : List Bool} (h : ∀ f ∈ list, ∃ f', f.Renames r chain f') :
    ∃ list', FunctionDecl.AllRename r list chain list' := by
  induction list with
  | nil => exact ⟨[], by rw [FunctionDecl.AllRename]⟩
  | cons f rest ih =>
    obtain ⟨⟨f', hf⟩, hrest⟩ := List.forall_mem_cons.1 h
    obtain ⟨rest', hrest⟩ := ih hrest
    refine ⟨f' :: rest', ?_⟩
    rw [FunctionDecl.AllRename]
    exact ⟨f', rest', hf, hrest, rfl⟩

/-- A statement can have the new names of the scopes around it, if it declares
no function and no class whose name would change. -/
theorem Stmt.exists_renames (s : Stmt) (hform : s.WellFormed)
    (chain : List Bool) (hkeeps : ∀ x ∈ s.fixedName, r.Keeps chain x) :
    ∃ s', s.Renames r chain s' := by
  -- The scopes inside the statement are left unchanged, so they keep every name.
  induction s generalizing chain with
  | expression | print | var | giveBack => exact ⟨_, by rw [Stmt.Renames]⟩
  | block body ih =>
    rw [Stmt.WellFormed] at hform
    obtain ⟨body', hbody⟩ := Stmt.exists_allRename_of fun s hs =>
      ih s hs (hform.of_mem hs) (false :: chain) fun x _ => rfl
    refine ⟨.block body', ?_⟩
    rw [Stmt.Renames]
    exact ⟨false, body', hbody, rfl⟩
  | ifElse condition thenBranch elseBranch ihthen ihelse =>
    cases elseBranch with
    | none =>
      rw [Stmt.WellFormed] at hform
      obtain ⟨-, hthen, hthenForm⟩ := hform
      obtain ⟨thenBranch', hthen'⟩ :=
        ihthen hthenForm chain (keeps_of_declared hthenForm hthen)
      refine ⟨.ifElse (condition.rename r chain) thenBranch' none, ?_⟩
      rw [Stmt.Renames]
      exact ⟨thenBranch', hthen', rfl⟩
    | some elseBranch =>
      rw [Stmt.WellFormed] at hform
      obtain ⟨-, ⟨hthen, hthenForm⟩, helse, helseForm⟩ := hform
      obtain ⟨thenBranch', hthen'⟩ :=
        ihthen hthenForm chain (keeps_of_declared hthenForm hthen)
      obtain ⟨elseBranch', helse'⟩ :=
        ihelse elseBranch rfl helseForm chain (keeps_of_declared helseForm helse)
      refine ⟨.ifElse (condition.rename r chain) thenBranch' (some elseBranch'),
        ?_⟩
      rw [Stmt.Renames]
      exact ⟨thenBranch', elseBranch', hthen', helse', rfl⟩
  | loop condition body ih =>
    rw [Stmt.WellFormed] at hform
    obtain ⟨-, hdeclared, hbodyForm⟩ := hform
    obtain ⟨body', hbody⟩ :=
      ih hbodyForm chain (keeps_of_declared hbodyForm hdeclared)
    refine ⟨.while (condition.rename r chain) body', ?_⟩
    rw [Stmt.Renames]
    exact ⟨body', hbody, rfl⟩
  | function f ih =>
    rw [Stmt.WellFormed] at hform
    obtain ⟨f', hf⟩ := FunctionDecl.exists_renames_of fun s hs =>
      ih s hs (hform.2.2.body.of_mem hs) (false :: chain) fun x _ => rfl
    refine ⟨.function f', ?_⟩
    rw [Stmt.Renames]
    exact ⟨hkeeps f.name rfl, f', hf, rfl⟩
  | cls c ih =>
    rw [Stmt.WellFormed] at hform
    have hmethods (chain : List Bool) :
        ∃ methods', FunctionDecl.AllRename r c.methods chain methods' := by
      refine FunctionDecl.exists_allRename_of fun f hf => ?_
      exact FunctionDecl.exists_renames_of fun s hs =>
        ih f hf s hs ((hform.method hf).body.of_mem hs) _ fun x _ => rfl
    have hname := hkeeps c.name rfl
    obtain ⟨name, superclass, methods⟩ := c
    cases superclass with
    | none =>
      obtain ⟨methods', hmethods⟩ := hmethods (false :: chain)
      refine ⟨.class ⟨name, none, methods'⟩, ?_⟩
      rw [Stmt.Renames]
      refine ⟨⟨name, none, methods'⟩, ?_, rfl⟩
      rw [ClassDecl.Renames]
      exact ⟨hname, methods', hmethods, rfl⟩
    | some parent =>
      obtain ⟨methods', hmethods⟩ := hmethods (false :: false :: chain)
      refine ⟨.class ⟨name, some (parent.rename r chain), methods'⟩, ?_⟩
      rw [Stmt.Renames]
      refine ⟨⟨name, some (parent.rename r chain), methods'⟩, ?_, rfl⟩
      rw [ClassDecl.Renames]
      exact ⟨hname, methods', hmethods, rfl⟩

/-- Statements in one scope can have its new names. -/
theorem Stmt.exists_allRename {list : List Stmt}
    (hform : Stmt.AllWellFormed list) (chain : List Bool)
    (hkeeps : ∀ s ∈ list, ∀ x ∈ s.fixedName, r.Keeps chain x) :
    ∃ list', Stmt.AllRename r list chain list' :=
  exists_allRename_of fun s hs =>
    s.exists_renames (hform.of_mem hs) chain (hkeeps s hs)

/-! ## A scope in a program -/

/-- One of the statements in a scope that is not changed can get new names. -/
theorem Stmt.allRename_replace {before after : List Stmt} {s s' : Stmt} {n : Nat}
    (h : s.Renames r (List.replicate n false) s') :
    Stmt.AllRename r (before ++ s :: after) (List.replicate n false)
      (before ++ s' :: after) := by
  have hself (list : List Stmt) :
      Stmt.AllRename r list (List.replicate n false) list :=
    Stmt.allRename_self_of (fun s _ => s.renames_self) n
  refine Stmt.allRename_append.2 ⟨before, s' :: after, hself before, ?_, rfl⟩
  rw [Stmt.AllRename]
  exact ⟨s', after, h, hself after, rfl⟩

theorem FunctionDecl.allRename_replace {before after : List FunctionDecl}
    {f f' : FunctionDecl} {n : Nat}
    (h : f.Renames r (List.replicate n false) f') :
    FunctionDecl.AllRename r (before ++ f :: after) (List.replicate n false)
      (before ++ f' :: after) := by
  have hself (list : List FunctionDecl) :
      FunctionDecl.AllRename r list (List.replicate n false) list :=
    FunctionDecl.allRename_self_of (fun _ _ s _ => s.renames_self) n
  refine FunctionDecl.allRename_append.2
    ⟨before, f' :: after, hself before, ?_, rfl⟩
  rw [FunctionDecl.AllRename]
  exact ⟨f', after, h, hself after, rfl⟩

/-- One of the statements of a function can get new names. -/
theorem FunctionDecl.renames_replace {f : FunctionDecl}
    {before after : List Stmt} {s s' : Stmt} {n : Nat}
    (hbody : f.body = before ++ s :: after)
    (h : s.Renames r (List.replicate (n + 1) false) s') :
    f.Renames r (List.replicate n false)
      { f with body := before ++ s' :: after } := by
  refine FunctionDecl.renames_iff.2 ⟨false, ?_, rfl, ?_, rfl⟩
  · rw [hbody]
    exact Stmt.allRename_replace h
  · exact (List.map_id'' (Ident.rename_false r) f.params).symm

/-- The function with new names for its parameters and with another body. -/
def FunctionDecl.changed (r : Renaming) (f : FunctionDecl) (body : List Stmt) :
    FunctionDecl :=
  ⟨f.name, f.params.map (Ident.rename r true), body, f.kind⟩

theorem FunctionDecl.renames_changed {f : FunctionDecl} {chain : List Bool}
    {body : List Stmt} (h : Stmt.AllRename r f.body (true :: chain) body) :
    f.Renames r chain (f.changed r body) :=
  FunctionDecl.renames_iff.2 ⟨true, h, rfl, rfl, rfl⟩

/-- How many scopes a class opens around its members. -/
def ClassDecl.depth (c : ClassDecl) : Nat :=
  if c.superclass.isSome then 2 else 1

theorem Scope.Place.length_inClass (p : Scope.Place) (c : ClassDecl) :
    (p.inClass c).scopes.length = p.scopes.length + c.depth := by
  rw [Scope.Place.inClass, ClassDecl.depth]
  cases c.superclass <;> rfl

/-- One of the members of a class can get new names. -/
theorem ClassDecl.renames_replace {c : ClassDecl}
    {before after : List FunctionDecl} {f f' : FunctionDecl} {n : Nat}
    (hmethods : c.methods = before ++ f :: after)
    (h : f.Renames r (List.replicate (n + c.depth) false) f') :
    c.Renames r (List.replicate n false)
      { c with methods := before ++ f' :: after } := by
  obtain ⟨name, superclass, methods⟩ := c
  subst hmethods
  cases superclass with
  | none =>
    rw [ClassDecl.Renames]
    exact ⟨r.keeps_replicate n name, _, FunctionDecl.allRename_replace h, rfl⟩
  | some parent =>
    rw [ClassDecl.Renames, Ref.rename_replicate]
    exact ⟨r.keeps_replicate n name, _, FunctionDecl.allRename_replace h, rfl⟩

end

namespace Scope

variable {r : Renaming} {program : List Stmt} {p : Place} {s s' : Stmt}

/-- A statement with new names can stand where the statement stands, with as
many scopes around it, none of them changed. -/
theorem Stands.exists_rename (h : Stands program p s)
    (hs : s.Renames r (List.replicate p.scopes.length false) s') :
    ∃ program' p', Stmt.AllRename r program [] program' ∧
      Stands program' p' s' ∧ p'.scopes.length = p.scopes.length := by
  -- Up the tree: the statement around the place gets the new names with it.
  induction h generalizing s' with
  | @top before s after hprogram =>
    refine ⟨before ++ s' :: after, .top, ?_, .top rfl, rfl⟩
    rw [hprogram]
    exact Stmt.allRename_replace (n := 0) hs
  | @block p before s after _ ih =>
    have hblock : (Stmt.block (before ++ s :: after)).Renames r
        (List.replicate p.scopes.length false)
        (.block (before ++ s' :: after)) := by
      rw [Stmt.Renames]
      exact ⟨false, _, Stmt.allRename_replace (n := p.scopes.length + 1) hs, rfl⟩
    obtain ⟨program', p', hprogram, hstands, hlength⟩ := ih hblock
    exact ⟨program', _, hprogram, hstands.block, congrArg (· + 1) hlength⟩
  | @thenBranch p condition s elseBranch _ ih =>
    have hbranches : (Stmt.ifElse condition s elseBranch).Renames r
        (List.replicate p.scopes.length false)
        (.ifElse condition s' elseBranch) := by
      cases elseBranch with
      | none =>
        rw [Stmt.Renames, Expr.rename_replicate]
        exact ⟨s', hs, rfl⟩
      | some elseBranch =>
        rw [Stmt.Renames, Expr.rename_replicate]
        exact ⟨s', elseBranch, hs, elseBranch.renames_self _, rfl⟩
    obtain ⟨program', p', hprogram, hstands, hlength⟩ := ih hbranches
    exact ⟨program', p', hprogram, hstands.thenBranch, hlength⟩
  | @elseBranch p condition thenBranch s _ ih =>
    have hbranches : (Stmt.ifElse condition thenBranch (some s)).Renames r
        (List.replicate p.scopes.length false)
        (.ifElse condition thenBranch (some s')) := by
      rw [Stmt.Renames, Expr.rename_replicate]
      exact ⟨thenBranch, s', thenBranch.renames_self _, hs, rfl⟩
    obtain ⟨program', p', hprogram, hstands, hlength⟩ := ih hbranches
    exact ⟨program', p', hprogram, hstands.elseBranch, hlength⟩
  | @loop p condition s _ ih =>
    have hloop : (Stmt.while condition s).Renames r
        (List.replicate p.scopes.length false) (.while condition s') := by
      rw [Stmt.Renames, Expr.rename_replicate]
      exact ⟨s', hs, rfl⟩
    obtain ⟨program', p', hprogram, hstands, hlength⟩ := ih hloop
    exact ⟨program', p', hprogram, hstands.loop, hlength⟩
  | @function p f before s after _ hbody ih =>
    have hfunction : (Stmt.function f).Renames r
        (List.replicate p.scopes.length false)
        (.function { f with body := before ++ s' :: after }) := by
      rw [Stmt.Renames]
      exact ⟨r.keeps_replicate _ f.name, _,
        FunctionDecl.renames_replace hbody hs, rfl⟩
    obtain ⟨program', p', hprogram, hstands, hlength⟩ := ih hfunction
    exact ⟨program', _, hprogram, hstands.function rfl,
      congrArg (· + 1) hlength⟩
  | @member p c f before s after _ hf hbody ih =>
    obtain ⟨earlier, later, hmethods⟩ := List.append_of_mem hf
    obtain ⟨f', hf', hbody'⟩ : ∃ f',
        f.Renames r (List.replicate (p.scopes.length + c.depth) false) f' ∧
          f'.body = before ++ s' :: after := by
      rw [← Place.length_inClass]
      exact ⟨_, FunctionDecl.renames_replace hbody hs, rfl⟩
    have hclass : (Stmt.class c).Renames r (List.replicate p.scopes.length false)
        (.class { c with methods := earlier ++ f' :: later }) := by
      rw [Stmt.Renames]
      exact ⟨_, ClassDecl.renames_replace hmethods hf', rfl⟩
    obtain ⟨program', p', hprogram, hstands, hlength⟩ := ih hclass
    have hinside : (p'.inClass { c with
        methods := earlier ++ f' :: later }).scopes.length =
          (p.inClass c).scopes.length := by
      rw [Place.length_inClass, Place.length_inClass, hlength]
      rfl
    exact ⟨program', _, hprogram,
      hstands.member (List.mem_append_right _ List.mem_cons_self) hbody',
      congrArg (· + 1) hinside⟩

/-- What is the name of nothing in a program is the name of nothing in a
statement of it. -/
theorem Stands.avoids {y : String} (h : Stands program p s)
    (havoid : Stmt.AllAvoid y program) : s.Avoids y := by
  induction h with
  | top hprogram => exact havoid.of_mem (by simp [hprogram])
  | block _ ih =>
    rw [Stmt.Avoids] at ih
    exact ih.of_mem (by simp)
  | @thenBranch p condition s elseBranch _ ih =>
    cases elseBranch with
    | none =>
      rw [Stmt.Avoids] at ih
      exact ih.2
    | some elseBranch =>
      rw [Stmt.Avoids] at ih
      exact ih.2.1
  | elseBranch _ ih =>
    rw [Stmt.Avoids] at ih
    exact ih.2.2
  | loop _ ih =>
    rw [Stmt.Avoids] at ih
    exact ih.2
  | function _ hbody ih =>
    rw [Stmt.Avoids] at ih
    exact ih.body.of_mem (by simp [hbody])
  | member _ hf hbody ih =>
    rw [Stmt.Avoids] at ih
    exact (ih.method hf).body.of_mem (by simp [hbody])

/-! ## Scopes of local variables -/

/-- A block or a function of the program opens a scope with these parameters
and with these statements directly in it.  `n` scopes are around it. -/
inductive Opens (program : List Stmt) : Nat → List Ident → List Stmt → Prop where
  | block {p body} (h : Stands program p (.block body)) :
      Opens program p.scopes.length [] body
  | function {p f} (h : Stands program p (.function f)) :
      Opens program p.scopes.length f.params f.body
  | member {p c f} (h : Stands program p (.class c)) (hf : f ∈ c.methods) :
      Opens program (p.scopes.length + c.depth) f.params f.body

namespace Opens

variable {n : Nat} {params : List Ident} {body : List Stmt}

/-- No name is declared twice in the scope. -/
theorem nodup (h : Opens program n params body) (hno : ¬ Breach program) :
    (params.map Ident.name ++ body.filterMap Stmt.introduces).Nodup := by
  by_contra htwice
  cases h with
  | block h => exact hno (.twiceInBlock h htwice)
  | function h => exact hno (.twiceInFunction h htwice)
  | member h hf => exact hno (.twiceInMember h hf htwice)

theorem wellFormed (h : Opens program n params body)
    (hform : Stmt.AllWellFormed program) : Stmt.AllWellFormed body := by
  cases h with
  | block h =>
    have hs := h.wellFormed hform
    rw [Stmt.WellFormed] at hs
    exact hs
  | function h =>
    have hs := h.wellFormed hform
    rw [Stmt.WellFormed] at hs
    exact hs.2.2.body
  | member h hf =>
    have hs := h.wellFormed hform
    rw [Stmt.WellFormed] at hs
    exact (hs.method hf).body

theorem avoids {y : String} (h : Opens program n params body)
    (havoid : Stmt.AllAvoid y program) : Stmt.AllAvoid y body := by
  cases h with
  | block h =>
    have hs := h.avoids havoid
    rw [Stmt.Avoids] at hs
    exact hs
  | function h =>
    have hs := h.avoids havoid
    rw [Stmt.Avoids] at hs
    exact hs.body
  | member h hf =>
    have hs := h.avoids havoid
    rw [Stmt.Avoids] at hs
    exact (hs.method hf).body

/-- A scope can be changed if its statements can. -/
theorem exists_rename_of (h : Opens program n params body) {body' : List Stmt}
    (hbody : Stmt.AllRename r body (true :: List.replicate n false) body') :
    ∃ program', Stmt.AllRename r program [] program' ∧
      Opens program' n (params.map (Ident.rename r true)) body' := by
  cases h with
  | @block p body h =>
    have hblock : (Stmt.block body).Renames r
        (List.replicate p.scopes.length false) (.block body') := by
      rw [Stmt.Renames]
      exact ⟨true, body', hbody, rfl⟩
    obtain ⟨program', p', hprogram, hstands, hlength⟩ := h.exists_rename hblock
    exact ⟨program', hprogram, hlength ▸ .block hstands⟩
  | @function p f h =>
    have hfunction : (Stmt.function f).Renames r
        (List.replicate p.scopes.length false)
        (.function (f.changed r body')) := by
      rw [Stmt.Renames]
      exact ⟨r.keeps_replicate _ f.name, _, FunctionDecl.renames_changed hbody,
        rfl⟩
    obtain ⟨program', p', hprogram, hstands, hlength⟩ :=
      h.exists_rename hfunction
    exact ⟨program', hprogram, hlength ▸ .function hstands⟩
  | @member p c f h hf =>
    obtain ⟨earlier, later, hmethods⟩ := List.append_of_mem hf
    have hclass : (Stmt.class c).Renames r (List.replicate p.scopes.length false)
        (.class { c with methods := earlier ++ f.changed r body' :: later }) := by
      rw [Stmt.Renames]
      exact ⟨_, ClassDecl.renames_replace hmethods
        (FunctionDecl.renames_changed hbody), rfl⟩
    obtain ⟨program', p', hprogram, hstands, hlength⟩ := h.exists_rename hclass
    have hmem : f.changed r body' ∈ earlier ++ f.changed r body' :: later :=
      List.mem_append_right _ List.mem_cons_self
    exact ⟨program', hprogram, hlength ▸ .member hstands hmem⟩

/-- Functions and classes are not called like a variable of the scope. -/
theorem keeps (h : Opens program n params body) (hno : ¬ Breach program)
    (havoid : Stmt.AllAvoid r.new program)
    (hvar : r.old ∈ params.map Ident.name ++ body.filterMap Stmt.variableName)
    (chain : List Bool) :
    ∀ s ∈ body, ∀ x ∈ s.fixedName, r.Keeps chain x := by
  intro s hs x hx
  obtain ⟨-, hnodup, hdisjoint⟩ := List.nodup_append.1 (h.nodup hno)
  have hintroduces := Stmt.introduces_of_fixedName hx
  refine r.name_of_ne ?_ (((h.avoids havoid).of_mem hs).fixedName_ne x hx) _
  intro hname
  rw [hname] at hintroduces
  rcases List.mem_append.1 hvar with hparam | hvariable
  · have hdeclared : r.old ∈ body.filterMap Stmt.introduces :=
      List.mem_filterMap.2 ⟨s, hs, hintroduces⟩
    exact hdisjoint _ hparam _ hdeclared rfl
  · obtain ⟨s', hs', hvariable⟩ := List.mem_filterMap.1 hvariable
    have hsame : s = s' := List.eq_of_nodup_filterMap hnodup hs hs' hintroduces
      (Stmt.introduces_of_variableName hvariable)
    rw [hsame, Stmt.fixedName_of_variableName hvariable] at hx
    cases hx

/-- Any scope in which `old` is a variable or a parameter can be changed, and
the rest of the program left as it is, where `new` stands nowhere. -/
theorem exists_rename (h : Opens program n params body)
    (hform : Stmt.AllWellFormed program) (hno : ¬ Breach program)
    (havoid : Stmt.AllAvoid r.new program)
    (hvar : r.old ∈ params.map Ident.name ++
      body.filterMap Stmt.variableName) :
    ∃ program' body', Stmt.AllRename r program [] program' ∧
      Stmt.AllRename r body (true :: List.replicate n false) body' ∧
      Opens program' n (params.map (Ident.rename r true)) body' := by
  obtain ⟨body', hbody⟩ := Stmt.exists_allRename (h.wellFormed hform) _
    (h.keeps hno havoid hvar _)
  obtain ⟨program', hprogram, hopens⟩ := h.exists_rename_of hbody
  exact ⟨program', body', hprogram, hbody, hopens⟩

end Opens

end Scope

end Lox
