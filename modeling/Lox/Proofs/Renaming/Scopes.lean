import Lox.Proofs.Renaming.Reading
import Lox.Proofs.Scope.Fitting

/-!
# Scopes with new names

The walk over a renamed program opens the scopes of the walk over the
program, with the new names in them (`Twins`).  Since `new` is in none of the
scopes of the program, an occurrence that has its new name is found where the
old one was (`Twins.distance`), and no name is hidden that was not hidden
before.  So the walk records the same distances, and as long as the walk over
the program makes no report it makes none either (`resolve_rename`).

That an occurrence gets the name of what it is bound to is known from the
table of distances, which agrees with the scopes of the walk because the
program fits its scopes.
-/

namespace Lox

theorem Table.find?_eq_none_of_contains {α : Type} {t : Table α}
    {name : String} (h : t.contains name = false) : t.find? name = none :=
  Option.not_isSome_iff_eq_none.1 (by rw [← Table.contains, h]; exact nofun)

namespace Scope

/-! ## Chains of scopes -/

/-- The second scopes are the first ones with new names, where `chain` says
which of them are changed.  None of the first holds `new`. -/
inductive Twins (r : Renaming) :
    List Bool → List (Table Bool) → List (Table Bool) → Prop where
  | nil : Twins r [] [] []
  | cons {changed : Bool} {chain : List Bool} {scope scope' : Table Bool}
      {outer outer' : List (Table Bool)}
      (names : scope.Twin (r.name changed) Eq scope')
      (absent : scope.contains r.new = false)
      (rest : Twins r chain outer outer') :
      Twins r (changed :: chain) (scope :: outer) (scope' :: outer')

section

variable {r : Renaming} {changed : Bool} {chain : List Bool}
  {scope scope' : Table Bool} {scopes scopes' : List (Table Bool)}
  {name : String}

/-- A name that a scope lacks is not mistaken for one that it holds, whatever
another scope makes of it. -/
theorem contains_name_eq_false (h : scope.Twin (r.name changed) Eq scope')
    (habsent : scope.contains r.new = false) (hname : name ≠ r.new)
    (hmiss : scope.contains name = false) (other : Bool) :
    scope'.contains (r.name other name) = false := by
  rw [← r.name_name changed (r.name other name), h.contains]
  rcases r.name_name_eq hname changed other with heq | heq
  · rw [heq, hmiss]
  · rw [heq, habsent]

/-- An occurrence with its new name is found where the old one was. -/
theorem Twins.distance (h : Twins r chain scopes scopes')
    (hname : name ≠ r.new) :
    distance scopes' (r.nameAt chain (distance scopes name) name) =
      distance scopes name := by
  induction h with
  | nil => rfl
  | @cons changed chain scope scope' outer outer' hnames habsent hrest ih =>
    cases hmem : scope.contains name with
    | true =>
      have hzero : Scope.distance (scope :: outer) name = some 0 := by
        rw [distance_cons, hmem, if_pos rfl]
      rw [hzero, distance_cons]
      show (if scope'.contains (r.name changed name) then _ else _) = _
      rw [hnames.contains, hmem, if_pos rfl]
    | false =>
      have houter : Scope.distance (scope :: outer) name =
          (Scope.distance outer name).map (· + 1) := by
        rw [distance_cons, hmem]
        rfl
      obtain ⟨other, hother⟩ :=
        r.nameAt_eq chain (Scope.distance outer name) name
      have hmiss : scope'.contains
          (r.nameAt chain (Scope.distance outer name) name) = false := by
        rw [hother]
        exact contains_name_eq_false hnames habsent hname hmem other
      rw [houter, r.nameAt_cons, distance_cons, hmiss, ih]
      rfl

theorem Twins.distance_reserved (h : Twins r chain scopes scopes')
    (hname : ¬ Unreserved name) :
    Scope.distance scopes' name = Scope.distance scopes name := by
  have hdistance := h.distance (r.ne_new_of_reserved hname)
  rwa [r.nameAt_of_reserved hname] at hdistance

theorem Twins.tail (h : Twins r chain scopes scopes') :
    Twins r chain.tail scopes.tail scopes'.tail := by
  cases h with
  | nil => exact .nil
  | cons names absent rest => exact rest

/-- A scope that holds one reserved name, which no scope changes. -/
theorem Twins.reserved (h : Twins r chain scopes scopes')
    (hname : ¬ Unreserved name) :
    Twins r (false :: chain) (Table.empty.insert name true :: scopes)
      (Table.empty.insert name true :: scopes') := by
  refine .cons (Table.twin_empty.insert (r.name_injective false) name rfl) ?_ h
  have hne : r.new ≠ name := (r.ne_new_of_reserved hname).symm
  rw [Table.contains_insert, decide_eq_false hne]
  rfl

/-- A name is given a state in the innermost scope. -/
theorem Twins.insert {outer outer' : List (Table Bool)}
    (h : Twins r (changed :: chain) (scope :: outer) (scope' :: outer'))
    (hname : name ≠ r.new) (complete : Bool) :
    Twins r (changed :: chain) (scope.insert name complete :: outer)
      (scope'.insert (r.name changed name) complete :: outer') := by
  cases h with
  | cons names absent rest =>
    refine .cons (names.insert (r.name_injective changed) name rfl) ?_ rest
    rw [Table.contains_insert, decide_eq_false hname.symm, absent]
    rfl

end

/-! ## States of the walk -/

/-- The states of two walks, the second over the renamed program.  Until the
first one makes a report, the second makes none and has the same distances. -/
structure Twin (r : Renaming) (chain : List Bool) (st st' : State) : Prop where
  scopes : Twins r chain st.scopes st'.scopes
  body : st'.body = st.body
  context : st'.context = st.context
  clean : st.reports = [] → st'.reports = [] ∧ st'.distances = st.distances

namespace Twin

open State (Effect)

variable {r : Renaming} {chain : List Bool} {st st' : State}

theorem withBody (h : Twin r chain st st') (body : Body) :
    Twin r chain { st with body := body } { st' with body := body } :=
  { h with body := rfl }

theorem withContext (h : Twin r chain st st') (context : ClassContext) :
    Twin r chain { st with context := context }
      { st' with context := context } :=
  { h with context := rfl }

theorem report (h : Twin r chain st st') (line line' : Nat)
    (lexeme lexeme' : String) (f : ScopeFault) :
    Twin r chain (st.report line lexeme f) (st'.report line' lexeme' f) :=
  { h with clean := nofun }

theorem reportIf (h : Twin r chain st st') {condition condition' : Bool}
    (heq : condition' = condition) (line line' : Nat)
    (lexeme lexeme' : String) (f : ScopeFault) :
    Twin r chain (st.reportIf condition line lexeme f)
      (st'.reportIf condition' line' lexeme' f) := by
  subst heq
  cases condition' with
  | false => exact h
  | true => exact h.report line line' lexeme lexeme' f

theorem checkReturn (h : Twin r chain st st') (line : Nat) (hasValue : Bool) :
    Twin r chain (st.checkReturn line hasValue)
      (st'.checkReturn line hasValue) := by
  simp only [State.checkReturn, h.body]
  exact (h.reportIf rfl line line _ _ .returnOutside).reportIf rfl line line _ _
    .returnFromInitializer

/-! ## Scopes -/

theorem enter (h : Twin r chain st st') (changed : Bool) :
    Twin r (changed :: chain) (st.enter []) (st'.enter []) :=
  { h with scopes := .cons Table.twin_empty rfl h.scopes }

theorem enterReserved (h : Twin r chain st st') {name : String}
    (hname : ¬ Unreserved name) :
    Twin r (false :: chain) (st.enter [name]) (st'.enter [name]) :=
  { h with scopes := h.scopes.reserved hname }

theorem leave {changed : Bool} (h : Twin r (changed :: chain) st st') :
    Twin r chain st.leave st'.leave :=
  { h with scopes := h.scopes.tail }

theorem declare (h : Twin r chain st st') {x : Ident} (hx : x.name ≠ r.new) :
    Twin r chain (st.declare x)
      (st'.declare (x.rename r (chain.headD false))) := by
  obtain ⟨scopes, body, context, distances, reports⟩ := st
  obtain ⟨scopes', body', context', distances', reports'⟩ := st'
  have hscopes : Twins r chain scopes scopes' := h.scopes
  cases hscopes with
  | nil => exact h
  | @cons changed chain scope scope' outer outer' names absent rest =>
    have hcontains : scope'.contains (r.name changed x.name) =
        scope.contains x.name := names.contains x.name
    simp only [State.declare, Ident.rename, List.headD_cons, hcontains]
    by_cases hmem : scope.contains x.name = true
    · rw [if_pos hmem, if_pos hmem]
      exact h.report _ _ _ _ _
    · rw [if_neg hmem, if_neg hmem]
      exact { h with scopes := h.scopes.insert hx false }

theorem define (h : Twin r chain st st') {x : Ident} (hx : x.name ≠ r.new) :
    Twin r chain (st.define x)
      (st'.define (x.rename r (chain.headD false))) := by
  obtain ⟨scopes, body, context, distances, reports⟩ := st
  obtain ⟨scopes', body', context', distances', reports'⟩ := st'
  have hscopes : Twins r chain scopes scopes' := h.scopes
  cases hscopes with
  | nil => exact h
  | cons names absent rest =>
    exact { h with scopes := h.scopes.insert hx true }

/-- A function or a class declares a name that its scope keeps. -/
theorem declareKept (h : Twin r chain st st') {x : Ident}
    (hkeeps : r.Keeps chain x) (hx : x.name ≠ r.new) :
    Twin r chain ((st.declare x).define x) ((st'.declare x).define x) := by
  have hsame : x.rename r (chain.headD false) = x := by
    rw [Ident.rename, hkeeps]
  have hboth := (h.declare hx).define hx
  rwa [hsame] at hboth

theorem parameters {changed : Bool} {chain : List Bool}
    (h : Twin r (changed :: chain) st st') {params : List Ident}
    (hparams : ∀ x ∈ params, x.name ≠ r.new) :
    Twin r (changed :: chain) (st.parameters params)
      (st'.parameters (params.map (Ident.rename r changed))) := by
  induction params generalizing st st' with
  | nil => exact h
  | cons x rest ih =>
    obtain ⟨hx, hrest⟩ := List.forall_mem_cons.1 hparams
    exact ih ((h.declare hx).define hx) hrest

/-! ## Occurrences -/

/-- Both record the same distance for one id. -/
theorem record (h : Twin r chain st st') (id : Nat) {name name' : String}
    (hdistance : distance st'.scopes name' = distance st.scopes name) :
    Twin r chain (st.bind id name) (st'.bind id name') := by
  have hdistance' : st'.distance? name' = st.distance? name := hdistance
  simp only [State.bind, hdistance']
  cases st.distance? name with
  | none => exact h
  | some distance =>
    refine { h with clean := fun hreports => ?_ }
    obtain ⟨hreports', hdistances⟩ := h.clean hreports
    refine ⟨hreports', ?_⟩
    show st'.distances.record id distance = st.distances.record id distance
    rw [hdistances]

theorem bind (h : Twin r chain st st') {id : Nat} {name : String}
    (hname : name ≠ r.new)
    (hid : r.table.find? id = distance st.scopes name) :
    Twin r chain (st.bind id name)
      (st'.bind id (r.nameAt chain (r.table.find? id) name)) := by
  apply h.record
  rw [hid]
  exact h.scopes.distance hname

theorem isOpen (h : Twin r chain st st') {name : String}
    (hname : name ≠ r.new) :
    st'.isOpen (r.nameAt chain (distance st.scopes name) name) =
      st.isOpen name := by
  obtain ⟨scopes, body, context, distances, reports⟩ := st
  obtain ⟨scopes', body', context', distances', reports'⟩ := st'
  have hscopes : Twins r chain scopes scopes' := h.scopes
  cases hscopes with
  | nil => rfl
  | @cons changed chain scope scope' outer outer' names absent rest =>
    simp only [State.isOpen, distance_cons]
    cases hmem : scope.contains name with
    | true =>
      show (scope'.find? (r.name changed name) == _) = _
      rw [(names name).eq]
    | false =>
      obtain ⟨other, hother⟩ :=
        r.nameAt_eq chain (Scope.distance outer name) name
      have hmiss := contains_name_eq_false names absent hname hmem other
      rw [if_neg Bool.false_ne_true, r.nameAt_cons, hother,
        Table.find?_eq_none_of_contains hmem,
        Table.find?_eq_none_of_contains hmiss]

/-- A variable is read.  If that is reported, it does not matter what the
table says of it. -/
theorem read (h : Twin r chain st st') {ref : Ref} (hname : ref.name ≠ r.new)
    (hid : st.isOpen ref.name = false →
      r.table.find? ref.id = distance st.scopes ref.name) :
    Twin r chain (st.read ref) (st'.read (ref.rename r chain)) := by
  cases hopen : st.isOpen ref.name with
  | true =>
    have heffect := st.effect_read ref
    have heffect' := st'.effect_read (ref.rename r chain)
    have hreports : (st.read ref).reports ≠ [] := by
      intro hnil
      rw [State.read, hopen] at hnil
      exact absurd ((State.effect_bind _ _ _).reports_eq_nil hnil)
        (by rintro ⟨⟩)
    refine ⟨?_, ?_, ?_, fun hnil => absurd hnil hreports⟩
    · rw [heffect.scopes_eq, heffect'.scopes_eq]
      exact h.scopes
    · rw [heffect.body, heffect'.body, h.body]
    · rw [heffect.context, heffect'.context, h.context]
  | false =>
    have hopen' : st'.isOpen (ref.rename r chain).name = false := by
      rw [Ref.rename, hid hopen, h.isOpen hname, hopen]
    simp only [State.read, hopen, hopen', State.reportIf,
      Bool.false_eq_true, if_false]
    exact h.bind hname (hid hopen)

theorem readThis (h : Twin r chain st st') (id line : Nat) :
    Twin r chain (st.readThis id line) (st'.readThis id line) := by
  simp only [State.readThis, h.context]
  split
  · exact h.report line line _ _ .thisOutside
  · exact h.record id (h.scopes.distance_reserved not_unreserved_this)

theorem readSuper (h : Twin r chain st st') (id line : Nat) :
    Twin r chain (st.readSuper id line) (st'.readSuper id line) := by
  have hfault : st'.superFault? = st.superFault? := by
    rw [State.superFault?, h.context, h.body, State.superFault?]
  simp only [State.readSuper, hfault]
  cases st.superFault? with
  | none => exact h.record id (h.scopes.distance_reserved not_unreserved_super)
  | some f =>
    exact (h.report line line _ _ f).record id
      (h.scopes.distance_reserved not_unreserved_super)

/-! ## Expressions -/

section

variable {L : Ledger} {opening : Option String} {scopes : List (Table Bool)}

theorem walkExprs_of {list : List Expr}
    (ih : ∀ e ∈ list, ∀ st st', e.Scoped L opening scopes → e.Avoids r.new →
      Opened opening scopes st.scopes → Twin r chain st st' →
      Twin r chain (walkExpr e st) (walkExpr (e.rename r chain) st'))
    (hscoped : Expr.AllScoped L opening scopes list)
    (havoid : Expr.AllAvoid r.new list)
    (hopened : Opened opening scopes st.scopes) (h : Twin r chain st st') :
    Twin r chain (walkExprs list st)
      (walkExprs (list.map (Expr.rename r chain)) st') := by
  induction list generalizing st st' with
  | nil => exact h
  | cons e rest ihrest =>
    obtain ⟨he, hrest⟩ := List.forall_mem_cons.1 ih
    rw [Expr.AllScoped] at hscoped
    rw [Expr.AllAvoid] at havoid
    rw [List.map_cons, Scope.walkExprs, Scope.walkExprs]
    apply ihrest hrest hscoped.2 havoid.2
    · rw [(effect_walkExpr e st).scopes_eq]
      exact hopened
    · exact he st st' hscoped.1 havoid.1 hopened h

theorem walkExpr (hL : L.distances = r.table) {e : Expr}
    (hscoped : e.Scoped L opening scopes) (havoid : e.Avoids r.new)
    (hopened : Opened opening scopes st.scopes) (h : Twin r chain st st') :
    Twin r chain (walkExpr e st) (walkExpr (e.rename r chain) st') := by
  induction e generalizing st st' with
  | literal => simpa only [Expr.rename, Scope.walkExpr] using h
  | group _ ih | unary _ _ _ ih | get _ _ ih =>
    rw [Expr.Scoped] at hscoped
    rw [Expr.Avoids] at havoid
    simp only [Expr.rename, Scope.walkExpr]
    exact ih hscoped havoid hopened h
  | binary left _ _ _ ihleft ihright | logical left _ _ _ ihleft ihright =>
    rw [Expr.Scoped] at hscoped
    rw [Expr.Avoids] at havoid
    simp only [Expr.rename, Scope.walkExpr]
    apply ihright hscoped.2 havoid.2
    · rw [(effect_walkExpr left st).scopes_eq]
      exact hopened
    · exact ihleft hscoped.1 havoid.1 hopened h
  | set _ _ value ihobject ihvalue =>
    rw [Expr.Scoped] at hscoped
    rw [Expr.Avoids] at havoid
    simp only [Expr.rename, Scope.walkExpr]
    apply ihobject hscoped.1 havoid.1
    · rw [(effect_walkExpr value st).scopes_eq]
      exact hopened
    · exact ihvalue hscoped.2 havoid.2 hopened h
  | occurrence ref =>
    rw [Expr.Scoped] at hscoped
    rw [Expr.Avoids] at havoid
    simp only [Expr.rename, Scope.walkExpr]
    apply h.read havoid
    intro hopen
    rw [← hL, hscoped.find, hopened.distance_eq (hopened.ne_of_isOpen hopen)]
  | assign target value ih =>
    rw [Expr.Scoped] at hscoped
    rw [Expr.Avoids] at havoid
    simp only [Expr.rename, Scope.walkExpr]
    apply (ih hscoped.1 havoid.2 hopened h).bind havoid.1
    rw [← hL, hscoped.2.records.find, (effect_walkExpr value st).scopes_eq]
    split
    · next heq =>
      rw [heq] at hopened
      rw [hopened.distance_self]
    · next hne => rw [hopened.distance_eq hne]
  | call callee line arguments ihcallee iharguments =>
    rw [Expr.Scoped] at hscoped
    rw [Expr.Avoids] at havoid
    simp only [Expr.rename, Scope.walkExpr, Expr.renameAll_eq_map]
    apply walkExprs_of (fun e he _ _ => iharguments e he) hscoped.2 havoid.2
    · rw [(effect_walkExpr callee st).scopes_eq]
      exact hopened
    · exact ihcallee hscoped.1 havoid.1 hopened h
  | this id line =>
    simp only [Expr.rename, Scope.walkExpr]
    exact h.readThis id line
  | super id line method =>
    simp only [Expr.rename, Scope.walkExpr]
    exact h.readSuper id line

theorem walkOption (hL : L.distances = r.table) {e : Option Expr}
    (hscoped : Expr.OptionScoped L opening scopes e)
    (havoid : Expr.OptionAvoids r.new e)
    (hopened : Opened opening scopes st.scopes) (h : Twin r chain st st') :
    Twin r chain (walkOption e st)
      (walkOption (e.map (Expr.rename r chain)) st') := by
  cases e with
  | none => exact h
  | some e => exact h.walkExpr hL hscoped havoid hopened

end

/-! ## Statements -/

section

variable {L : Ledger}

/-- The walks over a statement and a renamed one go on beside each other. -/
def Along (L : Ledger) (r : Renaming) (s : Stmt) : Prop :=
  ∀ chain s' st st', s.Scoped L st.scopes → s.Avoids r.new →
    s.Renames r chain s' → Twin r chain st st' →
    Twin r chain (walkStmt s st) (walkStmt s' st')

theorem walkStmts_of {list list' : List Stmt} (ih : ∀ s ∈ list, Along L r s)
    (hscoped : Stmt.AllScoped L list st.scopes)
    (havoid : Stmt.AllAvoid r.new list)
    (hlist : Stmt.AllRename r list chain list') (h : Twin r chain st st') :
    Twin r chain (walkStmts list st) (walkStmts list' st') := by
  induction list generalizing list' st st' with
  | nil =>
    rw [Stmt.AllRename] at hlist
    subst hlist
    simpa only [walkStmts] using h
  | cons s rest ihrest =>
    obtain ⟨hs, hrest⟩ := List.forall_mem_cons.1 ih
    rw [Stmt.AllScoped, ← (effect_walkStmt s st).scopes] at hscoped
    rw [Stmt.AllAvoid] at havoid
    rw [Stmt.AllRename] at hlist
    obtain ⟨s', rest', hs', hrest', rfl⟩ := hlist
    rw [walkStmts, walkStmts]
    exact ihrest hrest hscoped.2 havoid.2 hrest'
      (hs chain s' st st' hscoped.1 havoid.1 hs' h)

theorem walkRoutine_of {f f' : FunctionDecl}
    (ih : ∀ s ∈ f.body, Along L r s) (hscoped : f.Scoped L st.scopes)
    (havoid : f.Avoids r.new) (hf : f.Renames r chain f') (body : Body)
    (h : Twin r chain st st') :
    Twin r chain (walkRoutine f body st) (walkRoutine f' body st') := by
  obtain ⟨name, params, statements, kind⟩ := f
  rw [FunctionDecl.Scoped] at hscoped
  rw [FunctionDecl.Avoids] at havoid
  rw [FunctionDecl.Renames] at hf
  obtain ⟨changed, statements', hstatements, rfl⟩ := hf
  simp only [walkRoutine, h.body]
  have hinner := ((h.withBody body).enter changed).parameters havoid.2.1
  have hscopes := (State.effect_parameters
    (({ st with body := body } : State).enter []) params).scopes
  refine (walkStmts_of ih ?_ havoid.2.2 hstatements hinner).leave.withBody st.body
  rw [hscopes]
  exact hscoped.2

theorem ofMember_renames {f f' : FunctionDecl} (hf : f.Renames r chain f') :
    Body.ofMember f' = .ofMember f := by
  rw [Body.ofMember, hf.same.2.1, hf.isInitializer, Body.ofMember]

theorem walkMembers_of {list list' : List FunctionDecl}
    (ih : ∀ f ∈ list, ∀ s ∈ f.body, Along L r s)
    (hscoped : FunctionDecl.AllScoped L list st.scopes)
    (havoid : FunctionDecl.AllAvoid r.new list)
    (hlist : FunctionDecl.AllRename r list chain list')
    (h : Twin r chain st st') :
    Twin r chain (walkMembers list st) (walkMembers list' st') := by
  induction list generalizing list' st st' with
  | nil =>
    rw [FunctionDecl.AllRename] at hlist
    subst hlist
    simpa only [walkMembers] using h
  | cons f rest ihrest =>
    obtain ⟨hf, hrest⟩ := List.forall_mem_cons.1 ih
    rw [FunctionDecl.AllScoped] at hscoped
    rw [FunctionDecl.AllAvoid] at havoid
    rw [FunctionDecl.AllRename] at hlist
    obtain ⟨f', rest', hf', hrest', rfl⟩ := hlist
    have heffect := effect_walkRoutine_of (fun s (_ : s ∈ f.body) =>
      effect_walkStmt s) (.ofMember f) st
    rw [walkMembers, walkMembers, ofMember_renames hf']
    apply ihrest hrest ?_ havoid.2 hrest'
    · exact walkRoutine_of hf hscoped.1 havoid.1 hf' _ h
    · rw [heffect.scopes_eq]
      exact hscoped.2

/-- The name of a class is that of its superclass if and only if it is so
under the new names. -/
theorem beq_rename_parent {name : Ident} {parent : Ref}
    (hkeeps : r.Keeps chain name) (hname : name.name ≠ r.new)
    (hparent : parent.name ≠ r.new) {scopes : List (Table Bool)}
    (hid : r.table.find? parent.id =
      distance (addNames [name.name] scopes) parent.name) :
    ((parent.rename r chain).name == name.name) =
      (parent.name == name.name) := by
  by_cases heq : parent.name = name.name
  · have hsame : (parent.rename r chain).name = name.name := by
      rw [Ref.rename, hid, heq]
      cases scopes with
      | nil => rfl
      | cons scope outer =>
        have hzero : distance (addNames [name.name] (scope :: outer)) name.name =
            some 0 := by
          rw [addNames, distance_cons, contains_foldl_insert]
          simp
        rw [hzero, Renaming.nameAt, ← List.headD_eq_getD]
        exact hkeeps
    rw [hsame, heq]
  · have hne : (parent.rename r chain).name ≠ name.name := by
      obtain ⟨changed, hchanged⟩ :=
        r.nameAt_eq chain (r.table.find? parent.id) parent.name
      rw [Ref.rename, hchanged]
      rcases r.name_eq hparent changed with hsame | ⟨-, hnew⟩
      · rw [hsame]
        exact heq
      · rw [hnew]
        exact hname.symm
    rw [beq_false_of_ne hne, beq_false_of_ne heq]

theorem walkClass_of (hL : L.distances = r.table) {c c' : ClassDecl}
    (ih : ∀ f ∈ c.methods, ∀ s ∈ f.body, Along L r s)
    (hscoped : c.Scoped L st.scopes) (havoid : c.Avoids r.new)
    (hc : c.Renames r chain c') (h : Twin r chain st st') :
    Twin r chain (walkClass c st) (walkClass c' st') := by
  obtain ⟨name, superclass, methods⟩ := c
  rw [ClassDecl.Avoids] at havoid
  obtain ⟨hname, hsuperclass, hmethods⟩ := havoid
  cases superclass with
  | none =>
    rw [ClassDecl.Scoped] at hscoped
    rw [ClassDecl.Renames] at hc
    obtain ⟨hkeeps, methods', hmethods', rfl⟩ := hc
    simp only [walkClass, h.context]
    have hnamed := (h.withContext .base).declareKept hkeeps hname
    have hscopes := (State.effect_declare_define
      { st with context := .base } name).scopes
    have hentered := hnamed.enterReserved not_unreserved_this
    refine (walkMembers_of ih ?_ hmethods hmethods' hentered).leave.withContext
      st.context
    show FunctionDecl.AllScoped L methods (thisScope :: State.scopes _)
    rw [hscopes]
    exact hscoped.2
  | some parent =>
    rw [ClassDecl.Scoped] at hscoped
    rw [ClassDecl.Renames] at hc
    obtain ⟨hkeeps, methods', hmethods', rfl⟩ := hc
    have hparent : parent.name ≠ r.new := hsuperclass parent rfl
    have hid := hscoped.2.1.find
    rw [hL] at hid
    simp only [walkClass, h.context]
    have hnamed := (h.withContext .derived).declareKept hkeeps hname
    have hscopes := (State.effect_declare_define
      { st with context := .derived } name).scopes
    generalize (({ st with context := .derived } : State).declare name).define
      name = named at hnamed hscopes ⊢
    generalize (({ st' with context := .derived } : State).declare name).define
      name = named' at hnamed ⊢
    have hchecked := hnamed.reportIf
      (beq_rename_parent hkeeps hname hparent hid) parent.line parent.line
      parent.name (parent.rename r chain).name .inheritsItself
    have hchecks := named.effect_reportIf (parent.name == name.name) parent.line
      parent.name .inheritsItself
    have hread := hchecked.read hparent fun _ => by
      rw [hid, hchecks.scopes_eq, hscopes]
    have hreads := hchecks.trans (State.effect_read _ parent)
    have hentered :=
      (hread.enterReserved not_unreserved_super).enterReserved not_unreserved_this
    refine (walkMembers_of ih ?_ hmethods hmethods'
      hentered).leave.leave.withContext st.context
    show FunctionDecl.AllScoped L methods (thisScope :: superScope ::
      State.scopes _)
    rw [hreads.scopes_eq, hscopes]
    exact hscoped.2.2

/-- A variable is declared where its scope does not hold it yet. -/
theorem opened_declare {x : Ident} (hx : Unreserved x.name)
    (hfree : Free st.scopes x.name) :
    Opened (opening st.scopes x.name) st.scopes (st.declare x).scopes := by
  cases hscopes : st.scopes with
  | nil =>
    rw [State.declare, hscopes]
    exact hscopes
  | cons scope outer =>
    rw [hscopes] at hfree
    have hmem : scope.contains x.name = false := hfree scope rfl
    simp only [State.declare, hscopes, hmem, Bool.false_eq_true, if_false]
    exact ⟨hx, scope, outer, rfl, rfl⟩

/-- The branches are walked in the scopes of the condition: neither declares
a name outside itself. -/
theorem along_ifElse (hL : L.distances = r.table) (condition : Expr)
    {thenBranch : Stmt} {elseBranch : Option Stmt}
    (ihthen : Along L r thenBranch)
    (ihelse : ∀ s, elseBranch = some s → Along L r s) :
    Along L r (.ifElse condition thenBranch elseBranch) := by
  intro chain s' st st' hscoped havoid hs h
  have hcondition := effect_walkExpr condition st
  cases elseBranch with
  | none =>
    rw [Stmt.Scoped] at hscoped
    rw [Stmt.Avoids] at havoid
    rw [Stmt.Renames] at hs
    obtain ⟨thenBranch', hthen, rfl⟩ := hs
    simp only [Scope.walkStmt]
    apply ihthen _ _ _ _ ?_ havoid.2 hthen
    · exact h.walkExpr hL hscoped.1 havoid.1 rfl
    · rw [hcondition.scopes_eq]
      exact hscoped.2.2
  | some elseBranch =>
    rw [Stmt.Scoped] at hscoped
    rw [Stmt.Avoids] at havoid
    rw [Stmt.Renames] at hs
    obtain ⟨thenBranch', elseBranch', hthen, helse, rfl⟩ := hs
    obtain ⟨hscoped, ⟨hdeclared, hscopedThen⟩, -, hscopedElse⟩ := hscoped
    have hbranch := effect_walkStmt thenBranch (Scope.walkExpr condition st)
    rw [hdeclared] at hbranch
    simp only [Scope.walkStmt]
    apply ihelse elseBranch rfl _ _ _ _ ?_ havoid.2.2 helse
    · apply ihthen _ _ _ _ ?_ havoid.2.1 hthen
      · exact h.walkExpr hL hscoped havoid.1 rfl
      · rw [hcondition.scopes_eq]
        exact hscopedThen
    · rw [hbranch.scopes_eq, hcondition.scopes_eq]
      exact hscopedElse

theorem walkStmt (hL : L.distances = r.table) (s : Stmt) : Along L r s := by
  induction s with
  | expression e | print e =>
    intro chain s' st st' hscoped havoid hs h
    rw [Stmt.Scoped] at hscoped
    rw [Stmt.Avoids] at havoid
    rw [Stmt.Renames] at hs
    subst hs
    simp only [Scope.walkStmt]
    exact h.walkExpr hL hscoped havoid rfl
  | var x initializer =>
    intro chain s' st st' hscoped havoid hs h
    rw [Stmt.Scoped] at hscoped
    rw [Stmt.Avoids] at havoid
    rw [Stmt.Renames] at hs
    subst hs
    simp only [Scope.walkStmt]
    have hopened := opened_declare hscoped.1 hscoped.2.1
    exact ((h.declare havoid.1).walkOption hL hscoped.2.2 havoid.2
      hopened).define havoid.1
  | block body ih =>
    intro chain s' st st' hscoped havoid hs h
    rw [Stmt.Scoped] at hscoped
    rw [Stmt.Avoids] at havoid
    rw [Stmt.Renames] at hs
    obtain ⟨changed, body', hbody, rfl⟩ := hs
    simp only [Scope.walkStmt]
    exact (walkStmts_of ih hscoped havoid hbody (h.enter changed)).leave
  | ifElse condition thenBranch elseBranch ihthen ihelse =>
    exact along_ifElse hL condition ihthen ihelse
  | loop condition body ih =>
    intro chain s' st st' hscoped havoid hs h
    rw [Stmt.Scoped] at hscoped
    rw [Stmt.Avoids] at havoid
    rw [Stmt.Renames] at hs
    obtain ⟨body', hbody, rfl⟩ := hs
    simp only [Scope.walkStmt]
    apply ih _ _ _ _ ?_ havoid.2 hbody
    · exact h.walkExpr hL hscoped.1 havoid.1 rfl
    · rw [(effect_walkExpr condition st).scopes_eq]
      exact hscoped.2.2
  | function f ih =>
    intro chain s' st st' hscoped havoid hs h
    rw [Stmt.Scoped] at hscoped
    rw [Stmt.Avoids] at havoid
    rw [Stmt.Renames] at hs
    obtain ⟨hkeeps, f', hf, rfl⟩ := hs
    have hnew : f.name.name ≠ r.new := by
      obtain ⟨name, params, statements, kind⟩ := f
      rw [FunctionDecl.Avoids] at havoid
      exact havoid.1
    simp only [Scope.walkStmt, hf.same.1]
    apply walkRoutine_of ih ?_ havoid hf
    · exact h.declareKept hkeeps hnew
    · rw [(State.effect_declare_define st f.name).scopes]
      exact hscoped.2.2
  | giveBack line value =>
    intro chain s' st st' hscoped havoid hs h
    rw [Stmt.Scoped] at hscoped
    rw [Stmt.Avoids] at havoid
    rw [Stmt.Renames] at hs
    subst hs
    simp only [Scope.walkStmt, Option.isSome_map]
    have hchecks := st.effect_checkReturn line value.isSome
    exact (h.checkReturn line value.isSome).walkOption hL hscoped havoid
      hchecks.scopes_eq
  | cls c ih =>
    intro chain s' st st' hscoped havoid hs h
    rw [Stmt.Scoped] at hscoped
    rw [Stmt.Avoids] at havoid
    rw [Stmt.Renames] at hs
    obtain ⟨c', hc, rfl⟩ := hs
    simp only [Scope.walkStmt]
    exact walkClass_of hL ih hscoped havoid hc h

end

end Twin

/-! ## Programs -/

/-- A program that is accepted is accepted under new names, with the same
distances. -/
theorem resolve_rename {r : Renaming} {L : Ledger} (hL : L.distances = r.table)
    {program program' : List Stmt} {distances : Distances}
    (hscoped : Stmt.AllScoped L program [])
    (havoid : Stmt.AllAvoid r.new program)
    (hprogram : Stmt.AllRename r program [] program')
    (haccepted : (resolve program distances).diagnostics = []) :
    resolve program' distances = resolve program distances := by
  have hstart : Twin r [] (.start distances) (.start distances) :=
    ⟨.nil, rfl, rfl, fun _ => ⟨rfl, rfl⟩⟩
  have hwalk := Twin.walkStmts_of (fun s _ => Twin.walkStmt hL s) hscoped havoid
    hprogram hstart
  rw [resolve_eq, resolve_eq] at *
  have hreports := List.reverse_eq_nil_iff.1 haccepted
  obtain ⟨hreports', hdistances⟩ := hwalk.clean hreports
  rw [hreports', hdistances, hreports]

end Scope

end Lox
