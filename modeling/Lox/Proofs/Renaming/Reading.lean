import Lox.Proofs.Renaming.Basic
import Mathlib.Data.List.Forall2

/-!
# Programs with new names

What a renaming makes of a program can be written down: of the tokens of the
program some that are `old` become `new`, and the others stay as they are
(`Rewritten`).  From the tokens so changed the renamed program is read, with
the same ids and on the same lines (`Reads.rename`).

A word that is not among the tokens is not the name of anything in the program
either (`Reads.avoids`).
-/

namespace Lox

/-! ## Tokens -/

/-- The word is not among the tokens. -/
def Token.Absent (x : String) (w : List Token) : Prop :=
  ∀ line, ⟨.identifier x, line⟩ ∉ w

/-- The token stays as it is, or it is `old` and becomes `new`. -/
def Token.Rewrites (r : Renaming) (t t' : Token) : Prop :=
  t' = t ∨ t.kind = .identifier r.old ∧ t' = ⟨.identifier r.new, t.line⟩

/-- Some of the tokens that are `old` become `new`. -/
def Token.Rewritten (r : Renaming) (w w' : List Token) : Prop :=
  List.Forall₂ (Token.Rewrites r) w w'

namespace Token

variable {r : Renaming} {x : String} {w w' v v' : List Token}

theorem absent_append :
    Absent x (w ++ w') ↔ Absent x w ∧ Absent x w' := by
  simp only [Absent, List.mem_append, not_or, forall_and]

theorem absent_cons {t : Token} :
    Absent x (t :: w) ↔ t.kind ≠ .identifier x ∧ Absent x w := by
  simp only [Absent, List.mem_cons, not_or, forall_and]
  refine and_congr_left fun _ => ⟨fun h hkind => ?_, fun h line heq => ?_⟩
  · exact h t.line (by rw [← hkind])
  · exact h (by rw [← heq])

theorem ne_of_absent {y : String} {line : Nat}
    (h : Absent x (⟨.identifier y, line⟩ :: w)) : y ≠ x := by
  rintro rfl
  exact h line List.mem_cons_self

namespace Rewritten

theorem refl (w : List Token) : Rewritten r w w :=
  List.forall₂_same.2 fun _ _ => .inl rfl

theorem cons (t : Token) (h : Rewritten r w w') : Rewritten r (t :: w) (t :: w') :=
  List.Forall₂.cons (.inl rfl) h

theorem append (h : Rewritten r w w') (h' : Rewritten r v v') :
    Rewritten r (w ++ v) (w' ++ v') :=
  List.rel_append h h'

/-- An identifier that comes out of a scope. -/
theorem ident {line : Nat} (hx : x ≠ r.new) (changed : Bool)
    (h : Rewritten r w w') :
    Rewritten r (⟨.identifier x, line⟩ :: w)
      (⟨.identifier (r.name changed x), line⟩ :: w') := by
  refine List.Forall₂.cons ?_ h
  rcases r.name_eq hx changed with hsame | ⟨rfl, hnew⟩
  · exact .inl (by rw [hsame])
  · exact .inr ⟨rfl, by rw [hnew]⟩

end Rewritten

end Token

open Token (Absent Rewritten absent_append absent_cons ne_of_absent)

/-! ## Expressions -/

namespace Expr

/-- The phrase with the names of what its occurrences are bound to. -/
def Phrase.rename (r : Renaming) (chain : List Bool) : Phrase → Phrase
  | .expr t e => .expr t (e.rename r chain)
  | .arguments list => .arguments (list.map (Expr.rename r chain))

theorem rename_apply (r : Renaming) (chain : List Bool) (op : Operator)
    (left right : Expr) (line : Nat) :
    (op.apply left line right).rename r chain =
      op.apply (left.rename r chain) line (right.rename r chain) := by
  cases op <;> simp only [Operator.apply, rename]

theorem Reads.rename {n n' : Nat} {phrase : Phrase} {w : List Token}
    (h : Reads n phrase w n') {r : Renaming} (hw : Absent r.new w)
    (chain : List Bool) :
    ∃ w', Rewritten r w w' ∧ Reads n (phrase.rename r chain) w' n' := by
  induction h with
  | literal h => exact ⟨_, .refl _, .literal h⟩
  | @name n x line =>
    obtain ⟨changed, hname⟩ := r.nameAt_eq chain (r.table.find? n) x
    simp only [Phrase.rename, Expr.rename, Ref.rename, hname]
    exact ⟨_, .ident (ne_of_absent hw) changed (.refl []), .name⟩
  | this => exact ⟨_, .refl _, .this⟩
  | super => exact ⟨_, .refl _, .super⟩
  | group inner ih =>
    obtain ⟨w', hw', h'⟩ := ih (absent_append.1 (absent_cons.1 hw).2).1
    exact ⟨_, .cons _ (hw'.append (.refl _)), .group h'⟩
  | callEmpty head ih =>
    obtain ⟨w', hw', h'⟩ := ih (absent_append.1 hw).1
    exact ⟨_, hw'.append (.refl _), .callEmpty h'⟩
  | call head tail ihhead ihtail =>
    obtain ⟨hhead, htail⟩ := absent_append.1 hw
    obtain ⟨w₁, hw₁, h₁⟩ := ihhead hhead
    obtain ⟨w₂, hw₂, h₂⟩ := ihtail (absent_append.1 (absent_cons.1 htail).2).1
    simp only [Phrase.rename, Expr.rename, renameAll_eq_map]
    exact ⟨_, hw₁.append (.cons _ (hw₂.append (.refl _))), .call h₁ h₂⟩
  | get head ih =>
    obtain ⟨w', hw', h'⟩ := ih (absent_append.1 hw).1
    exact ⟨_, hw'.append (.refl _), .get h'⟩
  | one only ih =>
    obtain ⟨w', hw', h'⟩ := ih hw
    exact ⟨_, hw', .one h'⟩
  | more earlier room last ihearlier ihlast =>
    obtain ⟨hearlier, hlast⟩ := absent_append.1 hw
    obtain ⟨w₁, hw₁, h₁⟩ := ihearlier hearlier
    obtain ⟨w₂, hw₂, h₂⟩ := ihlast (absent_cons.1 hlast).2
    simp only [Phrase.rename, List.map_append, List.map_cons, List.map_nil]
    exact ⟨_, hw₁.append (.cons _ hw₂),
      .more h₁ (by rw [List.length_map]; exact room) h₂⟩
  | operand inner ih =>
    obtain ⟨w', hw', h'⟩ := ih hw
    exact ⟨_, hw', .operand h'⟩
  | unary h inner ih =>
    obtain ⟨w', hw', h'⟩ := ih (absent_cons.1 hw).2
    exact ⟨_, .cons _ hw', .unary h h'⟩
  | level inner ih =>
    obtain ⟨w', hw', h'⟩ := ih hw
    exact ⟨_, hw', .level h'⟩
  | operator first h second ihfirst ihsecond =>
    obtain ⟨hfirst, hsecond⟩ := absent_append.1 hw
    obtain ⟨w₁, hw₁, h₁⟩ := ihfirst hfirst
    obtain ⟨w₂, hw₂, h₂⟩ := ihsecond (absent_cons.1 hsecond).2
    simp only [Phrase.rename, rename_apply]
    exact ⟨_, hw₁.append (.cons _ hw₂), .operator h₁ h h₂⟩
  | assignment inner ih =>
    obtain ⟨w', hw', h'⟩ := ih hw
    exact ⟨_, hw', .assignment h'⟩
  | @assign n x line l value w n' inner ih =>
    have hrest := absent_cons.1 (absent_cons.1 hw).2
    obtain ⟨w', hw', h'⟩ := ih hrest.2
    obtain ⟨changed, hname⟩ := r.nameAt_eq chain (r.table.find? n') x
    simp only [Phrase.rename, Expr.rename, Ref.rename, hname]
    exact ⟨_, .ident (ne_of_absent hw) changed (.cons _ hw'), .assign h'⟩
  | set head inner ihhead ihinner =>
    obtain ⟨hhead, hinner⟩ := absent_append.1 hw
    have hvalue := absent_cons.1 (absent_cons.1 (absent_cons.1 hinner).2).2
    obtain ⟨w₁, hw₁, h₁⟩ := ihhead hhead
    obtain ⟨w₂, hw₂, h₂⟩ := ihinner hvalue.2
    exact ⟨_, hw₁.append (.cons _ (.cons _ (.cons _ hw₂))), .set h₁ h₂⟩

end Expr

/-! ## Parts of statements -/

namespace Stmt

variable {r : Renaming} {n n' : Nat} {w : List Token}

theorem ReadsOption.rename {v : Option Expr} (h : ReadsOption n v w n')
    (hw : Absent r.new w) (chain : List Bool) :
    ∃ w', Rewritten r w w' ∧
      ReadsOption n (v.map (Expr.rename r chain)) w' n' := by
  cases h with
  | none => exact ⟨_, .refl _, .none⟩
  | some h =>
    obtain ⟨w', hw', h'⟩ := h.rename hw chain
    exact ⟨w', hw', .some h'⟩

theorem ReadsVar.rename {s s' : Stmt} (h : ReadsVar n s w n')
    (hw : Absent r.new w) {chain : List Bool} (hs : s.Renames r chain s') :
    ∃ w', Rewritten r w w' ∧ ReadsVar n s' w' n' := by
  cases h with
  | plain =>
    rw [Stmt.Renames] at hs
    subst hs
    exact ⟨_, .ident (ne_of_absent hw) _ (.refl _), .plain⟩
  | initialized value =>
    rw [Stmt.Renames] at hs
    subst hs
    have hrest := (absent_cons.1 (absent_cons.1 hw).2).2
    obtain ⟨w', hw', h'⟩ := value.rename (absent_append.1 hrest).1 chain
    exact ⟨_, .ident (ne_of_absent hw) _ (.cons _ (hw'.append (.refl _))),
      .initialized h'⟩

theorem ReadsExpression.rename {build : Expr → Stmt} {s s' : Stmt}
    (h : ReadsExpression build n s w n') (hw : Absent r.new w)
    {chain : List Bool} (hs : s.Renames r chain s')
    (hbuild : ∀ e, (build e).Renames r chain s' →
      s' = build (e.rename r chain)) :
    ∃ w', Rewritten r w w' ∧ ReadsExpression build n s' w' n' := by
  obtain ⟨h⟩ := h
  obtain ⟨w', hw', h'⟩ := h.rename (absent_append.1 hw).1 chain
  rw [hbuild _ hs]
  exact ⟨_, hw'.append (.refl _), .intro h'⟩

theorem ReadsReturn.rename {line : Nat} {s s' : Stmt}
    (h : ReadsReturn line n s w n') (hw : Absent r.new w) {chain : List Bool}
    (hs : s.Renames r chain s') :
    ∃ w', Rewritten r w w' ∧ ReadsReturn line n s' w' n' := by
  obtain ⟨h⟩ := h
  obtain ⟨w', hw', h'⟩ := h.rename (absent_append.1 hw).1 chain
  rw [Stmt.Renames] at hs
  rw [hs]
  exact ⟨_, hw'.append (.refl _), .intro h'⟩

theorem ReadsCondition.rename {e : Expr} (h : ReadsCondition n e w n')
    (hw : Absent r.new w) (chain : List Bool) :
    ∃ w', Rewritten r w w' ∧ ReadsCondition n (e.rename r chain) w' n' := by
  obtain ⟨h⟩ := h
  obtain ⟨w', hw', h'⟩ := h.rename
    (absent_append.1 (absent_cons.1 hw).2).1 chain
  exact ⟨_, .cons _ (hw'.append (.refl _)), .intro h'⟩

/-- The optional statement becomes the other one. -/
def OptionRenames (r : Renaming) (chain : List Bool) :
    Option Stmt → Option Stmt → Prop
  | none, s' => s' = none
  | some s, s' => ∃ t, s.Renames r chain t ∧ s' = some t

theorem ReadsForInitializer.rename {s s' : Option Stmt}
    (h : ReadsForInitializer n s w n') (hw : Absent r.new w)
    {chain : List Bool} (hs : OptionRenames r chain s s') :
    ∃ w', Rewritten r w w' ∧ ReadsForInitializer n s' w' n' := by
  cases h with
  | none =>
    obtain rfl : s' = Option.none := hs
    exact ⟨_, .refl _, .none⟩
  | var h =>
    obtain ⟨t, ht, rfl⟩ := hs
    obtain ⟨w', hw', h'⟩ := h.rename (absent_cons.1 hw).2 ht
    exact ⟨_, .cons _ hw', .var h'⟩
  | expression h =>
    obtain ⟨t, ht, rfl⟩ := hs
    obtain ⟨w', hw', h'⟩ := h.rename hw ht fun e he => by
      rwa [Stmt.Renames] at he
    exact ⟨w', hw', .expression h'⟩

/-- A loop that is written with `for` and without an initializer becomes
another one.  The increment is in a scope of its own, with the body. -/
theorem ForClauses.renames_loop_none {condition increment : Option Expr}
    {body s' : Stmt} {outer : List Bool}
    (h : (ForClauses.loop ⟨none, condition, increment⟩ body).Renames r outer
      s') :
    ∃ inner body', body.Renames r inner body' ∧
      s' = ForClauses.loop ⟨none, condition.map (Expr.rename r outer),
        increment.map (Expr.rename r inner)⟩ body' := by
  have hcondition : (condition.getD (.literal (.bool true))).rename r outer =
      (condition.map (Expr.rename r outer)).getD (.literal (.bool true)) := by
    cases condition <;> simp only [Option.getD, Option.map, Expr.rename]
  cases increment with
  | none =>
    simp only [ForClauses.loop, Stmt.Renames] at h
    obtain ⟨body', hbody, rfl⟩ := h
    exact ⟨outer, body', hbody, by rw [hcondition]; rfl⟩
  | some increment =>
    simp only [ForClauses.loop, Stmt.Renames, Stmt.AllRename] at h
    obtain ⟨_, ⟨changed, _, ⟨body', _, hbody, ⟨_, _, rfl, rfl, rfl⟩, rfl⟩,
      rfl⟩, rfl⟩ := h
    exact ⟨changed :: outer, body', hbody, by rw [hcondition]; rfl⟩

/-- With an initializer there is a block around the loop: the initializer and
the condition are in its scope. -/
theorem ForClauses.renames_loop {clauses : ForClauses} {body s' : Stmt}
    {chain : List Bool} (h : (clauses.loop body).Renames r chain s') :
    ∃ outer inner initializer body', OptionRenames r outer clauses.initializer
        initializer ∧ body.Renames r inner body' ∧
      s' = ForClauses.loop ⟨initializer,
        clauses.condition.map (Expr.rename r outer),
        clauses.increment.map (Expr.rename r inner)⟩ body' := by
  obtain ⟨initializer, condition, increment⟩ := clauses
  cases initializer with
  | none =>
    obtain ⟨inner, body', hbody, hs'⟩ := renames_loop_none h
    exact ⟨chain, inner, none, body', rfl, hbody, hs'⟩
  | some initializer =>
    have hblock : ForClauses.loop ⟨some initializer, condition, increment⟩ body =
        .block [initializer,
          ForClauses.loop ⟨none, condition, increment⟩ body] := rfl
    rw [hblock] at h
    simp only [Stmt.Renames, Stmt.AllRename] at h
    obtain ⟨changed, _, ⟨t, _, ht, ⟨s', _, hs', rfl, rfl⟩, rfl⟩, rfl⟩ := h
    obtain ⟨inner, body', hbody, rfl⟩ := renames_loop_none hs'
    exact ⟨changed :: chain, inner, some t, body', ⟨t, ht, rfl⟩, hbody, rfl⟩

theorem ReadsForClauses.rename {clauses : ForClauses}
    (h : ReadsForClauses n clauses w n') (hw : Absent r.new w)
    {outer : List Bool} {initializer : Option Stmt}
    (hinitializer : OptionRenames r outer clauses.initializer initializer)
    (inner : List Bool) :
    ∃ w', Rewritten r w w' ∧
      ReadsForClauses n ⟨initializer,
        clauses.condition.map (Expr.rename r outer),
        clauses.increment.map (Expr.rename r inner)⟩ w' n' := by
  obtain ⟨first, second, third⟩ := h
  obtain ⟨hfirst, hrest⟩ := absent_append.1 (absent_cons.1 hw).2
  obtain ⟨hsecond, hlast⟩ := absent_append.1 hrest
  obtain ⟨hthird, -⟩ := absent_append.1 (absent_cons.1 hlast).2
  obtain ⟨w₁, hw₁, h₁⟩ := first.rename hfirst hinitializer
  obtain ⟨w₂, hw₂, h₂⟩ := second.rename hsecond outer
  obtain ⟨w₃, hw₃, h₃⟩ := third.rename hthird inner
  exact ⟨_, .cons _ (hw₁.append (hw₂.append (.cons _ (hw₃.append (.refl _))))),
    .intro h₁ h₂ h₃⟩

theorem ReadsParams.rename {params : List Ident} (h : ReadsParams params w)
    (hw : Absent r.new w) (changed : Bool) :
    ∃ w', Rewritten r w w' ∧
      ReadsParams (params.map (Ident.rename r changed)) w' := by
  induction h with
  | one => exact ⟨_, .ident (ne_of_absent hw) changed (.refl _), .one⟩
  | more rest ih =>
    obtain ⟨w', hw', h'⟩ := ih (absent_cons.1 (absent_cons.1 hw).2).2
    exact ⟨_, .ident (ne_of_absent hw) changed (.cons _ hw'), .more h'⟩

/-- The header with its parameters in a scope that is changed or not. -/
def Header.rename (r : Renaming) (changed : Bool) (header : Header) : Header :=
  ⟨header.name, header.params.map (Ident.rename r changed), header.kind⟩

theorem Header.renames_withBody {header : Header} {body : List Stmt}
    {chain : List Bool} {f' : FunctionDecl}
    (h : (header.withBody body).Renames r chain f') :
    ∃ changed body', Stmt.AllRename r body (changed :: chain) body' ∧
      f' = (header.rename r changed).withBody body' := by
  rwa [Header.withBody, FunctionDecl.Renames] at h

theorem ReadsHeader.rename {kind : FunctionKind} {header : Header}
    (h : ReadsHeader kind header w) (hw : Absent r.new w) (changed : Bool) :
    ∃ w', Rewritten r w w' ∧ ReadsHeader kind (header.rename r changed) w' := by
  cases h with
  | getter hkind => exact ⟨_, .refl _, .getter hkind⟩
  | empty => exact ⟨_, .refl _, .empty⟩
  | params list room =>
    have hlist := (absent_append.1 (absent_cons.1 (absent_cons.1 hw).2).2).1
    obtain ⟨w', hw', h'⟩ := list.rename hlist changed
    exact ⟨_, .cons _ (.cons _ (hw'.append (.refl _))),
      .params h' (by rw [List.length_map]; exact room)⟩

theorem ReadsMemberHeader.rename {header : Header}
    (h : ReadsMemberHeader header w) (hw : Absent r.new w) (changed : Bool) :
    ∃ w', Rewritten r w w' ∧
      ReadsMemberHeader (header.rename r changed) w' := by
  cases h with
  | method h =>
    obtain ⟨w', hw', h'⟩ := h.rename hw changed
    exact ⟨w', hw', .method h'⟩
  | static h =>
    obtain ⟨w', hw', h'⟩ := h.rename (absent_cons.1 hw).2 changed
    exact ⟨_, .cons _ hw', .static h'⟩

/-- The members of a class and its head become those of another one. -/
theorem ReadsClassHead.rename {head : ClassHead}
    (h : ReadsClassHead n head w n') (hw : Absent r.new w) {chain : List Bool}
    {list : List FunctionDecl} {c' : ClassDecl}
    (hc : ClassDecl.Renames r ⟨head.name, head.superclass, list⟩ chain c') :
    ∃ w' head' inner list', Rewritten r w w' ∧ ReadsClassHead n head' w' n' ∧
      FunctionDecl.AllRename r list inner list' ∧
      c' = ⟨head'.name, head'.superclass, list'⟩ := by
  cases h with
  | base =>
    simp only [ClassDecl.Renames] at hc
    obtain ⟨-, list', hlist, rfl⟩ := hc
    exact ⟨_, _, _, list', .refl _, .base, hlist, rfl⟩
  | @derived x line l parent line' l' =>
    simp only [ClassDecl.Renames, Ref.rename] at hc
    obtain ⟨-, list', hlist, rfl⟩ := hc
    obtain ⟨changed, hname⟩ := r.nameAt_eq chain (r.table.find? n) parent
    have hparent := ne_of_absent (absent_cons.1 (absent_cons.1 hw).2).2
    rw [hname]
    exact ⟨_, ⟨⟨x, line⟩, some _⟩, _, list',
      .cons _ (.cons _ (.ident hparent changed (.refl _))), .derived, hlist,
      rfl⟩

/-! ## Statements -/

/-- The phrase becomes the other one. -/
def Phrase.Renames (r : Renaming) (chain : List Bool) : Phrase → Phrase → Prop
  | .declarations list, phrase' => ∃ list', Stmt.AllRename r list chain list' ∧
    phrase' = .declarations list'
  | .declaration o s, phrase' => ∃ s', s.Renames r chain s' ∧
    phrase' = .declaration o s'
  | .statement o s, phrase' => ∃ s', s.Renames r chain s' ∧
    phrase' = .statement o s'
  | .members list, phrase' => ∃ list',
    FunctionDecl.AllRename r list chain list' ∧ phrase' = .members list'

/-- What a phrase becomes is read from the tokens with `new` put for some that
are `old`. -/
theorem Reads.rename {phrase : Phrase} (h : Reads n phrase w n')
    (hw : Absent r.new w) {chain : List Bool} {phrase' : Phrase}
    (hphrase : phrase.Renames r chain phrase') :
    ∃ w', Rewritten r w w' ∧ Reads n phrase' w' n' := by
  induction h generalizing chain phrase' with
  | nil =>
    obtain ⟨list', hlist, rfl⟩ := hphrase
    rw [Stmt.AllRename] at hlist
    subst hlist
    exact ⟨_, .refl _, .nil⟩
  | snoc earlier last ihearlier ihlast =>
    obtain ⟨_, hall, rfl⟩ := hphrase
    obtain ⟨list', _, hlist, hlast, rfl⟩ := Stmt.allRename_append.1 hall
    simp only [Stmt.AllRename] at hlast
    obtain ⟨s', _, hs, rfl, rfl⟩ := hlast
    obtain ⟨hearlier, hlast⟩ := absent_append.1 hw
    obtain ⟨w₁, hw₁, h₁⟩ := ihearlier hearlier ⟨list', hlist, rfl⟩
    obtain ⟨w₂, hw₂, h₂⟩ := ihlast hlast ⟨s', hs, rfl⟩
    exact ⟨_, hw₁.append hw₂, .snoc h₁ h₂⟩
  | statement inner ih =>
    obtain ⟨s', hs, rfl⟩ := hphrase
    obtain ⟨w', hw', h'⟩ := ih hw ⟨s', hs, rfl⟩
    exact ⟨w', hw', .statement h'⟩
  | var h =>
    obtain ⟨s', hs, rfl⟩ := hphrase
    obtain ⟨w', hw', h'⟩ := h.rename (absent_cons.1 hw).2 hs
    exact ⟨_, .cons _ hw', .var h'⟩
  | function head body ih =>
    obtain ⟨_, hs, rfl⟩ := hphrase
    rw [Stmt.Renames] at hs
    obtain ⟨-, f', hf, rfl⟩ := hs
    obtain ⟨changed, body', hbody, rfl⟩ := Header.renames_withBody hf
    obtain ⟨hhead, hrest⟩ := absent_append.1 (absent_cons.1 hw).2
    obtain ⟨w₁, hw₁, h₁⟩ := head.rename hhead changed
    obtain ⟨w₂, hw₂, h₂⟩ := ih (absent_append.1 hrest).1 ⟨body', hbody, rfl⟩
    exact ⟨_, .cons _ (hw₁.append (hw₂.append (.refl _))), .function h₁ h₂⟩
  | «class» h members ih =>
    obtain ⟨_, hs, rfl⟩ := hphrase
    rw [Stmt.Renames] at hs
    obtain ⟨c', hc, rfl⟩ := hs
    obtain ⟨hhead, hrest⟩ := absent_append.1 (absent_cons.1 hw).2
    obtain ⟨w₁, head', inner, list', hw₁, h₁, hlist, rfl⟩ := h.rename hhead hc
    obtain ⟨w₂, hw₂, h₂⟩ := ih (absent_append.1 hrest).1 ⟨list', hlist, rfl⟩
    exact ⟨_, .cons _ (hw₁.append (hw₂.append (.refl _))), .class h₁ h₂⟩
  | noMember =>
    obtain ⟨list', hlist, rfl⟩ := hphrase
    rw [FunctionDecl.AllRename] at hlist
    subst hlist
    exact ⟨_, .refl _, .noMember⟩
  | member earlier head inner ihearlier ihinner =>
    obtain ⟨_, hall, rfl⟩ := hphrase
    obtain ⟨list', _, hlist, hlast, rfl⟩ :=
      FunctionDecl.allRename_append.1 hall
    simp only [FunctionDecl.AllRename] at hlast
    obtain ⟨f', _, hf, rfl, rfl⟩ := hlast
    obtain ⟨changed, body', hbody, rfl⟩ := Header.renames_withBody hf
    obtain ⟨hearlier, hrest⟩ := absent_append.1 hw
    obtain ⟨hhead, hrest⟩ := absent_append.1 hrest
    obtain ⟨w₁, hw₁, h₁⟩ := ihearlier hearlier ⟨list', hlist, rfl⟩
    obtain ⟨w₂, hw₂, h₂⟩ := head.rename hhead changed
    obtain ⟨w₃, hw₃, h₃⟩ := ihinner (absent_append.1 hrest).1
      ⟨body', hbody, rfl⟩
    exact ⟨_, hw₁.append (hw₂.append (hw₃.append (.refl _))),
      .member h₁ h₂ h₃⟩
  | expression h =>
    obtain ⟨s', hs, rfl⟩ := hphrase
    obtain ⟨w', hw', h'⟩ := h.rename hw hs fun e he => by
      rwa [Stmt.Renames] at he
    exact ⟨w', hw', .expression h'⟩
  | print h =>
    obtain ⟨s', hs, rfl⟩ := hphrase
    obtain ⟨w', hw', h'⟩ := h.rename (absent_cons.1 hw).2 hs fun e he => by
      rwa [Stmt.Renames] at he
    exact ⟨_, .cons _ hw', .print h'⟩
  | «return» h =>
    obtain ⟨s', hs, rfl⟩ := hphrase
    obtain ⟨w', hw', h'⟩ := h.rename (absent_cons.1 hw).2 hs
    exact ⟨_, .cons _ hw', .return h'⟩
  | block body ih =>
    obtain ⟨_, hs, rfl⟩ := hphrase
    rw [Stmt.Renames] at hs
    obtain ⟨changed, body', hbody, rfl⟩ := hs
    obtain ⟨w', hw', h'⟩ := ih (absent_append.1 (absent_cons.1 hw).2).1
      ⟨body', hbody, rfl⟩
    exact ⟨_, .cons _ (hw'.append (.refl _)), .block h'⟩
  | ifThen h thenBranch ih =>
    obtain ⟨_, hs, rfl⟩ := hphrase
    rw [Stmt.Renames] at hs
    obtain ⟨s', hthen, rfl⟩ := hs
    obtain ⟨hcondition, hrest⟩ := absent_append.1 (absent_cons.1 hw).2
    obtain ⟨w₁, hw₁, h₁⟩ := h.rename hcondition chain
    obtain ⟨w₂, hw₂, h₂⟩ := ih hrest ⟨s', hthen, rfl⟩
    exact ⟨_, .cons _ (hw₁.append hw₂), .ifThen h₁ h₂⟩
  | ifElse h thenBranch elseBranch ihthen ihelse =>
    obtain ⟨_, hs, rfl⟩ := hphrase
    rw [Stmt.Renames] at hs
    obtain ⟨s₁, s₂, hthen, helse, rfl⟩ := hs
    obtain ⟨hcondition, hrest⟩ := absent_append.1 (absent_cons.1 hw).2
    obtain ⟨hfirst, hsecond⟩ := absent_append.1 hrest
    obtain ⟨w₁, hw₁, h₁⟩ := h.rename hcondition chain
    obtain ⟨w₂, hw₂, h₂⟩ := ihthen hfirst ⟨s₁, hthen, rfl⟩
    obtain ⟨w₃, hw₃, h₃⟩ := ihelse (absent_cons.1 hsecond).2 ⟨s₂, helse, rfl⟩
    exact ⟨_, .cons _ (hw₁.append (hw₂.append (.cons _ hw₃))),
      .ifElse h₁ h₂ h₃⟩
  | «while» h body ih =>
    obtain ⟨_, hs, rfl⟩ := hphrase
    rw [Stmt.Renames] at hs
    obtain ⟨s', hbody, rfl⟩ := hs
    obtain ⟨hcondition, hrest⟩ := absent_append.1 (absent_cons.1 hw).2
    obtain ⟨w₁, hw₁, h₁⟩ := h.rename hcondition chain
    obtain ⟨w₂, hw₂, h₂⟩ := ih hrest ⟨s', hbody, rfl⟩
    exact ⟨_, .cons _ (hw₁.append hw₂), .while h₁ h₂⟩
  | «for» h body ih =>
    obtain ⟨_, hs, rfl⟩ := hphrase
    obtain ⟨outer, inner, initializer, s', hinitializer, hbody, rfl⟩ :=
      ForClauses.renames_loop hs
    obtain ⟨hclauses, hrest⟩ := absent_append.1 (absent_cons.1 hw).2
    obtain ⟨w₁, hw₁, h₁⟩ := h.rename hclauses hinitializer inner
    obtain ⟨w₂, hw₂, h₂⟩ := ih hrest ⟨s', hbody, rfl⟩
    exact ⟨_, .cons _ (hw₁.append hw₂), .for h₁ h₂⟩

end Stmt

/-! ## Words that name nothing -/

mutual

/-- The word is the name of no occurrence in the expression. -/
def Expr.Avoids (x : String) : Expr → Prop
  | .literal _ => True
  | .group inner => inner.Avoids x
  | .unary _ _ right => right.Avoids x
  | .binary left _ _ right => left.Avoids x ∧ right.Avoids x
  | .logical left _ _ right => left.Avoids x ∧ right.Avoids x
  | .variable ref => ref.name ≠ x
  | .assign target value => target.name ≠ x ∧ value.Avoids x
  | .call callee _ arguments => callee.Avoids x ∧ Expr.AllAvoid x arguments
  | .get object _ => object.Avoids x
  | .set object _ value => object.Avoids x ∧ value.Avoids x
  | .this _ _ => True
  | .super _ _ _ => True

/-- The word is the name of no occurrence in the expressions. -/
def Expr.AllAvoid (x : String) : List Expr → Prop
  | [] => True
  | e :: rest => e.Avoids x ∧ Expr.AllAvoid x rest

end

/-- The word is the name of no occurrence in the optional expression. -/
def Expr.OptionAvoids (x : String) : Option Expr → Prop
  | none => True
  | some e => e.Avoids x

mutual

/-- The word is the name of nothing in the statement. -/
def Stmt.Avoids (x : String) : Stmt → Prop
  | .expression e => e.Avoids x
  | .print e => e.Avoids x
  | .var y initializer => y.name ≠ x ∧ Expr.OptionAvoids x initializer
  | .block body => Stmt.AllAvoid x body
  | .ifElse condition thenBranch none =>
    condition.Avoids x ∧ thenBranch.Avoids x
  | .ifElse condition thenBranch (some elseBranch) =>
    condition.Avoids x ∧ thenBranch.Avoids x ∧ elseBranch.Avoids x
  | .while condition body => condition.Avoids x ∧ body.Avoids x
  | .function f => f.Avoids x
  | .return _ value => Expr.OptionAvoids x value
  | .class c => c.Avoids x

/-- The word is the name of nothing in the statements. -/
def Stmt.AllAvoid (x : String) : List Stmt → Prop
  | [] => True
  | s :: rest => s.Avoids x ∧ Stmt.AllAvoid x rest

/-- The word is the name of nothing in the function. -/
def FunctionDecl.Avoids (x : String) : FunctionDecl → Prop
  | ⟨name, params, body, _⟩ =>
    name.name ≠ x ∧ (∀ y ∈ params, y.name ≠ x) ∧ Stmt.AllAvoid x body

/-- The word is the name of nothing in the functions. -/
def FunctionDecl.AllAvoid (x : String) : List FunctionDecl → Prop
  | [] => True
  | f :: rest => f.Avoids x ∧ FunctionDecl.AllAvoid x rest

/-- The word is the name of nothing in the class. -/
def ClassDecl.Avoids (x : String) : ClassDecl → Prop
  | ⟨name, superclass, methods⟩ =>
    name.name ≠ x ∧ (∀ parent ∈ superclass, parent.name ≠ x) ∧
      FunctionDecl.AllAvoid x methods

end

section

variable {x : String}

theorem Expr.allAvoid_append {list list' : List Expr} :
    Expr.AllAvoid x (list ++ list') ↔
      Expr.AllAvoid x list ∧ Expr.AllAvoid x list' := by
  induction list with
  | nil => simp [Expr.AllAvoid]
  | cons e rest ih => simp [Expr.AllAvoid, ih, and_assoc]

theorem Stmt.allAvoid_append {list list' : List Stmt} :
    Stmt.AllAvoid x (list ++ list') ↔
      Stmt.AllAvoid x list ∧ Stmt.AllAvoid x list' := by
  induction list with
  | nil => simp [Stmt.AllAvoid]
  | cons s rest ih => simp [Stmt.AllAvoid, ih, and_assoc]

theorem FunctionDecl.allAvoid_append {list list' : List FunctionDecl} :
    FunctionDecl.AllAvoid x (list ++ list') ↔
      FunctionDecl.AllAvoid x list ∧ FunctionDecl.AllAvoid x list' := by
  induction list with
  | nil => simp [FunctionDecl.AllAvoid]
  | cons f rest ih => simp [FunctionDecl.AllAvoid, ih, and_assoc]

/-- The word is the name of nothing in the phrase. -/
def Expr.Phrase.Avoids (x : String) : Expr.Phrase → Prop
  | .expr _ e => e.Avoids x
  | .arguments list => Expr.AllAvoid x list

theorem Expr.avoids_apply {op : Operator} {left right : Expr} {line : Nat}
    (h : left.Avoids x) (h' : right.Avoids x) :
    (op.apply left line right).Avoids x := by
  cases op <;> simp only [Operator.apply, Expr.Avoids] <;> exact ⟨h, h'⟩

theorem Expr.Reads.avoids {n n' : Nat} {phrase : Expr.Phrase} {w : List Token}
    (h : Expr.Reads n phrase w n') (hw : Absent x w) : phrase.Avoids x := by
  induction h with
  | literal | this | super => simp only [Phrase.Avoids, Expr.Avoids]
  | name =>
    simp only [Phrase.Avoids, Expr.Avoids]
    exact ne_of_absent hw
  | group inner ih =>
    simp only [Phrase.Avoids, Expr.Avoids]
    exact ih (absent_append.1 (absent_cons.1 hw).2).1
  | callEmpty head ih =>
    simp only [Phrase.Avoids, Expr.Avoids, Expr.AllAvoid]
    exact ⟨ih (absent_append.1 hw).1, trivial⟩
  | call head tail ihhead ihtail =>
    obtain ⟨hhead, htail⟩ := absent_append.1 hw
    simp only [Phrase.Avoids, Expr.Avoids]
    exact ⟨ihhead hhead, ihtail (absent_append.1 (absent_cons.1 htail).2).1⟩
  | get head ih =>
    simp only [Phrase.Avoids, Expr.Avoids]
    exact ih (absent_append.1 hw).1
  | one only ih =>
    simp only [Phrase.Avoids, Expr.AllAvoid]
    exact ⟨ih hw, trivial⟩
  | more earlier room last ihearlier ihlast =>
    obtain ⟨hearlier, hlast⟩ := absent_append.1 hw
    refine Expr.allAvoid_append.2 ⟨ihearlier hearlier, ?_⟩
    simp only [Expr.AllAvoid]
    exact ⟨ihlast (absent_cons.1 hlast).2, trivial⟩
  | operand inner ih | level inner ih | assignment inner ih => exact ih hw
  | unary h inner ih =>
    simp only [Phrase.Avoids, Expr.Avoids]
    exact ih (absent_cons.1 hw).2
  | operator first h second ihfirst ihsecond =>
    obtain ⟨hfirst, hsecond⟩ := absent_append.1 hw
    exact Expr.avoids_apply (ihfirst hfirst)
      (ihsecond (absent_cons.1 hsecond).2)
  | assign inner ih =>
    simp only [Phrase.Avoids, Expr.Avoids]
    exact ⟨ne_of_absent hw, ih (absent_cons.1 (absent_cons.1 hw).2).2⟩
  | set head inner ihhead ihinner =>
    obtain ⟨hhead, hinner⟩ := absent_append.1 hw
    have hvalue := absent_cons.1 (absent_cons.1 (absent_cons.1 hinner).2).2
    simp only [Phrase.Avoids, Expr.Avoids]
    exact ⟨ihhead hhead, ihinner hvalue.2⟩

namespace Stmt

variable {n n' : Nat} {w : List Token}

theorem ReadsOption.avoids {v : Option Expr} (h : ReadsOption n v w n')
    (hw : Absent x w) : Expr.OptionAvoids x v := by
  cases h with
  | none => trivial
  | some h => exact h.avoids hw

theorem ReadsVar.avoids {s : Stmt} (h : ReadsVar n s w n') (hw : Absent x w) :
    s.Avoids x := by
  cases h with
  | plain =>
    simp only [Stmt.Avoids]
    exact ⟨ne_of_absent hw, trivial⟩
  | initialized value =>
    have hrest := (absent_cons.1 (absent_cons.1 hw).2).2
    simp only [Stmt.Avoids]
    exact ⟨ne_of_absent hw, value.avoids (absent_append.1 hrest).1⟩

theorem ReadsExpression.avoids {build : Expr → Stmt} {s : Stmt}
    (h : ReadsExpression build n s w n') (hw : Absent x w)
    (hbuild : ∀ e : Expr, e.Avoids x → (build e).Avoids x) : s.Avoids x := by
  obtain ⟨h⟩ := h
  exact hbuild _ (h.avoids (absent_append.1 hw).1)

theorem ReadsCondition.avoids {e : Expr} (h : ReadsCondition n e w n')
    (hw : Absent x w) : e.Avoids x := by
  obtain ⟨h⟩ := h
  exact h.avoids (absent_append.1 (absent_cons.1 hw).2).1

theorem ReadsForInitializer.avoids {s : Option Stmt}
    (h : ReadsForInitializer n s w n') (hw : Absent x w) :
    ∀ t ∈ s, t.Avoids x := by
  cases h with
  | none => exact fun t ht => nomatch ht
  | var h =>
    rintro t ⟨⟩
    exact h.avoids (absent_cons.1 hw).2
  | expression h =>
    rintro t ⟨⟩
    exact h.avoids hw fun e he => by rwa [Stmt.Avoids]

theorem ForClauses.avoids_loop {clauses : ForClauses} {body : Stmt}
    (hinitializer : ∀ t ∈ clauses.initializer, t.Avoids x)
    (hcondition : Expr.OptionAvoids x clauses.condition)
    (hincrement : Expr.OptionAvoids x clauses.increment)
    (hbody : body.Avoids x) : (clauses.loop body).Avoids x := by
  obtain ⟨initializer, condition, increment⟩ := clauses
  have htest : (condition.getD (.literal (.bool true))).Avoids x := by
    cases condition with
    | none => simp only [Option.getD, Expr.Avoids]
    | some condition => exact hcondition
  have hloop : (ForClauses.loop ⟨none, condition, increment⟩ body).Avoids x := by
    cases increment with
    | none =>
      simp only [ForClauses.loop, Stmt.Avoids]
      exact ⟨htest, hbody⟩
    | some increment =>
      simp only [ForClauses.loop, Stmt.Avoids, Stmt.AllAvoid]
      exact ⟨htest, hbody, hincrement, trivial⟩
  cases initializer with
  | none => exact hloop
  | some initializer =>
    have hblock : ForClauses.loop ⟨some initializer, condition, increment⟩ body =
        .block [initializer,
          ForClauses.loop ⟨none, condition, increment⟩ body] := rfl
    rw [hblock]
    simp only [Stmt.Avoids, Stmt.AllAvoid]
    exact ⟨hinitializer _ rfl, hloop, trivial⟩

theorem ReadsForClauses.avoids {clauses : ForClauses}
    (h : ReadsForClauses n clauses w n') (hw : Absent x w) {body : Stmt}
    (hbody : body.Avoids x) : (clauses.loop body).Avoids x := by
  obtain ⟨first, second, third⟩ := h
  obtain ⟨hfirst, hrest⟩ := absent_append.1 (absent_cons.1 hw).2
  obtain ⟨hsecond, hlast⟩ := absent_append.1 hrest
  obtain ⟨hthird, -⟩ := absent_append.1 (absent_cons.1 hlast).2
  exact ForClauses.avoids_loop (first.avoids hfirst) (second.avoids hsecond)
    (third.avoids hthird) hbody

theorem ReadsParams.avoids {params : List Ident} (h : ReadsParams params w)
    (hw : Absent x w) : ∀ y ∈ params, y.name ≠ x := by
  induction h with
  | one => exact List.forall_mem_singleton.2 (ne_of_absent hw)
  | more rest ih =>
    exact List.forall_mem_cons.2 ⟨ne_of_absent hw,
      ih (absent_cons.1 (absent_cons.1 hw).2).2⟩

theorem ReadsHeader.avoids {kind : FunctionKind} {header : Header}
    (h : ReadsHeader kind header w) (hw : Absent x w) {body : List Stmt}
    (hbody : Stmt.AllAvoid x body) : (header.withBody body).Avoids x := by
  rw [Header.withBody, FunctionDecl.Avoids]
  cases h with
  | getter | empty => exact ⟨ne_of_absent hw, by rintro _ ⟨⟩, hbody⟩
  | params list room =>
    have hlist := (absent_append.1 (absent_cons.1 (absent_cons.1 hw).2).2).1
    exact ⟨ne_of_absent hw, list.avoids hlist, hbody⟩

theorem ReadsMemberHeader.avoids {header : Header}
    (h : ReadsMemberHeader header w) (hw : Absent x w) {body : List Stmt}
    (hbody : Stmt.AllAvoid x body) : (header.withBody body).Avoids x := by
  cases h with
  | method h => exact h.avoids hw hbody
  | static h => exact h.avoids (absent_cons.1 hw).2 hbody

theorem ReadsClassHead.avoids {head : ClassHead}
    (h : ReadsClassHead n head w n') (hw : Absent x w)
    {list : List FunctionDecl} (hlist : FunctionDecl.AllAvoid x list) :
    ClassDecl.Avoids x ⟨head.name, head.superclass, list⟩ := by
  rw [ClassDecl.Avoids]
  cases h with
  | base => exact ⟨ne_of_absent hw, nofun, hlist⟩
  | derived =>
    have hparent := ne_of_absent (absent_cons.1 (absent_cons.1 hw).2).2
    exact ⟨ne_of_absent hw, fun _ hmem => by cases hmem; exact hparent, hlist⟩

/-- The word is the name of nothing in the phrase. -/
def Phrase.Avoids (x : String) : Phrase → Prop
  | .declarations list => Stmt.AllAvoid x list
  | .declaration _ s => s.Avoids x
  | .statement _ s => s.Avoids x
  | .members list => FunctionDecl.AllAvoid x list

theorem Reads.avoids {phrase : Phrase} (h : Reads n phrase w n')
    (hw : Absent x w) : phrase.Avoids x := by
  induction h with
  | nil => simp only [Phrase.Avoids, Stmt.AllAvoid]
  | noMember => simp only [Phrase.Avoids, FunctionDecl.AllAvoid]
  | snoc earlier last ihearlier ihlast =>
    obtain ⟨hearlier, hlast⟩ := absent_append.1 hw
    refine Stmt.allAvoid_append.2 ⟨ihearlier hearlier, ?_⟩
    simp only [Stmt.AllAvoid]
    exact ⟨ihlast hlast, trivial⟩
  | statement inner ih => exact ih hw
  | var h => exact h.avoids (absent_cons.1 hw).2
  | function head body ih =>
    obtain ⟨hhead, hrest⟩ := absent_append.1 (absent_cons.1 hw).2
    simp only [Phrase.Avoids, Stmt.Avoids]
    exact head.avoids hhead (ih (absent_append.1 hrest).1)
  | «class» h members ih =>
    obtain ⟨hhead, hrest⟩ := absent_append.1 (absent_cons.1 hw).2
    simp only [Phrase.Avoids, Stmt.Avoids]
    exact h.avoids hhead (ih (absent_append.1 hrest).1)
  | member earlier head inner ihearlier ihinner =>
    obtain ⟨hearlier, hrest⟩ := absent_append.1 hw
    obtain ⟨hhead, hrest⟩ := absent_append.1 hrest
    refine FunctionDecl.allAvoid_append.2 ⟨ihearlier hearlier, ?_⟩
    simp only [FunctionDecl.AllAvoid]
    exact ⟨head.avoids hhead (ihinner (absent_append.1 hrest).1), trivial⟩
  | expression h => exact h.avoids hw fun e he => by rwa [Stmt.Avoids]
  | print h =>
    exact h.avoids (absent_cons.1 hw).2 fun e he => by rwa [Stmt.Avoids]
  | «return» h =>
    obtain ⟨h⟩ := h
    simp only [Phrase.Avoids, Stmt.Avoids]
    exact h.avoids (absent_append.1 (absent_cons.1 hw).2).1
  | block body ih =>
    simp only [Phrase.Avoids, Stmt.Avoids]
    exact ih (absent_append.1 (absent_cons.1 hw).2).1
  | ifThen h thenBranch ih | «while» h thenBranch ih =>
    obtain ⟨hcondition, hrest⟩ := absent_append.1 (absent_cons.1 hw).2
    simp only [Phrase.Avoids, Stmt.Avoids]
    exact ⟨h.avoids hcondition, ih hrest⟩
  | ifElse h thenBranch elseBranch ihthen ihelse =>
    obtain ⟨hcondition, hrest⟩ := absent_append.1 (absent_cons.1 hw).2
    obtain ⟨hfirst, hsecond⟩ := absent_append.1 hrest
    simp only [Phrase.Avoids, Stmt.Avoids]
    exact ⟨h.avoids hcondition, ihthen hfirst,
      ihelse (absent_cons.1 hsecond).2⟩
  | «for» h body ih =>
    obtain ⟨hclauses, hrest⟩ := absent_append.1 (absent_cons.1 hw).2
    exact h.avoids hclauses (ih hrest)

end Stmt

end

end Lox
