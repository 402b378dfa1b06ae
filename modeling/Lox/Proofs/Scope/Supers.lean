import Lox.Proofs.Scope.Rules

/-!
# Where `super` stands

`Stmt.supers` collects the occurrences of `super` in a statement that refer to
the class around it: those of its expressions, its blocks and, if asked for,
the functions nested in it, but not those of a class declared in it.  A static
method has none directly in its body (`supers_of_static`), since the rules look
at the innermost function; what is nested in functions further in they do not
see.  `SuperGuarded` says of a program that there is none there either.

At run time an occurrence of `super` is looked up one frame outside of the
frame of `this`.  `Stmt.seats` pairs each expression with the number of frames
between it and that frame, if the class around it has a superclass, and in
accepted code each occurrence has the distance that goes with it
(`fixedAt_program`).  A strict count leaves static methods out, whose `this`
is no instance; it takes a guarded program.
-/

namespace Lox

open Scope (distance addNames thisScope superScope Stands Evaluates Place Breach)

/-! ## Occurrences of `super` -/

/-- The id of an occurrence of `super`. -/
def Expr.superId? : Expr → Option Nat
  | .super id _ _ => some id
  | _ => none

/-- The ids of the occurrences of `super` in the expression. -/
def Expr.supers (e : Expr) : List Nat :=
  e.parts.filterMap Expr.superId?

theorem Expr.mem_supers {e : Expr} {id : Nat} :
    id ∈ e.supers ↔ ∃ line method, .super id line method ∈ e.parts := by
  rw [Expr.supers, List.mem_filterMap]
  constructor
  · rintro ⟨part, hpart, hid⟩
    cases part with
    | super id' line method =>
      cases hid
      exact ⟨line, method, hpart⟩
    | _ => cases hid
  · rintro ⟨line, method, hpart⟩
    exact ⟨_, hpart, rfl⟩

/-- The same in an optional expression. -/
def Expr.optionSupers : Option Expr → List Nat
  | none => []
  | some e => e.supers

mutual

/-- The ids of the occurrences of `super` in the statement, apart from those
in classes declared in it, and from those in functions declared in it unless
`nested`. -/
def Stmt.supers (nested : Bool) : Stmt → List Nat
  | .expression e => e.supers
  | .print e => e.supers
  | .var _ initializer => Expr.optionSupers initializer
  | .block body => Stmt.supersAll nested body
  | .ifElse condition thenBranch none =>
    condition.supers ++ thenBranch.supers nested
  | .ifElse condition thenBranch (some elseBranch) =>
    condition.supers ++ (thenBranch.supers nested ++ elseBranch.supers nested)
  | .while condition body => condition.supers ++ body.supers nested
  | .function f => f.supers nested
  | .return _ value => Expr.optionSupers value
  | .class _ => []

/-- The same in some statements. -/
def Stmt.supersAll (nested : Bool) : List Stmt → List Nat
  | [] => []
  | s :: rest => s.supers nested ++ Stmt.supersAll nested rest

/-- The same in a function that is declared in a statement. -/
def FunctionDecl.supers (nested : Bool) : FunctionDecl → List Nat
  | ⟨_, _, body, _⟩ => if nested then Stmt.supersAll nested body else []

end

theorem Stmt.supersAll_eq_nil {nested : Bool} {list : List Stmt} :
    Stmt.supersAll nested list = [] ↔ ∀ s ∈ list, s.supers nested = [] := by
  induction list with
  | nil => simp [Stmt.supersAll]
  | cons s rest ih => simp [Stmt.supersAll, ih]

/-- No static method of the program holds a `super` that refers to its class,
in functions nested in it neither. -/
def SuperGuarded (program : List Stmt) : Prop :=
  ∀ p c f, Stands program p (.class c) → f ∈ c.methods → f.kind = .static →
    Stmt.supersAll true f.body = []

/-! ## Places without `super` -/

namespace Scope

variable {program : List Stmt} {nested : Bool}

/-- A kind of place at which no `super` stands. -/
structure SuperFree (program : List Stmt) (nested : Bool) (Q : Place → Prop) :
    Prop where
  evaluates : ∀ {p s e}, Q p → Stands program p s → Evaluates s e →
    e.supers = []
  block : ∀ {p} reached, Q p → Q (p.inBlock reached)
  function : ∀ {p} f reached, nested = true → Q p →
    Q (p.inRoutine (.function f) reached)

theorem SuperFree.option {Q : Place → Prop} (h : SuperFree program nested Q)
    {p : Place} {s : Stmt} (hp : Q p) (hs : Stands program p s)
    {e : Option Expr} (he : ∀ e', e = some e' → Evaluates s e') :
    Expr.optionSupers e = [] := by
  cases e with
  | none => rfl
  | some e => exact h.evaluates hp hs (he e rfl)

theorem SuperFree.supers {Q : Place → Prop} (h : SuperFree program nested Q)
    {s : Stmt} {p : Place} (hp : Q p) (hs : Stands program p s) :
    s.supers nested = [] := by
  induction s generalizing p with
  | expression e =>
    rw [Stmt.supers]
    exact h.evaluates hp hs .expression
  | print e =>
    rw [Stmt.supers]
    exact h.evaluates hp hs .print
  | var x initializer =>
    rw [Stmt.supers]
    exact h.option hp hs (by rintro e rfl; exact .initializer)
  | block body ih =>
    rw [Stmt.supers, Stmt.supersAll_eq_nil]
    intro s hmem
    obtain ⟨before, after, rfl⟩ := List.append_of_mem hmem
    exact ih s hmem (h.block _ hp) hs.block
  | ifElse condition thenBranch elseBranch ihthen ihelse =>
    have hcondition := h.evaluates hp hs .choice
    have hthen := ihthen hp hs.thenBranch
    cases elseBranch with
    | none => rw [Stmt.supers, hcondition, hthen, List.nil_append]
    | some elseBranch =>
      rw [Stmt.supers, hcondition, hthen, ihelse elseBranch rfl hp hs.elseBranch,
        List.nil_append, List.nil_append]
  | loop condition body ih =>
    rw [Stmt.supers, h.evaluates hp hs .loop, ih hp hs.loop, List.nil_append]
  | function f ih =>
    rw [Stmt.supers]
    obtain ⟨name, params, body, kind⟩ := f
    rw [FunctionDecl.supers]
    cases nested with
    | false => rfl
    | true =>
      rw [if_pos rfl, Stmt.supersAll_eq_nil]
      intro s hmem
      obtain ⟨before, after, hbody⟩ := List.append_of_mem hmem
      exact ih s hmem (h.function _ _ rfl hp) (hs.function hbody)
  | giveBack line value =>
    rw [Stmt.supers]
    exact h.option hp hs (by rintro e rfl; exact .result)
  | cls c => rw [Stmt.supers]

/-- The rules keep `super` out of the body of a static method, but for
functions nested in it. -/
theorem supers_of_static (hno : ¬ Breach program) {p : Place} {c : ClassDecl}
    (hc : Stands program p (.class c)) {f : FunctionDecl} (hf : f ∈ c.methods)
    (hstatic : f.kind = .static) : Stmt.supersAll false f.body = [] := by
  have hfree : SuperFree program false fun p => p.owner = some (.member f) := by
    refine ⟨?_, fun _ h => h, by rintro _ _ _ ⟨⟩⟩
    intro p s e howner hs he
    refine List.eq_nil_iff_forall_not_mem.2 fun id hid => ?_
    obtain ⟨line, method, hpart⟩ := Expr.mem_supers.1 hid
    exact hno (.superInStatic hs he hpart howner hstatic)
  rw [Stmt.supersAll_eq_nil]
  intro s hmem
  obtain ⟨before, after, hbody⟩ := List.append_of_mem hmem
  exact hfree.supers rfl (hc.member hf hbody)

/-- The class around the place, if there is one, has no superclass. -/
def Place.Baseless (p : Place) : Prop :=
  ∀ c, p.cls = some c → c.superclass = none

/-- The rules keep `super` out of what is in no class with a superclass. -/
theorem supers_of_baseless (hno : ¬ Breach program) {p : Place}
    (hp : p.Baseless) {s : Stmt} (hs : Stands program p s) :
    s.supers true = [] := by
  have hfree : SuperFree program true Place.Baseless := by
    refine ⟨?_, fun _ h => h, fun _ _ _ h => h⟩
    intro p s e hp hs he
    refine List.eq_nil_iff_forall_not_mem.2 fun id hid => ?_
    obtain ⟨line, method, hpart⟩ := Expr.mem_supers.1 hid
    cases hcls : p.cls with
    | none => exact hno (.superOutside hs he hpart hcls)
    | some c =>
      exact hno (.superWithoutSuperclass hs he hpart hcls (hp c hcls))
  exact hfree.supers hp hs

end Scope

/-! ## Seats -/

/-- An occurrence of `super` has no distance, or that of the frame outside of
the frame of `this`, which is `seat` frames further out. -/
def Ledger.Admits (L : Ledger) (id : Nat) (seat : Option Nat) : Prop :=
  L.Records id none ∨ ∃ k, seat = some k ∧ L.Records id (some (k + 1))

/-- What the first ledger records the second one does too. -/
def Ledger.Keeps (L L' : Ledger) : Prop :=
  ∀ id distance, L.Records id distance → L'.Records id distance

theorem Ledger.Admits.mono {L L' : Ledger} {id : Nat} {seat : Option Nat}
    (h : L.Admits id seat) (hle : L.Keeps L') : L'.Admits id seat := by
  rcases h with hnone | ⟨k, hseat, hrecords⟩
  · exact .inl (hle id _ hnone)
  · exact .inr ⟨k, hseat, hle id _ hrecords⟩

/-- Each `super` in the expression has the distance that goes with the frame
of `this`. -/
def Expr.Seated (L : Ledger) (seat : Option Nat) (e : Expr) : Prop :=
  ∀ id ∈ e.supers, L.Admits id seat

section

variable {L : Ledger} {seat : Option Nat} {left right : Expr} {line : Nat}

@[simp] theorem Expr.seated_group :
    (Expr.group right).Seated L seat ↔ right.Seated L seat := by
  simp [Expr.Seated, Expr.supers, Expr.parts, Expr.superId?]

@[simp] theorem Expr.seated_unary {op : UnaryOp} :
    (Expr.unary op line right).Seated L seat ↔ right.Seated L seat := by
  simp [Expr.Seated, Expr.supers, Expr.parts, Expr.superId?]

@[simp] theorem Expr.seated_binary {op : BinaryOp} :
    (Expr.binary left op line right).Seated L seat ↔
      left.Seated L seat ∧ right.Seated L seat := by
  simp [Expr.Seated, Expr.supers, Expr.parts, Expr.superId?, or_imp, forall_and]

@[simp] theorem Expr.seated_logical {op : LogicalOp} :
    (Expr.logical left op line right).Seated L seat ↔
      left.Seated L seat ∧ right.Seated L seat := by
  simp [Expr.Seated, Expr.supers, Expr.parts, Expr.superId?, or_imp, forall_and]

@[simp] theorem Expr.seated_assign {target : Ref} :
    (Expr.assign target right).Seated L seat ↔ right.Seated L seat := by
  simp [Expr.Seated, Expr.supers, Expr.parts, Expr.superId?]

@[simp] theorem Expr.seated_call {arguments : List Expr} :
    (Expr.call left line arguments).Seated L seat ↔
      left.Seated L seat ∧ ∀ a ∈ arguments, a.Seated L seat := by
  have hall : (Expr.partsAll arguments).filterMap Expr.superId? =
      arguments.flatMap Expr.supers := by
    induction arguments with
    | nil => rfl
    | cons a rest ih =>
      rw [Expr.partsAll, List.filterMap_append, ih, List.flatMap_cons]
      rfl
  simp only [Expr.Seated, Expr.supers, Expr.parts, List.filterMap_cons,
    Expr.superId?, List.filterMap_append, hall, List.mem_append, List.mem_flatMap,
    or_imp, forall_and, forall_exists_index, and_imp]
  exact and_congr_right fun _ => ⟨fun h a ha id hid => h id a ha hid,
    fun h id a ha hid => h a ha id hid⟩

@[simp] theorem Expr.seated_get {name : Ident} :
    (Expr.get right name).Seated L seat ↔ right.Seated L seat := by
  simp [Expr.Seated, Expr.supers, Expr.parts, Expr.superId?]

@[simp] theorem Expr.seated_set {name : Ident} :
    (Expr.set left name right).Seated L seat ↔
      left.Seated L seat ∧ right.Seated L seat := by
  simp [Expr.Seated, Expr.supers, Expr.parts, Expr.superId?, or_imp, forall_and]

@[simp] theorem Expr.seated_super {id : Nat} {method : Ident} :
    (Expr.super id line method).Seated L seat ↔ L.Admits id seat := by
  simp [Expr.Seated, Expr.supers, Expr.parts, Expr.superId?]

end

/-- The seat of a member of a class.  A strict count gives none to a static
method, which is not called on an instance. -/
def FunctionDecl.seat (strict : Bool) (f : FunctionDecl) (seat : Option Nat) :
    Option Nat :=
  if strict = true ∧ f.kind = .static then none else seat

mutual

/-- The expressions that the statement evaluates itself or in the code it
declares, each with the number of frames that lie inside the frame of `this`,
if the class around it has a superclass. -/
def Stmt.seats (strict : Bool) : Stmt → Option Nat → List (Expr × Option Nat)
  | .expression e, seat => [(e, seat)]
  | .print e, seat => [(e, seat)]
  | .var _ initializer, seat => initializer.toList.map (·, seat)
  | .block body, seat => Stmt.seatsAll strict body (seat.map (· + 1))
  | .ifElse condition thenBranch none, seat =>
    (condition, seat) :: thenBranch.seats strict seat
  | .ifElse condition thenBranch (some elseBranch), seat =>
    (condition, seat) ::
      (thenBranch.seats strict seat ++ elseBranch.seats strict seat)
  | .while condition body, seat => (condition, seat) :: body.seats strict seat
  | .function f, seat => f.seats strict seat
  | .return _ value, seat => value.toList.map (·, seat)
  | .class c, _ => c.seats strict

/-- The same of some statements. -/
def Stmt.seatsAll (strict : Bool) :
    List Stmt → Option Nat → List (Expr × Option Nat)
  | [], _ => []
  | s :: rest, seat => s.seats strict seat ++ Stmt.seatsAll strict rest seat

/-- The same of a function, whose body has a frame of its own. -/
def FunctionDecl.seats (strict : Bool) :
    FunctionDecl → Option Nat → List (Expr × Option Nat)
  | ⟨_, _, body, _⟩, seat => Stmt.seatsAll strict body (seat.map (· + 1))

/-- The same of the members of a class. -/
def FunctionDecl.memberSeats (strict : Bool) :
    List FunctionDecl → Option Nat → List (Expr × Option Nat)
  | [], _ => []
  | f :: rest, seat =>
    f.seats strict (f.seat strict seat) ++
      FunctionDecl.memberSeats strict rest seat

/-- The same of a class. -/
def ClassDecl.seats (strict : Bool) : ClassDecl → List (Expr × Option Nat)
  | ⟨_, none, methods⟩ => FunctionDecl.memberSeats strict methods none
  | ⟨_, some _, methods⟩ => FunctionDecl.memberSeats strict methods (some 0)

end

/-- All that the statements evaluate is seated. -/
def SeatedAt (L : Ledger) (seats : List (Expr × Option Nat)) : Prop :=
  ∀ x ∈ seats, x.1.Seated L x.2

@[simp] theorem seatedAt_nil (L : Ledger) : SeatedAt L [] :=
  nofun

@[simp] theorem seatedAt_cons {L : Ledger} {e : Expr} {seat : Option Nat}
    {seats : List (Expr × Option Nat)} :
    SeatedAt L ((e, seat) :: seats) ↔ e.Seated L seat ∧ SeatedAt L seats :=
  List.forall_mem_cons

@[simp] theorem seatedAt_append {L : Ledger}
    {seats seats' : List (Expr × Option Nat)} :
    SeatedAt L (seats ++ seats') ↔ SeatedAt L seats ∧ SeatedAt L seats' :=
  List.forall_mem_append

theorem SeatedAt.mono {L L' : Ledger} {seats : List (Expr × Option Nat)}
    (h : SeatedAt L seats) (hle : L.Keeps L') : SeatedAt L' seats :=
  fun x hx id hid => (h x hx id hid).mono hle

variable {strict : Bool}

theorem seatedAt_seatsAll {L : Ledger} {list : List Stmt} {seat : Option Nat} :
    SeatedAt L (Stmt.seatsAll strict list seat) ↔
      ∀ s ∈ list, SeatedAt L (s.seats strict seat) := by
  induction list with
  | nil => simp [Stmt.seatsAll]
  | cons s rest ih => simp [Stmt.seatsAll, ih]

theorem FunctionDecl.seats_eq (f : FunctionDecl) (seat : Option Nat) :
    f.seats strict seat = Stmt.seatsAll strict f.body (seat.map (· + 1)) := by
  obtain ⟨name, params, body, kind⟩ := f
  rw [FunctionDecl.seats]

/-! ## Seats of accepted code -/

theorem Expr.Scoped.of_part {L : Ledger} {opening : Option String}
    {scopes : List (Table Bool)} {e part : Expr} (h : e.Scoped L opening scopes)
    (hpart : part ∈ e.parts) : part.Scoped L opening scopes := by
  have hall (list : List Expr) (hlist : Expr.AllScoped L opening scopes list) :
      ∀ a ∈ list, a.Scoped L opening scopes := by
    induction list with
    | nil => nofun
    | cons a list ih =>
      rw [Expr.AllScoped] at hlist
      exact List.forall_mem_cons.2 ⟨hlist.1, ih hlist.2⟩
  induction e with
  | literal | occurrence | this | super =>
    simp only [Expr.parts, List.mem_singleton] at hpart
    exact hpart ▸ h
  | group inner ih | unary op line inner ih | get inner name ih =>
    rw [Expr.parts, List.mem_cons] at hpart
    rcases hpart with rfl | hpart
    · exact h
    · rw [Expr.Scoped] at h
      exact ih h hpart
  | assign target inner ih =>
    rw [Expr.parts, List.mem_cons] at hpart
    rcases hpart with rfl | hpart
    · exact h
    · rw [Expr.Scoped] at h
      exact ih h.1 hpart
  | binary left op line right ihleft ihright
  | logical left op line right ihleft ihright
  | set left name right ihleft ihright =>
    rw [Expr.parts, List.mem_cons, List.mem_append] at hpart
    rcases hpart with rfl | hpart | hpart
    · exact h
    · rw [Expr.Scoped] at h
      exact ihleft h.1 hpart
    · rw [Expr.Scoped] at h
      exact ihright h.2 hpart
  | call callee line arguments ihcallee iharguments =>
    rw [Expr.parts, List.mem_cons, List.mem_append] at hpart
    rcases hpart with rfl | hpart | hpart
    · exact h
    · rw [Expr.Scoped] at h
      exact ihcallee h.1 hpart
    · rw [Expr.Scoped] at h
      obtain ⟨a, ha, hpart⟩ := Expr.mem_partsAll.1 hpart
      exact iharguments a ha (hall arguments h.2 a ha) hpart

/-- The scopes hold `this` at the distance of the seat; without a seat there
is no `super`. -/
structure Suits (scopes : List (Table Bool)) (seat : Option Nat)
    (supers : List Nat) : Prop where
  this : ∀ k, seat = some k → distance scopes Keyword.kwThis.lexeme = some k
  none : seat = none → supers = []

theorem suits_none (scopes : List (Table Bool)) : Suits scopes none [] where
  this k hk := by cases hk
  none _ := rfl

theorem Suits.mono {scopes : List (Table Bool)} {seat : Option Nat}
    {supers supers' : List Nat} (h : Suits scopes seat supers)
    (hsub : supers = [] → supers' = []) : Suits scopes seat supers' :=
  ⟨h.this, fun hseat => hsub (h.none hseat)⟩

/-- Each `super` in the expressions has a seat and the distance that goes with
it. -/
def FixedAt (L : Ledger) (seats : List (Expr × Option Nat)) : Prop :=
  ∀ x ∈ seats, ∀ id ∈ x.1.supers,
    ∃ k, x.2 = some k ∧ L.Records id (some (k + 1))

theorem FixedAt.seatedAt {L : Ledger} {seats : List (Expr × Option Nat)}
    (h : FixedAt L seats) : SeatedAt L seats :=
  fun x hx id hid => .inr (h x hx id hid)

theorem fixedAt_nil (L : Ledger) : FixedAt L [] :=
  nofun

theorem fixedAt_cons {L : Ledger} {x : Expr × Option Nat}
    {seats : List (Expr × Option Nat)} :
    FixedAt L (x :: seats) ↔ FixedAt L [x] ∧ FixedAt L seats := by
  simp [FixedAt]

theorem fixedAt_append {L : Ledger} {seats seats' : List (Expr × Option Nat)} :
    FixedAt L (seats ++ seats') ↔ FixedAt L seats ∧ FixedAt L seats' :=
  List.forall_mem_append

theorem fixedAt_memberSeats {L : Ledger} {list : List FunctionDecl}
    {seat : Option Nat} :
    FixedAt L (FunctionDecl.memberSeats strict list seat) ↔
      ∀ f ∈ list, FixedAt L (f.seats strict (f.seat strict seat)) := by
  induction list with
  | nil => simp [FunctionDecl.memberSeats, fixedAt_nil]
  | cons f rest ih =>
    rw [FunctionDecl.memberSeats, fixedAt_append, ih, List.forall_mem_cons]

theorem Expr.fixed_of_scoped {L : Ledger} {opening : Option String}
    {scopes : List (Table Bool)} {e : Expr} (h : e.Scoped L opening scopes)
    {seat : Option Nat} (hsuits : Suits scopes seat e.supers) :
    FixedAt L [(e, seat)] := by
  refine List.forall_mem_singleton.2 fun id hid => ?_
  cases seat with
  | none =>
    rw [hsuits.none rfl] at hid
    cases hid
  | some k =>
    obtain ⟨line, method, hpart⟩ := Expr.mem_supers.1 hid
    have hsuper := h.of_part hpart
    rw [Expr.Scoped] at hsuper
    obtain ⟨hrecords, hplace⟩ := hsuper
    have hthis := hsuits.this k rfl
    rcases hplace with ⟨d, hdistance, hd⟩ | ⟨hscopes, -⟩
    · rw [hthis] at hd
      cases hd
      rw [hdistance] at hrecords
      exact ⟨k, rfl, hrecords⟩
    · rw [hscopes] at hthis
      cases hthis

/-- An expression outside of all scopes has no distance for a `super`. -/
theorem Expr.seated_of_unbound {L : Ledger} {opening : Option String} {e : Expr}
    (h : e.Scoped L opening []) : e.Seated L none := by
  intro id hid
  obtain ⟨line, method, hpart⟩ := Expr.mem_supers.1 hid
  have hsuper := h.of_part hpart
  rw [Expr.Scoped] at hsuper
  exact .inl hsuper.1

theorem Expr.fixedAt_option {L : Ledger} {opening : Option String}
    {scopes : List (Table Bool)} {e : Option Expr}
    (h : Expr.OptionScoped L opening scopes e) {seat : Option Nat}
    (hsuits : Suits scopes seat (Expr.optionSupers e)) :
    FixedAt L (e.toList.map (·, seat)) := by
  cases e with
  | none => exact fixedAt_nil L
  | some e =>
    exact fixedAt_cons.2 ⟨Expr.fixed_of_scoped h hsuits, fixedAt_nil L⟩

theorem Suits.addNames {scopes : List (Table Bool)} {seat : Option Nat}
    {supers : List Nat} (h : Suits scopes seat supers) {names : List String}
    (hnames : ∀ name ∈ names, Unreserved name) :
    Suits (addNames names scopes) seat supers := by
  refine ⟨fun k hk => ?_, h.none⟩
  rw [Scope.distance_addNames fun hmem => (hnames _ hmem).1 rfl]
  exact h.this k hk

/-- A frame further in. -/
theorem Suits.inner {scopes : List (Table Bool)} {seat : Option Nat}
    {supers : List Nat} (h : Suits scopes seat supers) :
    Suits (.empty :: scopes) (seat.map (· + 1)) supers := by
  refine ⟨fun k hk => ?_, fun hnone => h.none (Option.map_eq_none_iff.1 hnone)⟩
  obtain ⟨d, hd, rfl⟩ := Option.map_eq_some_iff.1 hk
  rw [Scope.distance_cons, h.this d hd]
  rfl

theorem FunctionDecl.supers_true (f : FunctionDecl) :
    f.supers true = Stmt.supersAll true f.body := by
  obtain ⟨name, params, body, kind⟩ := f
  rw [FunctionDecl.supers, if_pos rfl]

section

variable {L : Ledger}

theorem Stmt.fixedAt_list {list : List Stmt} {seat : Option Nat}
    (ih : ∀ s ∈ list, ∀ scopes, s.Scoped L scopes →
      Suits scopes seat (s.supers true) → FixedAt L (s.seats strict seat))
    (hform : Stmt.AllWellFormed list) {scopes : List (Table Bool)}
    (h : Stmt.AllScoped L list scopes)
    (hsuits : Suits scopes seat (Stmt.supersAll true list)) :
    FixedAt L (Stmt.seatsAll strict list seat) := by
  induction list generalizing scopes with
  | nil =>
    rw [Stmt.seatsAll]
    exact fixedAt_nil L
  | cons s rest ihrest =>
    obtain ⟨hs, hrest⟩ := List.forall_mem_cons.1 ih
    rw [Stmt.AllWellFormed] at hform
    rw [Stmt.AllScoped] at h
    rw [Stmt.supersAll] at hsuits
    rw [Stmt.seatsAll, fixedAt_append]
    refine ⟨hs scopes h.1 (hsuits.mono fun hnil => ?_),
      ihrest hrest hform.2 h.2 ?_⟩
    · exact (List.append_eq_nil_iff.1 hnil).1
    · exact (hsuits.mono fun hnil => (List.append_eq_nil_iff.1 hnil).2).addNames
        (Scope.unreserved_declared hform.1)

theorem FunctionDecl.AllScoped.of_mem {list : List FunctionDecl}
    {scopes : List (Table Bool)} (h : FunctionDecl.AllScoped L list scopes)
    {f : FunctionDecl} (hf : f ∈ list) : f.Scoped L scopes := by
  induction list with
  | nil => cases hf
  | cons first rest ih =>
    rw [FunctionDecl.AllScoped] at h
    rcases List.mem_cons.1 hf with rfl | hf
    · exact h.1
    · exact ih h.2 hf

theorem FunctionDecl.fixedAt_routine {f : FunctionDecl} {seat : Option Nat}
    (ih : ∀ s ∈ f.body, ∀ scopes, s.Scoped L scopes →
      Suits scopes (seat.map (· + 1)) (s.supers true) →
      FixedAt L (s.seats strict (seat.map (· + 1))))
    (hform : f.WellFormed) {scopes : List (Table Bool)} (h : f.Scoped L scopes)
    (hsuits : Suits scopes seat (Stmt.supersAll true f.body)) :
    FixedAt L (f.seats strict seat) := by
  rw [FunctionDecl.seats_eq]
  obtain ⟨hparams, hbody⟩ := FunctionDecl.scoped_iff.1 h
  obtain ⟨name, params, body, kind⟩ := f
  rw [FunctionDecl.WellFormed] at hform
  refine Stmt.fixedAt_list ih hform.2 hbody (hsuits.inner.addNames ?_)
  intro x hx
  obtain ⟨param, hparam, rfl⟩ := List.mem_map.1 hx
  exact hparams param hparam

end

namespace Scope

variable {program : List Stmt} {L : Ledger}

/-- The statement is fixed wherever it stands and whatever suits it there. -/
def FixedWell (strict : Bool) (program : List Stmt) (L : Ledger) (s : Stmt) :
    Prop :=
  ∀ p scopes seat, Stands program p s → s.Scoped L scopes →
    Suits scopes seat (s.supers true) → FixedAt L (s.seats strict seat)

/-- A member of a class is fixed if its seat suits it. -/
theorem fixedAt_member {p : Place} {c : ClassDecl} {f : FunctionDecl}
    (ih : ∀ s ∈ f.body, FixedWell strict program L s)
    (hc : Stands program p (.class c)) (hf : f ∈ c.methods)
    (hform : f.WellFormed) {scopes : List (Table Bool)}
    (hscoped : f.Scoped L scopes) {seat : Option Nat}
    (hsuits : Suits scopes seat (Stmt.supersAll true f.body)) :
    FixedAt L (f.seats strict seat) := by
  refine FunctionDecl.fixedAt_routine ?_ hform hscoped hsuits
  intro s hs scopes' hscoped' hsuits'
  obtain ⟨before, after, hbody⟩ := List.append_of_mem hs
  exact ih s hs _ _ _ (hc.member hf hbody) hscoped' hsuits'

/-- The members of a class: those of a class without superclass and the
static ones hold no `super`, the others find the instance in the frame they
are bound in. -/
theorem fixedAt_class (hno : ¬ Breach program) 
    (hguarded : strict = true → SuperGuarded program)
    {c : ClassDecl}
    (ih : ∀ f ∈ c.methods, ∀ s ∈ f.body, FixedWell strict program L s)
    {p : Place} (hc : Stands program p (.class c)) (hform : c.WellFormed)
    {scopes : List (Table Bool)} (h : c.Scoped L scopes) :
    FixedAt L (c.seats strict) := by
  obtain ⟨name, superclass, methods⟩ := c
  rw [ClassDecl.WellFormed] at hform
  cases superclass with
  | none =>
    rw [ClassDecl.Scoped] at h
    rw [ClassDecl.seats, fixedAt_memberSeats]
    intro f hf
    have hfree : Stmt.supersAll true f.body = [] := by
      rw [Stmt.supersAll_eq_nil]
      intro s hs
      obtain ⟨before, after, hbody⟩ := List.append_of_mem hs
      refine supers_of_baseless hno ?_ (hc.member hf hbody)
      rintro c' ⟨⟩
      rfl
    have hseat : f.seat strict none = none := ite_self none
    rw [hseat]
    refine fixedAt_member (ih f hf) hc hf (hform.2.of_mem hf) (h.2.of_mem hf) ?_
    rw [hfree]
    exact suits_none _
  | some parent =>
    rw [ClassDecl.Scoped] at h
    rw [ClassDecl.seats, fixedAt_memberSeats]
    intro f hf
    refine fixedAt_member (ih f hf) hc hf (hform.2.of_mem hf) (h.2.2.of_mem hf) ?_
    by_cases hstatic : strict = true ∧ f.kind = .static
    · rw [FunctionDecl.seat, if_pos hstatic]
      rw [hguarded hstatic.1 p _ f hc hf hstatic.2]
      exact suits_none _
    · rw [FunctionDecl.seat, if_neg hstatic]
      constructor
      · intro k hk
        cases hk
        rw [distance_cons]
        rfl
      · intro hnone
        cases hnone

/-- In accepted code without `super` in static methods every `super` has the
distance that goes with its seat. -/
theorem fixedWell (hno : ¬ Breach program) 
    (hguarded : strict = true → SuperGuarded program)
    (hform : Stmt.AllWellFormed program) (s : Stmt) :
    FixedWell strict program L s := by
  induction s with
  | expression e | print e =>
    intro p scopes seat _ h hsuits
    rw [Stmt.Scoped] at h
    rw [Stmt.supers] at hsuits
    rw [Stmt.seats, fixedAt_cons]
    exact ⟨Expr.fixed_of_scoped h hsuits, fixedAt_nil L⟩
  | var x initializer =>
    intro p scopes seat _ h hsuits
    rw [Stmt.Scoped] at h
    rw [Stmt.supers] at hsuits
    rw [Stmt.seats]
    exact Expr.fixedAt_option h.2.2 hsuits
  | block body ih =>
    intro p scopes seat hs h hsuits
    have hbody := hs.wellFormed hform
    rw [Stmt.WellFormed] at hbody
    rw [Stmt.Scoped] at h
    rw [Stmt.supers] at hsuits
    rw [Stmt.seats]
    refine Stmt.fixedAt_list ?_ hbody h hsuits.inner
    intro s hmem scopes' hscoped' hsuits'
    obtain ⟨before, after, rfl⟩ := List.append_of_mem hmem
    exact ih s hmem _ _ _ hs.block hscoped' hsuits'
  | ifElse condition thenBranch elseBranch ihthen ihelse =>
    intro p scopes seat hs h hsuits
    cases elseBranch with
    | none =>
      rw [Stmt.Scoped] at h
      rw [Stmt.supers] at hsuits
      rw [Stmt.seats, fixedAt_cons]
      refine ⟨Expr.fixed_of_scoped h.1 (hsuits.mono ?_),
        ihthen _ _ _ hs.thenBranch h.2.2 (hsuits.mono ?_)⟩
      · exact fun hnil => (List.append_eq_nil_iff.1 hnil).1
      · exact fun hnil => (List.append_eq_nil_iff.1 hnil).2
    | some elseBranch =>
      rw [Stmt.Scoped] at h
      rw [Stmt.supers] at hsuits
      rw [Stmt.seats, fixedAt_cons, fixedAt_append]
      refine ⟨Expr.fixed_of_scoped h.1 (hsuits.mono ?_),
        ihthen _ _ _ hs.thenBranch h.2.1.2 (hsuits.mono ?_),
        ihelse elseBranch rfl _ _ _ hs.elseBranch h.2.2.2 (hsuits.mono ?_)⟩
      all_goals
        intro hnil
        simp only [List.append_eq_nil_iff] at hnil
        simp only [hnil]
  | loop condition body ih =>
    intro p scopes seat hs h hsuits
    rw [Stmt.Scoped] at h
    rw [Stmt.supers] at hsuits
    rw [Stmt.seats, fixedAt_cons]
    refine ⟨Expr.fixed_of_scoped h.1 (hsuits.mono ?_),
      ih _ _ _ hs.loop h.2.2 (hsuits.mono ?_)⟩
    · exact fun hnil => (List.append_eq_nil_iff.1 hnil).1
    · exact fun hnil => (List.append_eq_nil_iff.1 hnil).2
  | function f ih =>
    intro p scopes seat hs h hsuits
    have hwell := hs.wellFormed hform
    rw [Stmt.WellFormed] at hwell
    rw [Stmt.Scoped] at h
    rw [Stmt.supers, FunctionDecl.supers_true] at hsuits
    rw [Stmt.seats]
    refine FunctionDecl.fixedAt_routine ?_ hwell.2.2 h.2.2 (hsuits.addNames ?_)
    · intro s hmem scopes' hscoped' hsuits'
      obtain ⟨before, after, hbody⟩ := List.append_of_mem hmem
      exact ih s hmem _ _ _ (hs.function hbody) hscoped' hsuits'
    · simp only [List.mem_singleton, forall_eq]
      exact hwell.1
  | giveBack line value =>
    intro p scopes seat _ h hsuits
    rw [Stmt.Scoped] at h
    rw [Stmt.supers] at hsuits
    rw [Stmt.seats]
    exact Expr.fixedAt_option h hsuits
  | cls c ih =>
    intro p scopes seat hs h _
    have hwell := hs.wellFormed hform
    rw [Stmt.WellFormed] at hwell
    rw [Stmt.Scoped] at h
    rw [Stmt.seats]
    exact fixedAt_class hno hguarded ih hs hwell h

/-- In an accepted program each `super` has the distance of its seat. -/
theorem fixedAt_program (hno : ¬ Breach program) 
    (hguarded : strict = true → SuperGuarded program)
    (hform : Stmt.AllWellFormed program) (h : Stmt.AllScoped L program []) :
    FixedAt L (Stmt.seatsAll strict program none) := by
  have hfree : Stmt.supersAll true program = [] := by
    rw [Stmt.supersAll_eq_nil]
    intro s hs
    obtain ⟨before, after, hprogram⟩ := List.append_of_mem hs
    exact supers_of_baseless hno (by rintro c ⟨⟩) (.top hprogram)
  refine Stmt.fixedAt_list ?_ hform h (hfree ▸ suits_none _)
  intro s hs scopes hscoped hsuits
  obtain ⟨before, after, hprogram⟩ := List.append_of_mem hs
  exact fixedWell hno hguarded hform s _ _ _ (.top hprogram) hscoped hsuits

/-- A program is seated at the top level. -/
theorem seatedAt_program (hno : ¬ Breach program) 
    (hguarded : strict = true → SuperGuarded program)
    (hform : Stmt.AllWellFormed program) (h : Stmt.AllScoped L program []) :
    SeatedAt L (Stmt.seatsAll strict program none) :=
  (fixedAt_program hno hguarded hform h).seatedAt

end Scope

end Lox
