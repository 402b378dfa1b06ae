import Lox.Stmt.Parser

/-!
# Every diagnostic is paid for by a token

A source of so many tokens gives at most as many diagnostics.  The balance of a
cursor is the number of tokens that are left and of diagnostics that have been
noted.  A reader that goes on has used up a token for each diagnostic it has
noted, and one more (`Cursor.Pays`), which pays if it stops with a fault.  A
reader that stops where it started has nothing to pay with: then recovery skips
a token, or a token that was read before pays.

Two faults come later than the tokens that pay for them.  An assignment to
something that cannot be assigned to is noted behind the value; the `=` pays
(`valuesIn`).  A list of declarations that is not closed is noted at the end of
the source; the token that opened it pays (`Nest.depth`).
-/

namespace Lox

/-- The tokens that are left and the diagnostics that have been noted. -/
def Cursor.balance (c : Cursor) : Nat :=
  c.rest.length + c.noted.length

/-- Either nothing has been read and noted, or the balance has fallen. -/
def Cursor.Pays (c c' : Cursor) : Prop :=
  c'.rest = c.rest ∧ c'.noted = c.noted ∨ c'.balance < c.balance

namespace Cursor

variable {c c' c'' : Cursor}

theorem Pays.refl (c : Cursor) : c.Pays c :=
  .inl ⟨rfl, rfl⟩

theorem Pays.of_balance (h : c'.balance < c.balance) : c.Pays c' :=
  .inr h

theorem Pays.le (h : c.Pays c') : c'.balance ≤ c.balance := by
  rcases h with ⟨hrest, hnoted⟩ | hlt
  · exact Nat.le_of_eq (by rw [balance, balance, hrest, hnoted])
  · exact Nat.le_of_lt hlt

theorem Pays.trans (h : c.Pays c') (h' : c'.Pays c'') : c.Pays c'' := by
  rcases h' with ⟨hrest, hnoted⟩ | hlt
  · rcases h with ⟨hrest', hnoted'⟩ | hlt'
    · exact .inl ⟨hrest.trans hrest', hnoted.trans hnoted'⟩
    · refine .inr ?_
      rwa [balance, hrest, hnoted]
  · exact .inr (Nat.lt_of_lt_of_le hlt h.le)

/-- One token is used up. -/
theorem balance_moveTo {t : Token} {rest : List Token}
    (h : c.rest = t :: rest) : (c.moveTo rest).balance + 1 = c.balance := by
  simp only [balance, moveTo, h, List.length_cons]
  omega

theorem passage_pays : Passage Pays where
  refl := .refl
  trans := .trans
  take hrest := .of_balance (by
    rw [← balance_moveTo hrest]
    exact Nat.lt_succ_self _)
  useId _ := .inl ⟨rfl, rfl⟩

@[simp] theorem balance_note (c : Cursor) (d : Diagnostic) :
    (c.note d).balance = c.balance + 1 := rfl

@[simp] theorem balance_useId (c : Cursor) : c.useId.balance = c.balance := rfl

/-- A condition counts for one where it holds. -/
theorem balance_noteIf (c : Cursor) (condition : Bool) (f : ParseFault) :
    (c.noteIf condition f).balance = c.balance + condition.toNat := by
  cases condition <;> rfl

end Cursor

/-! ## Expressions -/

namespace Expr

/-- How many assignments wait for their values. -/
def valuesIn : List Frame → Nat
  | [] => 0
  | .value _ _ :: stack => valuesIn stack + 1
  | _ :: stack => valuesIn stack

/-- A step that still reads leaves all as it is, or a token is used up for
it; any other step pays for what it notes. -/
def Step.Charged (control : Control) (stack : List Frame) (c : Cursor) :
    Step → Prop
  | .next control' stack' c' =>
    (control'.isRead ∧ c' = c ∧ valuesIn stack' = valuesIn stack) ∨
      c'.balance + valuesIn stack' + control.isRead.toNat ≤
        c.balance + valuesIn stack
  | .done _ c' => c' = c ∧ ¬ control.isRead
  | .stop _ c' => c.Pays c'

theorem charged_readOperand (rank : Rank) (stack : List Frame) (c : Cursor) :
    (readOperand stack c).Charged (.read rank) stack c := by
  unfold readOperand
  repeat' split
  all_goals
    simp [Step.Charged, Step.fail, Control.isRead, Cursor.Pays, Cursor.balance,
      valuesIn, *]
  all_goals omega

/-- An argument too many is noted behind the comma that pays for it. -/
theorem charged_afterArgument (callee : Expr) (arguments earlier : List Expr)
    (stack : List Frame) (c : Cursor) (e : Expr) :
    (afterArgument callee arguments stack c).Charged (.built e)
      (.argument callee earlier :: stack) c := by
  unfold afterArgument
  split
  · next hrest =>
    have hmoved := Cursor.balance_moveTo hrest
    have hnote := Bool.toNat_le (decide (maxArity ≤ arguments.length))
    refine .inr ?_
    simp only [Cursor.balance_noteIf, valuesIn, Control.isRead, Bool.toNat_false]
    omega
  · next hrest =>
    have hmoved := Cursor.balance_moveTo hrest
    refine .inr ?_
    simp only [valuesIn, Control.isRead, Bool.toNat_false]
    omega
  · exact .refl c

theorem charged_resume (e : Expr) (frame : Frame) (stack : List Frame)
    (c : Cursor) :
    (resume e frame stack c).Charged (.built e) (frame :: stack) c := by
  cases frame with
  | argument callee earlier =>
    exact charged_afterArgument callee (e :: earlier) earlier stack c e
  | _ =>
    simp only [resume, afterSuffix, assignTo]
    repeat' split
    all_goals
      simp [Step.Charged, Step.fail, Control.isRead, Cursor.Pays,
        Cursor.balance, valuesIn, *]
    all_goals omega

theorem charged_step (control : Control) (stack : List Frame) (c : Cursor) :
    (step control stack c).Charged control stack c := by
  unfold step
  split
  · exact .inl ⟨rfl, rfl, rfl⟩
  · exact .inl ⟨rfl, rfl, rfl⟩
  · exact charged_readOperand _ _ c
  · exact charged_resume _ _ _ c
  · exact ⟨rfl, Bool.false_ne_true⟩

/-- What is read on from a place is paid for, up to the assignments that wait.
A token is used up besides if an expression is still to be read, unless nothing
is done at all. -/
theorem charged_readFrom (control : Control) (stack : List Frame) (c : Cursor) :
    (Reader.reached (readFrom control stack c)).balance ≤
        c.balance + valuesIn stack ∧
      (control.isRead →
        (Reader.reached (readFrom control stack c)).rest = c.rest ∧
          (Reader.reached (readFrom control stack c)).noted = c.noted ∨
        (Reader.reached (readFrom control stack c)).balance <
          c.balance + valuesIn stack) := by
  fun_induction readFrom control stack c with
  | case1 control stack c control' stack' c' hstep ih =>
    have hcharged := charged_step control stack c
    rw [hstep] at hcharged
    rcases hcharged with ⟨hread', rfl, hvalues⟩ | hle
    · rw [hvalues] at ih
      exact ⟨ih.1, fun _ => ih.2 hread'⟩
    · refine ⟨by omega, fun hread => .inr ?_⟩
      rw [hread, Bool.toNat_true] at hle
      omega
  | case2 control stack c e c' hstep =>
    have hcharged := charged_step control stack c
    rw [hstep] at hcharged
    obtain ⟨rfl, hread⟩ := hcharged
    exact ⟨Nat.le_add_right _ _, fun h => absurd h hread⟩
  | case3 control stack c d c' hstep =>
    have hcharged : c.Pays c' := by
      have h := charged_step control stack c
      rwa [hstep] at h
    refine ⟨Nat.le_trans hcharged.le (Nat.le_add_right _ _), fun _ => ?_⟩
    exact hcharged.imp_right fun hlt => Nat.lt_of_lt_of_le hlt (Nat.le_add_right _ _)

theorem pays_read : Reader.Along Cursor.Pays read :=
  fun c => (charged_readFrom (.read .assignment) [] c).2 rfl

end Expr

/-! ## Parts of statements -/

namespace Stmt

/-- A parameter too many is noted in front of the name that pays for it.  Where
there is no name it is a fault besides, so one note is left to pay for. -/
theorem balance_readParams (earlier : List Ident) (c : Cursor) :
    (Reader.reached (readParams earlier c)).balance ≤
        c.balance + (decide (maxArity ≤ earlier.length)).toNat ∧
      (earlier = [] → c.Pays (Reader.reached (readParams earlier c))) := by
  fun_induction readParams earlier c with
  | case1 earlier c x line _ rest hrest ih =>
    have hnote := Bool.toNat_le
      (decide (maxArity ≤ (⟨x, line⟩ :: earlier : List Ident).length))
    have hmoved : ((c.noteIf (maxArity ≤ earlier.length)
        .tooManyParameters).moveTo rest).balance + 2 =
        c.balance + (decide (maxArity ≤ earlier.length)).toNat := by
      rw [← Cursor.balance_noteIf c _ .tooManyParameters]
      simp only [Cursor.balance, Cursor.moveTo, Cursor.rest_noteIf, hrest,
        List.length_cons]
      omega
    refine ⟨by omega, ?_⟩
    rintro rfl
    have hfew : (decide (maxArity ≤ ([] : List Ident).length)).toNat = 0 := rfl
    exact .of_balance (by omega)
  | case2 earlier c x line rest _ hrest =>
    have hmoved : ((c.noteIf (maxArity ≤ earlier.length)
        .tooManyParameters).moveTo rest).balance + 1 =
        c.balance + (decide (maxArity ≤ earlier.length)).toNat := by
      rw [← Cursor.balance_noteIf c _ .tooManyParameters]
      exact Cursor.balance_moveTo ((Cursor.rest_noteIf ..).trans hrest)
    refine ⟨by simp only [Reader.reached]; omega, ?_⟩
    rintro rfl
    have hfew : (decide (maxArity ≤ ([] : List Ident).length)).toNat = 0 := rfl
    exact .of_balance (by simp only [Reader.reached]; omega)
  | case3 earlier c noted =>
    refine ⟨Nat.le_of_eq (Cursor.balance_noteIf ..), ?_⟩
    rintro rfl
    exact .refl c

theorem passage_pays : Passage Cursor.Pays :=
  ⟨Cursor.passage_pays, Expr.pays_read, fun c => (balance_readParams [] c).2 rfl⟩

/-! ## The machine -/

/-- How many lists of declarations are open inside the program. -/
def Nest.depth : Nest → Nat
  | program _ => 0
  | block _ _ outer => outer.depth + 1
  | body _ _ _ outer => outer.depth + 1

/-- The tokens that have been read for the declaration and have not paid for
anything yet: one, if there are any. -/
def Control.credit (frames : List Frame) : Control → Nat
  | items => 0
  | declaration => if frames = [] then 0 else 1
  | statement => if frames = [] then 0 else 1
  | members _ _ => 1
  | built _ => 1

/-- What must not exceed the number of tokens of the source. -/
def charge (control : Control) (frames : List Frame) (nest : Nest)
    (c : Cursor) : Nat :=
  c.balance + nest.depth + control.credit frames

/-- Where nothing has been read for a declaration there is a token to read. -/
def Control.Ready (frames : List Frame) (c : Cursor) : Control → Prop
  | declaration => frames = [] → c.rest ≠ []
  | statement => frames = [] → c.rest ≠ []
  | _ => True

/-- The step stays within the bound, and a declaration starts at a token. -/
def Step.Within (bound : Nat) : Step → Prop
  | .next control frames nest c =>
    control.Ready frames c ∧ charge control frames nest c ≤ bound
  | .done _ c => c.balance ≤ bound

theorem Nest.depth_add (s : Stmt) (nest : Nest) :
    (nest.add s).depth = nest.depth := by
  cases nest <;> rfl

/-- Recovery skips a token if there is one. -/
theorem length_synchronize_le (tokens : List Token) :
    (synchronize tokens).length ≤ tokens.length - 1 := by
  cases tokens with
  | nil => exact Nat.le_refl _
  | cons t rest => exact Nat.le_pred_of_lt (length_synchronize_lt (by simp))

/-- A fault is paid for by a token that was read before, or by one that is
skipped. -/
theorem within_recover {d : Diagnostic} {nest : Nest} {c : Cursor} {bound : Nat}
    (h : c.balance + nest.depth + 1 ≤ bound ∨
      c.rest ≠ [] ∧ c.balance + nest.depth ≤ bound) :
    (recover d nest c).Within bound := by
  refine ⟨trivial, ?_⟩
  simp only [charge, Control.credit, Cursor.balance, Cursor.moveTo, Cursor.note,
    List.length_cons] at h ⊢
  rcases h with h | ⟨hrest, h⟩
  · have := length_synchronize_le c.rest
    omega
  · have := length_synchronize_lt hrest
    omega

theorem within_andThen {α : Type} {p : Reader α} {nest : Nest} {c : Cursor}
    {bound : Nat} {go : α → Cursor → Step} (hp : p.Along Cursor.Pays)
    (h : c.balance + nest.depth + 1 ≤ bound ∨
      c.rest ≠ [] ∧ c.balance + nest.depth ≤ bound)
    (hgo : ∀ a c', p c = .ok a c' → c.Pays c' → (go a c').Within bound) :
    (Step.andThen p nest c go).Within bound := by
  have hpays := hp c
  unfold Step.andThen
  cases hc : p c with
  | ok a c' =>
    rw [hc] at hpays
    exact hgo a c' hc hpays
  | error d c' =>
    rw [hc] at hpays
    refine within_recover ?_
    have hle := hpays.le
    rcases h with h | ⟨hrest, h⟩
    · exact .inl (by simp only [Reader.reached] at hle; omega)
    · rcases hpays with ⟨heq, hnoted⟩ | hlt
      · exact .inr ⟨heq ▸ hrest, Nat.le_trans (Nat.add_le_add_right hle _) h⟩
      · exact .inl (by simp only [Reader.reached] at hlt; omega)

/-- A part whose keyword has been read goes on with one token to spare. -/
theorem within_afterKeyword {α : Type} {p : Reader α} {nest : Nest} {c : Cursor}
    {t : Token} {rest : List Token} {bound : Nat} {go : α → Cursor → Step}
    (hp : p.Along Cursor.Pays) (hrest : c.rest = t :: rest)
    (h : c.balance + nest.depth ≤ bound)
    (hgo : ∀ a c', c'.balance + nest.depth + 1 ≤ bound →
      (go a c').Within bound) :
    (Step.andThen p nest (c.moveTo rest) go).Within bound := by
  have hmoved := Cursor.balance_moveTo hrest
  refine within_andThen hp (.inl (by omega)) fun a c' _ hpays => hgo a c' ?_
  have := hpays.le
  omega

theorem within_readItem (nest : Nest) (c : Cursor) (frames : List Frame) :
    (readItem nest c).Within (charge .items frames nest c) := by
  have hcharge : charge .items frames nest c = c.balance + nest.depth := rfl
  rw [hcharge]
  unfold readItem
  split
  · cases nest with
    | program => exact Nat.le_add_right _ _
    | block | body => exact within_recover (.inl (Nat.le_refl _))
  · next t rest hrest =>
    have hready : Control.declaration.Ready [] c := fun _ => by simp [hrest]
    split
    · have hmoved := Cursor.balance_moveTo hrest
      cases nest with
      | program => exact ⟨hready, Nat.le_refl _⟩
      | block =>
        refine ⟨trivial, ?_⟩
        simp only [charge, Control.credit, Nest.depth]
        omega
      | body owner =>
        cases owner <;>
          refine ⟨trivial, ?_⟩ <;>
          simp only [charge, Control.credit, Nest.depth] <;>
          omega
    · exact ⟨hready, Nat.le_refl _⟩

theorem within_readDeclaration {frames : List Frame} {nest : Nest} {c : Cursor}
    (hready : Control.declaration.Ready frames c) :
    (readDeclaration frames nest c).Within
      (charge .declaration frames nest c) := by
  have hcharge : c.balance + nest.depth ≤ charge .declaration frames nest c :=
    Nat.le_add_right _ _
  unfold readDeclaration
  split
  · next hrest =>
    exact within_afterKeyword passage_pays.readClassHead hrest hcharge
      fun _ _ h => ⟨trivial, h⟩
  · next hrest =>
    exact within_afterKeyword (passage_pays.readHeader _) hrest hcharge
      fun _ _ h => ⟨trivial, h⟩
  · next hrest =>
    exact within_afterKeyword passage_pays.readVar hrest hcharge
      fun _ _ h => ⟨trivial, h⟩
  · exact ⟨hready, Nat.le_refl _⟩

theorem within_readStatement {frames : List Frame} {nest : Nest} {c : Cursor}
    (hready : Control.statement.Ready frames c) :
    (readStatement frames nest c).Within
      (charge .statement frames nest c) := by
  have hcharge : c.balance + nest.depth ≤ charge .statement frames nest c :=
    Nat.le_add_right _ _
  have hinner (frame : Frame) (c' : Cursor)
      (h : c'.balance + nest.depth + 1 ≤ charge .statement frames nest c) :
      (Step.next .statement (frame :: frames) nest c').Within
        (charge .statement frames nest c) := ⟨nofun, h⟩
  unfold readStatement
  split
  · next hrest =>
    exact within_afterKeyword passage_pays.readForClauses hrest hcharge
      fun _ => hinner _
  · next hrest =>
    exact within_afterKeyword (passage_pays.readCondition _ _) hrest hcharge
      fun _ => hinner _
  · next hrest =>
    exact within_afterKeyword (passage_pays.readCondition _ _) hrest hcharge
      fun _ => hinner _
  · next hrest =>
    exact within_afterKeyword (passage_pays.readReturn _) hrest hcharge
      fun _ _ h => ⟨trivial, h⟩
  · next hrest =>
    have hmoved := Cursor.balance_moveTo hrest
    refine ⟨trivial, ?_⟩
    simp only [charge, Control.credit, Nest.depth] at hcharge ⊢
    omega
  · next hrest =>
    exact within_afterKeyword passage_pays.readPrint hrest hcharge
      fun _ _ h => ⟨trivial, h⟩
  · -- Nothing has been read yet unless the statement is part of another one.
    refine within_andThen passage_pays.readExpression ?_ fun s c' hc hpays => ?_
    · by_cases hframes : frames = []
      · exact .inr ⟨hready hframes, hcharge⟩
      · refine .inl ?_
        simp only [charge, Control.credit, if_neg hframes]
        omega
    · have hlt := consumes_readExpression.2 c s c' hc
      refine ⟨trivial, ?_⟩
      rcases hpays with ⟨heq, -⟩ | hpaid
      · rw [heq] at hlt
        exact absurd hlt (Nat.lt_irrefl _)
      · simp only [charge, Control.credit] at hcharge ⊢
        omega

theorem within_readMember (head : ClassHead) (earlier : List FunctionDecl)
    (frames : List Frame) (nest : Nest) (c : Cursor) :
    (readMember head earlier nest c).Within
      (charge (.members head earlier) frames nest c) := by
  have hcharge : charge (.members head earlier) frames nest c =
      c.balance + nest.depth + 1 := rfl
  rw [hcharge]
  unfold readMember
  split
  · exact within_recover (.inl (Nat.le_refl _))
  · next hrest =>
    have hmoved := Cursor.balance_moveTo hrest
    refine ⟨trivial, ?_⟩
    simp only [charge, Control.credit]
    omega
  · next hrest =>
    exact within_afterKeyword (passage_pays.readHeader _) hrest (Nat.le_succ _)
      fun _ _ h => ⟨trivial, h⟩
  · refine within_andThen (passage_pays.readHeader _) (.inl (Nat.le_refl _))
      fun _ c' _ hpays => ⟨trivial, ?_⟩
    have hle := hpays.le
    simp only [charge, Control.credit, Nest.depth]
    omega

theorem within_resume (s : Stmt) (frames : List Frame) (nest : Nest)
    (c : Cursor) :
    (resume s frames nest c).Within (charge (.built s) frames nest c) := by
  have hcharge : charge (.built s) frames nest c =
      c.balance + nest.depth + 1 := rfl
  rw [hcharge]
  unfold resume
  split
  · refine ⟨trivial, ?_⟩
    simp only [charge, Control.credit, Nest.depth_add]
    omega
  · split
    · next hrest =>
      have hmoved := Cursor.balance_moveTo hrest
      refine ⟨nofun, ?_⟩
      simp only [charge, Control.credit, reduceCtorEq, if_false]
      omega
    · exact ⟨trivial, Nat.le_refl _⟩
  · exact ⟨trivial, Nat.le_refl _⟩
  · exact ⟨trivial, Nat.le_refl _⟩
  · exact ⟨trivial, Nat.le_refl _⟩

theorem within_step {control : Control} {frames : List Frame} (nest : Nest)
    {c : Cursor} (hready : control.Ready frames c) :
    (step control frames nest c).Within (charge control frames nest c) := by
  cases control with
  | items => exact within_readItem nest c frames
  | declaration => exact within_readDeclaration hready
  | statement => exact within_readStatement hready
  | members head earlier => exact within_readMember head earlier frames nest c
  | built s => exact within_resume s frames nest c

/-- The charge never rises. -/
theorem balance_readFrom (control : Control) (frames : List Frame) (nest : Nest)
    (c : Cursor) (hready : control.Ready frames c) :
    (readFrom control frames nest c).2.balance ≤
      charge control frames nest c := by
  fun_induction readFrom control frames nest c with
  | case1 control frames nest c control' frames' nest' c' hstep ih =>
    have hwithin := within_step nest hready
    rw [hstep] at hwithin
    exact Nat.le_trans (ih hwithin.1) hwithin.2
  | case2 control frames nest c statements c' hstep =>
    have hwithin := within_step nest hready
    rwa [hstep] at hwithin

/-- There are at most as many diagnostics as tokens. -/
theorem length_diagnostics_le (scan : Token.Scan) (firstId : Nat) :
    (parse scan firstId).diagnostics.length ≤ scan.tokens.length := by
  have hbalance := balance_readFrom .items [] (.program [])
    (.start scan firstId) trivial
  have hstart : charge .items [] (.program []) (.start scan firstId) =
      scan.tokens.length := rfl
  rw [hstart] at hbalance
  have hlength : (parse scan firstId).diagnostics.length =
      (readFrom .items [] (.program []) (.start scan firstId)).2.noted.length :=
    List.length_reverse
  rw [hlength]
  exact Nat.le_trans (Nat.le_add_left _ _) hbalance

end Stmt

end Lox
