import Lox.Proofs.Stmt.Charges

/-!
# Reading declarations makes progress

The loops over the declarations of a program, a block or a body use up no token
themselves: they start to read one declaration after the other.  What is done
for one of them is a call, from the step that starts it to the step that is back
at the list it belongs to (`InCall`).  In between, lists of declarations are
opened and closed inside that list, each with calls of its own.

Every call that starts at a token returns, with a declaration or without, and
then there are fewer tokens left (`returns_of_declaration`).
-/

namespace Lox.Stmt

/-! ## Steps use tokens up -/

/-- The step leaves at most so many tokens. -/
def Step.Leaves (n : Nat) : Step → Prop
  | .next _ _ _ c => c.rest.length ≤ n
  | .done _ c => c.rest.length ≤ n

/-- Recovery skips a token if there is one. -/
theorem leaves_recover {d : Diagnostic} {nest : Nest} {c : Cursor} {n : Nat}
    (h : c.rest.length - 1 ≤ n) : (recover d nest c).Leaves n :=
  Nat.le_trans (length_synchronize_le c.rest) h

theorem leaves_andThen {α : Type} {p : Reader α} {nest : Nest} {c : Cursor}
    {n : Nat} {go : α → Cursor → Step} (hp : p.Along Cursor.Shrinks)
    (h : c.rest.length - 1 ≤ n)
    (hgo : ∀ a c', p c = .ok a c' → c'.rest.length ≤ c.rest.length →
      (go a c').Leaves n) :
    (Step.andThen p nest c go).Leaves n := by
  have hshrinks := hp c
  unfold Step.andThen
  cases hc : p c with
  | ok a c' =>
    rw [hc] at hshrinks
    exact hgo a c' hc hshrinks
  | error d c' =>
    rw [hc] at hshrinks
    exact leaves_recover (Nat.le_trans (Nat.sub_le_sub_right hshrinks 1) h)

/-- A part whose keyword has been read leaves one token less. -/
theorem leaves_afterKeyword {α : Type} {p : Reader α} {nest : Nest} {c : Cursor}
    {t : Token} {rest : List Token} {go : α → Cursor → Step} (hp : p.Along Cursor.Shrinks)
    (hrest : c.rest = t :: rest)
    (hgo : ∀ a c', c'.rest.length ≤ c.rest.length - 1 →
      (go a c').Leaves (c.rest.length - 1)) :
    (Step.andThen p nest (c.moveTo rest) go).Leaves (c.rest.length - 1) := by
  have hlength : rest.length = c.rest.length - 1 := by rw [hrest]; rfl
  refine leaves_andThen hp ?_ fun a c' _ h => hgo a c' (hlength ▸ h)
  rw [Cursor.rest_moveTo, hlength]
  exact Nat.sub_le _ _

theorem leaves_readItem (nest : Nest) (c : Cursor) :
    (readItem nest c).Leaves c.rest.length := by
  unfold readItem
  split
  · cases nest with
    | program => exact Nat.le_refl _
    | block | body => exact leaves_recover (Nat.sub_le _ _)
  · next t rest hrest =>
    have htail : rest.length ≤ c.rest.length := by simp [hrest]
    split
    · cases nest with
      | program => exact Nat.le_refl _
      | block => exact htail
      | body owner => cases owner <;> exact htail
    · exact Nat.le_refl _

/-- A declaration without a keyword of its own is a statement. -/
theorem leaves_readDeclaration (frames : List Frame) (nest : Nest) (c : Cursor) :
    readDeclaration frames nest c = .next .statement frames nest c ∨
      (readDeclaration frames nest c).Leaves (c.rest.length - 1) := by
  unfold readDeclaration
  split
  · next hrest =>
    exact .inr (leaves_afterKeyword passage_shrinks.readClassHead hrest fun _ _ h => h)
  · next hrest =>
    exact .inr (leaves_afterKeyword (passage_shrinks.readHeader _) hrest
      fun _ _ h => h)
  · next hrest =>
    exact .inr (leaves_afterKeyword passage_shrinks.readVar hrest fun _ _ h => h)
  · exact .inl rfl

theorem leaves_readStatement (frames : List Frame) (nest : Nest) (c : Cursor) :
    (readStatement frames nest c).Leaves (c.rest.length - 1) := by
  unfold readStatement
  split
  · next hrest =>
    exact leaves_afterKeyword passage_shrinks.readForClauses hrest fun _ _ h => h
  · next hrest =>
    exact leaves_afterKeyword (passage_shrinks.readCondition _ _) hrest fun _ _ h => h
  · next hrest =>
    exact leaves_afterKeyword (passage_shrinks.readCondition _ _) hrest fun _ _ h => h
  · next hrest =>
    exact leaves_afterKeyword (passage_shrinks.readReturn _) hrest fun _ _ h => h
  · next hrest =>
    refine Nat.le_of_eq ?_
    rw [hrest]
    rfl
  · next hrest =>
    exact leaves_afterKeyword passage_shrinks.readPrint hrest fun _ _ h => h
  · exact leaves_andThen passage_shrinks.readExpression (Nat.le_refl _)
      fun s c' hc _ => Nat.le_pred_of_lt (consumes_readExpression.2 c s c' hc)

theorem leaves_readMember (head : ClassHead) (earlier : List FunctionDecl)
    (nest : Nest) (c : Cursor) :
    (readMember head earlier nest c).Leaves c.rest.length := by
  unfold readMember
  split
  · exact leaves_recover (Nat.sub_le _ _)
  · next hrest =>
    rw [hrest]
    exact Nat.le_succ _
  · next hrest =>
    refine leaves_andThen (passage_shrinks.readHeader _) ?_ fun _ _ _ h => ?_
    · rw [Cursor.rest_moveTo, hrest, List.length_cons]
      omega
    · rw [hrest]
      exact Nat.le_succ_of_le h
  · exact leaves_andThen (passage_shrinks.readHeader _) (Nat.sub_le _ _)
      fun _ _ _ h => h

theorem leaves_resume (s : Stmt) (frames : List Frame) (nest : Nest)
    (c : Cursor) : (resume s frames nest c).Leaves c.rest.length := by
  unfold resume
  split
  · exact Nat.le_refl _
  · split
    · next hrest =>
      rw [hrest]
      exact Nat.le_succ _
    · exact Nat.le_refl _
  · exact Nat.le_refl _
  · exact Nat.le_refl _
  · exact Nat.le_refl _

theorem Step.Leaves.mono {s : Step} {n n' : Nat} (h : s.Leaves n)
    (hle : n ≤ n') : s.Leaves n' := by
  cases s <;> exact Nat.le_trans h hle

/-- No step gives a token back. -/
theorem leaves_step (control : Control) (frames : List Frame) (nest : Nest)
    (c : Cursor) : (step control frames nest c).Leaves c.rest.length := by
  cases control with
  | items => exact leaves_readItem nest c
  | declaration =>
    rcases leaves_readDeclaration frames nest c with hstatement | hless
    · rw [step, hstatement]
      exact Nat.le_refl _
    · exact hless.mono (Nat.sub_le _ _)
  | statement => exact (leaves_readStatement frames nest c).mono (Nat.sub_le _ _)
  | members head earlier => exact leaves_readMember head earlier nest c
  | built s => exact leaves_resume s frames nest c

/-! ## Calls -/

/-- The list has been opened inside another one. -/
def Nest.Inside : (nest outer : Nest) → Prop
  | program _, _ => False
  | block _ _ nest, outer => nest = outer ∨ nest.Inside outer
  | body _ _ _ nest, outer => nest = outer ∨ nest.Inside outer

/-- The list with what came of reading a declaration. -/
def Nest.take (nest : Nest) : Option Stmt → Nest
  | some s => nest.add s
  | none => nest

/-- A declaration of the list is being read. -/
def InCall (nest : Nest) : Step → Prop
  | .next control _ nest' _ =>
    nest'.Inside nest ∨ nest' = nest ∧ control ≠ .items
  | .done _ _ => False

/-- The list is gone on with. -/
def Back (nest : Nest) (s : Step) : Prop :=
  ∃ result c, s = .next .items [] (nest.take result) c

section

variable {nest outer : Nest} {c : Cursor}

theorem Nest.Inside.trans {inner : Nest} (h : inner.Inside nest)
    (h' : nest.Inside outer) : inner.Inside outer := by
  induction inner with
  | program => exact h.elim
  | block _ _ next ih | body _ _ _ next ih =>
    rcases h with rfl | h
    · exact .inr h'
    · exact .inr (ih h)

/-- A list inside gets a declaration and is still inside. -/
theorem Nest.Inside.take (h : nest.Inside outer) (result : Option Stmt) :
    (nest.take result).Inside outer := by
  cases result with
  | none => exact h
  | some s =>
    cases nest with
    | program => exact h.elim
    | block | body => exact h

/-- A call of a list inside is part of the call of the outer list. -/
theorem inCall_of_inside {s : Step} (h : nest.Inside outer)
    (hs : InCall nest s ∨ Back nest s) : InCall outer s := by
  rcases hs with hs | ⟨result, c, rfl⟩
  · cases s with
    | done => exact hs.elim
    | next control frames nest' c =>
      rcases hs with hinside | ⟨rfl, -⟩
      · exact .inl (hinside.trans h)
      · exact .inl h
  · exact .inl (h.take result)

theorem back_recover (d : Diagnostic) (nest : Nest) (c : Cursor) :
    Back nest (recover d nest c) :=
  ⟨none, _, rfl⟩

theorem inCall_andThen {α : Type} {p : Reader α} {go : α → Cursor → Step}
    (hgo : ∀ a c', InCall nest (go a c') ∨ Back nest (go a c')) :
    InCall nest (Step.andThen p nest c go) ∨
      Back nest (Step.andThen p nest c go) := by
  unfold Step.andThen
  split
  · exact hgo _ _
  · exact .inr (back_recover _ _ _)

/-- What is not a list goes on, or opens a list inside the innermost one, or
is at its end. -/
theorem inCall_step {control : Control} (hcontrol : control ≠ .items)
    (frames : List Frame) (nest : Nest) (c : Cursor) :
    InCall nest (step control frames nest c) ∨
      Back nest (step control frames nest c) := by
  have hgoes {control : Control} (hcontrol : control ≠ .items)
      (frames : List Frame) (c : Cursor) :
      InCall nest (.next control frames nest c) ∨
        Back nest (.next control frames nest c) := .inl (.inr ⟨rfl, hcontrol⟩)
  have hopens {inner : Nest} (hinner : inner.Inside nest) (c : Cursor) :
      InCall nest (.next .items [] inner c) ∨
        Back nest (.next .items [] inner c) := .inl (.inl hinner)
  cases control with
  | items => exact absurd rfl hcontrol
  | declaration =>
    simp only [step, readDeclaration]
    split
    · exact inCall_andThen fun _ _ => hgoes (by simp) _ _
    · exact inCall_andThen fun _ _ => hopens (by exact Or.inl rfl) _
    · exact inCall_andThen fun _ _ => hgoes (by simp) _ _
    · exact hgoes (by simp) _ _
  | statement =>
    simp only [step, readStatement]
    split
    · exact inCall_andThen fun _ _ => hgoes (by simp) _ _
    · exact inCall_andThen fun _ _ => hgoes (by simp) _ _
    · exact inCall_andThen fun _ _ => hgoes (by simp) _ _
    · exact inCall_andThen fun _ _ => hgoes (by simp) _ _
    · exact hopens (by exact Or.inl rfl) _
    · exact inCall_andThen fun _ _ => hgoes (by simp) _ _
    · exact inCall_andThen fun _ _ => hgoes (by simp) _ _
  | members =>
    simp only [step, readMember]
    split
    · exact .inr (back_recover _ _ _)
    · exact hgoes (by simp) _ _
    · exact inCall_andThen fun _ _ => hopens (by exact Or.inl rfl) _
    · exact inCall_andThen fun _ _ => hopens (by exact Or.inl rfl) _
  | built s =>
    simp only [step, resume]
    split
    · exact .inr ⟨some s, c, rfl⟩
    · split <;> exact hgoes (by simp) _ _
    · exact hgoes (by simp) _ _
    · exact hgoes (by simp) _ _
    · exact hgoes (by simp) _ _

/-- A list reads a declaration, or it is closed and the list around it goes
on. -/
theorem inCall_readItem (h : nest.Inside outer) (c : Cursor) :
    InCall outer (readItem nest c) ∨ Back outer (readItem nest c) := by
  have hcloses {next : Nest} (hnext : next = outer ∨ next.Inside outer)
      {s : Step} (hs : InCall next s ∨ Back next s) :
      InCall outer s ∨ Back outer s := by
    rcases hnext with rfl | hinside
    · exact hs
    · exact .inl (inCall_of_inside hinside hs)
  unfold readItem
  split
  · cases nest with
    | program => exact h.elim
    | block | body => exact hcloses h (.inr (back_recover _ _ _))
  · split
    · cases nest with
      | program => exact h.elim
      | block => exact hcloses h (.inl (.inr ⟨rfl, by simp⟩))
      | body owner =>
        cases owner <;> exact hcloses h (.inl (.inr ⟨rfl, by simp⟩))
    · exact .inl (.inl h)

/-- One step of a call is part of the call, or ends it. -/
theorem inCall_or_back {control : Control} {frames : List Frame}
    (h : InCall outer (.next control frames nest c)) :
    InCall outer (step control frames nest c) ∨
      Back outer (step control frames nest c) := by
  by_cases hcontrol : control = .items
  · subst hcontrol
    rcases h with hinside | ⟨-, hne⟩
    · exact inCall_readItem hinside c
    · exact absurd rfl hne
  · have hstep := inCall_step hcontrol frames nest c
    rcases h with hinside | ⟨rfl, -⟩
    · exact .inl (inCall_of_inside hinside hstep)
    · exact hstep

end

/-! ## Runs -/

/-- The machine after up to so many steps. -/
def Step.after : (steps : Nat) → Step → Step
  | 0, s => s
  | steps + 1, .next control frames nest c =>
    Step.after steps (step control frames nest c)
  | _ + 1, .done statements c => .done statements c

/-- From here the call comes back to its list, with at most so many tokens
left. -/
def Returns (nest : Nest) (n : Nat) (s : Step) : Prop :=
  ∃ steps result c, s.after steps = .next .items [] (nest.take result) c ∧
    c.rest.length ≤ n ∧ ∀ earlier < steps, InCall nest (s.after earlier)

section

variable {outer nest : Nest} {control : Control} {frames : List Frame}
  {c : Cursor} {n n' : Nat}

theorem Returns.mono {s : Step} (h : Returns outer n s) (hle : n ≤ n') :
    Returns outer n' s := by
  obtain ⟨steps, result, c, hafter, hlength, hearlier⟩ := h
  exact ⟨steps, result, c, hafter, Nat.le_trans hlength hle, hearlier⟩

theorem Returns.of_step (h : InCall outer (.next control frames nest c))
    (hstep : Returns outer n (step control frames nest c)) :
    Returns outer n (.next control frames nest c) := by
  obtain ⟨steps, result, c', hafter, hlength, hearlier⟩ := hstep
  refine ⟨steps + 1, result, c', hafter, hlength, fun earlier hlt => ?_⟩
  cases earlier with
  | zero => exact h
  | succ earlier => exact hearlier earlier (Nat.lt_of_succ_lt_succ hlt)

/-- Every call returns, and gives no token back. -/
theorem returns_of_inCall (h : InCall outer (.next control frames nest c)) :
    Returns outer c.rest.length (.next control frames nest c) := by
  -- The potential falls with every step.
  induction hp : potential control frames nest c using Nat.strongRecOn
    generalizing control frames nest c with
  | ind p ih =>
    refine .of_step h ?_
    have hleaves := leaves_step control frames nest c
    rcases inCall_or_back h with hcall | ⟨result, c', hback⟩
    · cases hstep : step control frames nest c with
      | done =>
        rw [hstep] at hcall
        exact hcall.elim
      | next control' frames' nest' c' =>
        rw [hstep] at hcall hleaves
        have hlt := potential_lt_of_step hstep
        exact (ih _ (hp ▸ hlt) hcall rfl).mono hleaves
    · rw [hback] at hleaves ⊢
      exact ⟨0, result, c', rfl, hleaves, fun _ hlt => absurd hlt (Nat.not_lt_zero _)⟩

/-- A call returns with what its next step leaves. -/
theorem returns_of_leaves (h : InCall outer (.next control frames nest c))
    (hleaves : (step control frames nest c).Leaves n) :
    Returns outer n (.next control frames nest c) := by
  refine .of_step h ?_
  rcases inCall_or_back h with hcall | ⟨result, c', hback⟩
  · cases hstep : step control frames nest c with
    | done =>
      rw [hstep] at hcall
      exact hcall.elim
    | next control' frames' nest' c' =>
      rw [hstep] at hcall hleaves
      exact (returns_of_inCall hcall).mono hleaves
  · rw [hback] at hleaves ⊢
    exact ⟨0, result, c', rfl, hleaves, fun _ hlt => absurd hlt (Nat.not_lt_zero _)⟩

end

/-- A call that starts at a token returns with fewer tokens left. -/
theorem returns_of_declaration (nest : Nest) (c : Cursor) :
    Returns nest (c.rest.length - 1) (.next .declaration [] nest c) := by
  have hcall : InCall nest (.next .declaration [] nest c) := .inr ⟨rfl, nofun⟩
  rcases leaves_readDeclaration [] nest c with hstatement | hless
  · have hinner : InCall nest (.next .statement [] nest c) := .inr ⟨rfl, nofun⟩
    have hreturns := returns_of_leaves hinner (leaves_readStatement [] nest c)
    refine .of_step hcall ?_
    rwa [step, hstatement]
  · exact returns_of_leaves hcall hless

/-- Reading ends after no more steps than the potential allows. -/
theorem exists_after_eq_done (control : Control) (frames : List Frame)
    (nest : Nest) (c : Cursor) :
    ∃ steps ≤ potential control frames nest c + 1,
      (Step.next control frames nest c).after steps =
        .done (readFrom control frames nest c).1
          (readFrom control frames nest c).2 := by
  fun_induction readFrom control frames nest c with
  | case1 control frames nest c control' frames' nest' c' hstep ih =>
    obtain ⟨steps, hle, hdone⟩ := ih
    have hlt := potential_lt_of_step hstep
    refine ⟨steps + 1, by omega, ?_⟩
    rw [Step.after, hstep]
    exact hdone
  | case2 control frames nest c statements c' hstep =>
    exact ⟨1, Nat.le_add_left _ _, hstep⟩

end Lox.Stmt
