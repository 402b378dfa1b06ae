import Lox.Stmt.Parser

/-!
# Ids are never given back

A reader may use ids up, whether or not it succeeds, but never gives one
back.  So the first free id after a source is at least that before it, also
for a source that is rejected (`Stmt.le_nextId_parse`,
`Expr.le_nextId_parse`).
-/

namespace Lox

@[simp] theorem Cursor.nextId_noteIf (c : Cursor) (condition : Bool)
    (f : ParseFault) : (c.noteIf condition f).nextId = c.nextId := by
  unfold noteIf
  split <;> rfl

/-- The second cursor has given no id back. -/
def Cursor.Raises (c c' : Cursor) : Prop :=
  c.nextId ≤ c'.nextId

theorem Cursor.passage_raises : Passage Raises where
  refl _ := Nat.le_refl _
  trans h h' := Nat.le_trans h h'
  take _ := Nat.le_refl _
  useId c := Nat.le_succ c.nextId

/-! ## Expressions -/

namespace Expr

/-- The step gives no id back. -/
def Step.Raises (c : Cursor) : Step → Prop
  | .next _ _ c' => c.nextId ≤ c'.nextId
  | .done _ c' => c.nextId ≤ c'.nextId
  | .stop _ c' => c.nextId ≤ c'.nextId

theorem raises_step (control : Control) (stack : List Frame) (c : Cursor) :
    (step control stack c).Raises c := by
  unfold step
  split
  · exact Nat.le_refl _
  · exact Nat.le_refl _
  · unfold readOperand
    repeat' split
    all_goals simp [Step.Raises, Step.fail]
  · next frame stack =>
    cases frame <;> simp only [resume, afterSuffix, afterArgument, assignTo]
    all_goals repeat' split
    all_goals simp [Step.Raises, Step.fail, Cursor.note]
  · exact Nat.le_refl _

theorem raises_readFrom (control : Control) (stack : List Frame) (c : Cursor) :
    c.nextId ≤ (Reader.reached (readFrom control stack c)).nextId := by
  fun_induction readFrom control stack c with
  | case1 control stack c control' stack' c' hstep ih =>
    have h := raises_step control stack c
    rw [hstep] at h
    exact Nat.le_trans h ih
  | case2 control stack c e c' hstep | case3 control stack c d c' hstep =>
    have h := raises_step control stack c
    rw [hstep] at h
    exact h

theorem raises_read : Reader.Along Cursor.Raises read :=
  fun c => raises_readFrom _ _ c

theorem le_nextId_parse (scan : Token.Scan) (firstId : Nat) :
    firstId ≤ (parse scan firstId).nextId := by
  have h := raises_read (.start scan firstId)
  unfold parse
  split
  · next hread => rw [hread] at h; exact h
  · next hread =>
    rw [hread] at h
    simp only [Cursor.nextId_noteIf]
    exact h

end Expr

/-! ## Statements -/

namespace Stmt

theorem raises_readParams (earlier : List Ident) :
    Reader.Along Cursor.Raises (readParams earlier) := by
  intro c
  fun_induction readParams earlier c with
  | case1 earlier c x line _ rest hrest ih =>
    simp only [Cursor.Raises, Cursor.nextId_moveTo, Cursor.nextId_noteIf] at ih
    exact ih
  | case2 earlier c x line rest _ hrest => simp [Cursor.Raises, Reader.reached]
  | case3 earlier c noted => simp [Cursor.Raises, Reader.reached, noted]

theorem passage_raises : Passage Cursor.Raises :=
  ⟨Cursor.passage_raises, Expr.raises_read, raises_readParams []⟩

/-- The step gives no id back. -/
def Step.Raises (c : Cursor) : Step → Prop
  | .next _ _ _ c' => c.nextId ≤ c'.nextId
  | .done _ c' => c.nextId ≤ c'.nextId

theorem raises_andThen {α : Type} {p : Reader α} (hp : p.Along Cursor.Raises)
    (nest : Nest)
    (c : Cursor) {go : α → Cursor → Step}
    (hgo : ∀ a c', (go a c').Raises c') :
    (Step.andThen p nest c go).Raises c := by
  have h := hp c
  unfold Step.andThen
  cases hc : p c with
  | ok a c' =>
    rw [hc] at h
    have hstep := hgo a c'
    simp only
    generalize go a c' = next at hstep
    cases next <;> exact Nat.le_trans h hstep
  | error d c' => rw [hc] at h; exact h

theorem raises_step (control : Control) (frames : List Frame) (nest : Nest)
    (c : Cursor) : (step control frames nest c).Raises c := by
  cases control with
  | items =>
    simp only [step, readItem, endList, closeList]
    repeat' split
    all_goals exact Nat.le_refl _
  | declaration =>
    simp only [step, readDeclaration]
    split
    · next rest _ =>
      exact raises_andThen passage_raises.readClassHead nest (c.moveTo rest) fun _ _ =>
        Nat.le_refl _
    · next rest _ =>
      exact raises_andThen (passage_raises.readHeader _) nest (c.moveTo rest) fun _ _ =>
        Nat.le_refl _
    · next rest _ =>
      exact raises_andThen passage_raises.readVar nest (c.moveTo rest) fun _ _ =>
        Nat.le_refl _
    · exact Nat.le_refl _
  | statement =>
    simp only [step, readStatement]
    split
    · next rest _ =>
      exact raises_andThen passage_raises.readForClauses nest (c.moveTo rest)
        fun _ _ => Nat.le_refl _
    · next rest _ =>
      exact raises_andThen (passage_raises.readCondition _ _) nest (c.moveTo rest)
        fun _ _ => Nat.le_refl _
    · next rest _ =>
      exact raises_andThen (passage_raises.readCondition _ _) nest (c.moveTo rest)
        fun _ _ => Nat.le_refl _
    · next rest _ =>
      exact raises_andThen (passage_raises.readReturn _) nest (c.moveTo rest)
        fun _ _ => Nat.le_refl _
    · exact Nat.le_refl _
    · next rest _ =>
      exact raises_andThen passage_raises.readPrint nest (c.moveTo rest) fun _ _ =>
        Nat.le_refl _
    · exact raises_andThen passage_raises.readExpression nest c fun _ _ =>
        Nat.le_refl _
  | members head earlier =>
    simp only [step, readMember]
    split
    · exact Nat.le_refl _
    · exact Nat.le_refl _
    · next rest _ =>
      exact raises_andThen (passage_raises.readHeader _) nest (c.moveTo rest) fun _ _ =>
        Nat.le_refl _
    · exact raises_andThen (passage_raises.readHeader _) nest c fun _ _ =>
        Nat.le_refl _
  | built s =>
    simp only [step, resume]
    repeat' split
    all_goals exact Nat.le_refl _

theorem raises_readFrom (control : Control) (frames : List Frame) (nest : Nest)
    (c : Cursor) : c.nextId ≤ (readFrom control frames nest c).2.nextId := by
  fun_induction readFrom control frames nest c with
  | case1 control frames nest c control' frames' nest' c' hstep ih =>
    have h := raises_step control frames nest c
    rw [hstep] at h
    exact Nat.le_trans h ih
  | case2 control frames nest c statements c' hstep =>
    have h := raises_step control frames nest c
    rw [hstep] at h
    exact h

theorem le_nextId_parse (scan : Token.Scan) (firstId : Nat) :
    firstId ≤ (parse scan firstId).nextId :=
  raises_readFrom .items [] (.program []) (.start scan firstId)

end Stmt

end Lox
