import Lox.Proofs.Ids
import Lox.Proofs.Stmt.NextId

/-!
# Every id is handed out once

The trees that are read from any tokens, well formed or not, have fresh ids:
they lie between the first id and the next free one, and no two occurrences
share one (`Stmt.fresh_parse`, `Expr.fresh_parse`).

Parts that were read before a fault are thrown away, the target of an
assignment gets a new id, and a `for` loop moves its increment behind its
body.  So the ids of a tree are only some of those handed out, and not in
their order.  `Fresh` is therefore used here by counting: a step of a machine
may drop ids and move them around, and adds one only with the cursor
(`Fresh.of_count_le`).

There are three groups.

* Readers.  `Reader.Hands` says that a reader adds only ids that it takes from
  the cursor; it is closed under `bind`.
* Expressions.  `Expr.heldIds` are the ids that the machine holds, and
  `Expr.hands_step` shows that a step keeps them fresh.
* Statements, in the same way.  A fault drops ids, which is why the ids that
  are at hand before a reader are not lost with it (`Stmt.hands_andThen`).
-/

namespace Lox

/-! ## Fresh ids by counting -/

namespace Fresh

variable {n m n' : Nat} {ids ids' : List Nat}

/-- Of fresh ids some may be dropped and the others may be moved. -/
theorem of_count_le (h : Fresh n ids n')
    (hcount : ∀ id, ids'.count id ≤ ids.count id) : Fresh n ids' n' where
  le := h.le
  range := by
    intro id hid
    have hpos := List.count_pos_iff.2 hid
    have hle := hcount id
    exact h.range id (List.count_pos_iff.1 (by omega))
  nodup := by
    rw [List.nodup_iff_count]
    intro id
    have hone := List.nodup_iff_count.1 h.nodup id
    have hle := hcount id
    omega

theorem upTo (h : Fresh n ids m) (hle : m ≤ n') : Fresh n ids n' where
  le := Nat.le_trans h.le hle
  range := by
    intro id hid
    have := h.range id hid
    omega
  nodup := h.nodup

end Fresh

theorem count_flatMap_reverse {α : Type} (f : α → List Nat) (list : List α)
    (id : Nat) :
    (list.reverse.flatMap f).count id = (list.flatMap f).count id :=
  ((List.reverse_perm list).flatMap_right f).count_eq id

theorem Expr.idsAll_eq_flatMap (list : List Expr) :
    Expr.idsAll list = list.flatMap Expr.ids := by
  induction list with
  | nil => rfl
  | cons e rest ih => rw [Expr.idsAll, ih, List.flatMap_cons]

theorem Stmt.idsAll_eq_flatMap (list : List Stmt) :
    Stmt.idsAll list = list.flatMap Stmt.ids := by
  induction list with
  | nil => rfl
  | cons s rest ih => rw [Stmt.idsAll, ih, List.flatMap_cons]

theorem FunctionDecl.idsAll_eq_flatMap (list : List FunctionDecl) :
    FunctionDecl.idsAll list = list.flatMap FunctionDecl.ids := by
  induction list with
  | nil => rfl
  | cons f rest ih => rw [FunctionDecl.idsAll, ih, List.flatMap_cons]

theorem count_idsAll_reverse (list : List Stmt) (id : Nat) :
    (Stmt.idsAll list.reverse).count id = (Stmt.idsAll list).count id := by
  simp only [Stmt.idsAll_eq_flatMap, count_flatMap_reverse]

/-! ## Readers -/

namespace Reader

variable {α β : Type}

/-- If the ids `before` are fresh where the reader starts, then the ids
`after` of its result are fresh where it ends. -/
def Hands (p : Reader α) (before : List Nat) (after : α → List Nat) : Prop :=
  ∀ (n : Nat) (c c' : Cursor) (a : α), Fresh n before c.nextId →
    p c = .ok a c' → Fresh n (after a) c'.nextId

variable {before : List Nat}

theorem Hands.pure {a : α} {after : α → List Nat} (h : after a = before) :
    Hands (Pure.pure a) before after := by
  intro n c c' b hfresh hrun
  cases hrun
  rw [h]
  exact hfresh

theorem Hands.bind {p : Reader α} {q : α → Reader β} {Q : α → List Nat}
    {after : β → List Nat} (hp : p.Hands before Q)
    (hq : ∀ a, (q a).Hands (Q a) after) : Hands (p >>= q) before after := by
  intro n c c' b hfresh hrun
  change EStateM.bind p q c = .ok b c' at hrun
  unfold EStateM.bind at hrun
  cases hc : p c with
  | ok a c₁ =>
    rw [hc] at hrun
    exact hq a n c₁ c' b (hp n c c₁ a hfresh hc) hrun
  | error d c₁ => rw [hc] at hrun; cases hrun

/-- The reader hands out no id. -/
abbrev HandsNone (p : Reader α) : Prop :=
  ∀ before, p.Hands before fun _ => before

theorem handsNone_accept (s : Symbol) : (accept s).HandsNone := by
  intro before n c c' b hfresh hrun
  unfold accept at hrun
  repeat' split at hrun
  all_goals cases hrun; exact hfresh

theorem handsNone_ahead (s : Symbol) : (ahead s).HandsNone := by
  intro before n c c' b hfresh hrun
  unfold ahead at hrun
  split at hrun <;> cases hrun <;> exact hfresh

theorem handsNone_expect (s : Symbol) (f : ParseFault) :
    (expect s f).HandsNone := by
  intro before n c c' b hfresh hrun
  unfold expect at hrun
  repeat' split at hrun
  all_goals cases hrun
  exact hfresh

theorem handsNone_acceptKeyword (k : Keyword) : (acceptKeyword k).HandsNone := by
  intro before n c c' b hfresh hrun
  unfold acceptKeyword at hrun
  repeat' split at hrun
  all_goals cases hrun; exact hfresh

theorem handsNone_name (f : ParseFault) : (name f).HandsNone := by
  intro before n c c' b hfresh hrun
  unfold name at hrun
  split at hrun <;> cases hrun
  exact hfresh

theorem hands_freshId (before : List Nat) :
    freshId.Hands before fun id => before ++ [id] := by
  intro n c c' id hfresh hrun
  cases hrun
  exact hfresh.append (.single _)

end Reader

/-! ## Expressions -/

namespace Expr

/-- The ids of what a frame keeps. -/
def Frame.ids : Frame → List Nat
  | .value target _ => target.ids
  | .right _ operand _ _ => operand.ids
  | .argument callee earlier => callee.ids ++ Expr.idsAll earlier
  | _ => []

/-- The ids of what has just been built. -/
def Control.ids : Control → List Nat
  | .read _ => []
  | .built e => e.ids

/-- All ids that the machine holds. -/
def heldIds (control : Control) (stack : List Frame) : List Nat :=
  control.ids ++ stack.flatMap Frame.ids

/-- The step leaves the ids that it holds fresh from `n` on. -/
def Step.Hands (n : Nat) : Step → Prop
  | .next control stack c => Fresh n (heldIds control stack) c.nextId
  | .done e c => Fresh n e.ids c.nextId
  | .stop _ _ => True

variable {n : Nat} {stack : List Frame} {c : Cursor}

theorem hands_readOperand {rank : Rank}
    (h : Fresh n (heldIds (.read rank) stack) c.nextId) :
    (readOperand stack c).Hands n := by
  have hplain : ∀ (v : Literal) rest, (Step.next (.built (.literal v))
      (.suffix :: stack) (c.moveTo rest)).Hands n := by
    intro v rest
    simpa [Step.Hands, heldIds, Control.ids, Frame.ids, Expr.ids] using h
  have hused : ∀ (e : Expr) rest, e.ids = [c.nextId] → (Step.next (.built e)
      (.suffix :: stack) (c.moveTo rest).useId).Hands n := by
    intro e rest hids
    refine (h.append (.single c.nextId)).of_count_le fun id => ?_
    simp only [heldIds, Control.ids, Frame.ids, hids, List.flatMap_cons,
      List.count_append, List.count_nil]
    omega
  unfold readOperand
  split
  · trivial
  · split
    · exact h
    · split
      · exact hplain _ _
      · exact hplain _ _
      · exact hplain _ _
      · exact hplain _ _
      · exact hplain _ _
      · exact hused _ _ (by rw [Expr.ids])
      · exact hused _ _ (by rw [Expr.ids])
      · split
        · exact hused _ _ (by rw [Expr.ids])
        · trivial
        · trivial
      · exact h
      · trivial

theorem hands_afterSuffix {e : Expr}
    (h : Fresh n (heldIds (.built e) (.suffix :: stack)) c.nextId) :
    (afterSuffix e stack c).Hands n := by
  unfold afterSuffix
  split
  · simpa [Step.Hands, heldIds, Control.ids, Expr.ids, Expr.idsAll] using h
  · simpa [Step.Hands, heldIds, Control.ids, Frame.ids, Expr.idsAll] using h
  · simpa [Step.Hands, heldIds, Control.ids, Expr.ids] using h
  · trivial
  · exact h

theorem hands_afterArgument {e callee : Expr} {earlier : List Expr}
    (h : Fresh n (heldIds (.built e) (.argument callee earlier :: stack))
      c.nextId) :
    (afterArgument callee (e :: earlier) stack c).Hands n := by
  unfold afterArgument
  split
  · simp only [Step.Hands, Cursor.nextId_noteIf, Cursor.nextId_moveTo]
    refine h.of_count_le fun id => ?_
    simp only [heldIds, Control.ids, Frame.ids, Expr.idsAll, List.flatMap_cons,
      List.count_append, List.count_nil]
    omega
  · refine h.of_count_le fun id => ?_
    have hreverse := count_flatMap_reverse Expr.ids (e :: earlier) id
    simp only [List.flatMap_cons, List.count_append] at hreverse
    simp only [heldIds, Control.ids, Frame.ids, Expr.ids,
      Expr.idsAll_eq_flatMap, List.flatMap_cons, List.count_append,
      List.count_nil, hreverse]
    omega
  · trivial

theorem hands_assignTo {e target : Expr} {line : Nat}
    (h : Fresh n (heldIds (.built e) (.value target line :: stack)) c.nextId) :
    (assignTo target e line stack c).Hands n := by
  unfold assignTo
  split
  · -- the target gives up its id and takes a new one
    have hused := h.append (.single c.nextId)
    refine hused.of_count_le fun id => ?_
    simp only [heldIds, Control.ids, Frame.ids, Expr.ids, List.flatMap_cons,
      List.count_append]
    omega
  · refine h.of_count_le fun id => ?_
    simp only [heldIds, Control.ids, Frame.ids, Expr.ids, List.flatMap_cons,
      List.count_append]
    omega
  · refine h.of_count_le fun id => ?_
    simp only [heldIds, Control.ids, Frame.ids, List.flatMap_cons,
      List.count_append]
    omega

theorem hands_resume {e : Expr} {frame : Frame}
    (h : Fresh n (heldIds (.built e) (frame :: stack)) c.nextId) :
    (resume e frame stack c).Hands n := by
  -- an expression that no construct takes up goes on as it is
  have hpass : Fresh n (heldIds (.built e) stack) c.nextId := by
    refine h.of_count_le fun id => ?_
    simp only [heldIds, List.flatMap_cons, List.count_append]
    omega
  cases frame with
  | assignment =>
    simp only [resume]
    split
    · exact h
    · exact hpass
  | value target line => exact hands_assignTo h
  | left l =>
    simp only [resume]
    repeat' split
    · exact hpass
    · exact h
    · exact hpass
  | right l operand op line =>
    refine h.of_count_le fun id => ?_
    simp only [heldIds, Control.ids, Expr.ids_apply, Frame.ids,
      List.flatMap_cons, List.count_append, List.count_nil]
    omega
  | unary op line =>
    refine h.of_count_le fun id => ?_
    simp [heldIds, Control.ids, Frame.ids, Expr.ids]
  | suffix => exact hands_afterSuffix h
  | argument callee earlier => exact hands_afterArgument h
  | group =>
    simp only [resume]
    split
    · refine h.of_count_le fun id => ?_
      simp [heldIds, Control.ids, Frame.ids, Expr.ids]
    · trivial

theorem hands_step {control : Control}
    (h : Fresh n (heldIds control stack) c.nextId) :
    (step control stack c).Hands n := by
  unfold step
  split
  · exact h
  · exact h
  · exact hands_readOperand h
  · exact hands_resume h
  · simpa [heldIds, Control.ids, Step.Hands] using h

theorem fresh_readFrom {control : Control} {e : Expr} {c' : Cursor}
    (h : Fresh n (heldIds control stack) c.nextId)
    (hrun : readFrom control stack c = .ok e c') : Fresh n e.ids c'.nextId := by
  fun_induction readFrom control stack c with
  | case1 control stack c control' stack' c'' hstep ih =>
    have hhands := hands_step h
    rw [hstep] at hhands
    exact ih hhands hrun
  | case2 control stack c e' c'' hstep =>
    have hhands := hands_step h
    rw [hstep] at hhands
    cases hrun
    exact hhands
  | case3 => cases hrun

/-- An expression that is read has fresh ids. -/
theorem hands_read (before : List Nat) :
    Reader.Hands read before fun e => before ++ e.ids := by
  intro n c c' e hfresh hrun
  have hstart : Fresh c.nextId (heldIds (.read .assignment) []) c.nextId :=
    .nil c.nextId
  exact hfresh.append (fresh_readFrom hstart hrun)

/-- The expression that is read from tokens, if there is one, has fresh ids. -/
theorem fresh_parse {scan : Token.Scan} {firstId : Nat} {e : Expr}
    (h : (parse scan firstId).result = .ok e) :
    Fresh firstId e.ids (parse scan firstId).nextId := by
  unfold parse at h ⊢
  cases hread : read (.start scan firstId) with
  | error d c => rw [hread] at h; cases h
  | ok e' c =>
    have hfresh := hands_read [] firstId _ c e' (.nil firstId) hread
    simp only [hread, Cursor.nextId_noteIf] at h ⊢
    split at h
    · cases h
      exact hfresh
    · cases h

end Expr

/-! ## The parts of a statement -/

namespace Stmt

open Reader (handsNone_accept handsNone_ahead handsNone_expect
  handsNone_acceptKeyword handsNone_name hands_freshId)

theorem hands_readUnless (s : Symbol) (before : List Nat) :
    (readUnless s).Hands before fun v => before ++ Expr.idsOption v := by
  refine (handsNone_ahead s before).bind fun b => ?_
  split
  · exact .pure (by simp [Expr.idsOption])
  · exact (Expr.hands_read before).bind fun e => .pure rfl

theorem hands_readVar (before : List Nat) :
    readVar.Hands before fun s => before ++ s.ids := by
  refine (handsNone_name _ before).bind fun x => ?_
  refine Reader.Hands.bind (Q := fun v => before ++ Expr.idsOption v) ?_
    fun v => ?_
  · refine (handsNone_accept _ before).bind fun b => ?_
    split
    · exact (Expr.hands_read before).bind fun e => .pure rfl
    · exact .pure (by simp [Expr.idsOption])
  · exact (handsNone_expect _ _ _).bind fun _ => .pure (by rw [Stmt.ids])

theorem hands_readExpression (before : List Nat) :
    readExpression.Hands before fun s => before ++ s.ids :=
  (Expr.hands_read before).bind fun _ =>
    (handsNone_expect _ _ _).bind fun _ => .pure (by rw [Stmt.ids])

theorem hands_readPrint (before : List Nat) :
    readPrint.Hands before fun s => before ++ s.ids :=
  (Expr.hands_read before).bind fun _ =>
    (handsNone_expect _ _ _).bind fun _ => .pure (by rw [Stmt.ids])

theorem hands_readReturn (line : Nat) (before : List Nat) :
    (readReturn line).Hands before fun s => before ++ s.ids :=
  (hands_readUnless _ before).bind fun _ =>
    (handsNone_expect _ _ _).bind fun _ => .pure (by rw [Stmt.ids])

theorem hands_readCondition (opening closing : ParseFault)
    (before : List Nat) :
    (readCondition opening closing).Hands before fun e => before ++ e.ids :=
  (handsNone_expect _ _ before).bind fun _ =>
    (Expr.hands_read before).bind fun _ =>
      (handsNone_expect _ _ _).bind fun _ => .pure rfl

theorem hands_readForInitializer (before : List Nat) :
    readForInitializer.Hands before fun v => before ++ idsOption v := by
  refine (handsNone_accept _ before).bind fun b => ?_
  split
  · exact .pure (by simp [idsOption])
  · refine (handsNone_acceptKeyword _ before).bind fun b => ?_
    split
    · exact (hands_readVar before).bind fun s => .pure rfl
    · exact (hands_readExpression before).bind fun s => .pure rfl

theorem hands_readForClauses (before : List Nat) :
    readForClauses.Hands before fun clauses => before ++ clauses.ids := by
  refine (handsNone_expect _ _ before).bind fun _ => ?_
  refine (hands_readForInitializer before).bind fun first => ?_
  refine (hands_readUnless _ _).bind fun second => ?_
  refine (handsNone_expect _ _ _).bind fun _ => ?_
  refine (hands_readUnless _ _).bind fun third => ?_
  refine (handsNone_expect _ _ _).bind fun _ => .pure ?_
  simp only [ForClauses.ids, List.append_assoc]

theorem handsNone_readParams (earlier : List Ident) :
    Reader.HandsNone (readParams earlier) := by
  intro before n c c' params hfresh hrun
  fun_induction readParams earlier c with
  | case1 earlier c x line _ rest hrest ih =>
    refine ih ?_ hrun
    simp only [Cursor.nextId_moveTo, Cursor.nextId_noteIf]
    exact hfresh
  | case2 earlier c x line rest _ hrest =>
    cases hrun
    simp only [Cursor.nextId_moveTo, Cursor.nextId_noteIf]
    exact hfresh
  | case3 => cases hrun

theorem handsNone_readParamList (routine : Routine) :
    (readParamList routine).HandsNone := by
  intro before
  refine (handsNone_expect _ _ before).bind fun _ => ?_
  refine Reader.Hands.bind (Q := fun _ => before) ?_ fun params =>
    (handsNone_expect _ _ before).bind fun _ => .pure rfl
  refine (handsNone_ahead _ before).bind fun b => ?_
  cases b with
  | true => exact Reader.Hands.pure rfl
  | false => exact handsNone_readParams [] before

theorem handsNone_readHeader (kind : FunctionKind) :
    (readHeader kind).HandsNone := by
  intro before
  refine (handsNone_name _ before).bind fun x => ?_
  refine Reader.Hands.bind (Q := fun _ => before) ?_ fun header =>
    (handsNone_expect _ _ before).bind fun _ => .pure rfl
  refine (handsNone_ahead _ before).bind fun b => ?_
  split
  · exact .pure rfl
  · exact (handsNone_readParamList _ before).bind fun params => .pure rfl

/-- The ids of the head of a class. -/
def ClassHead.ids (head : ClassHead) : List Nat :=
  head.superclass.toList.map Ref.id

theorem hands_readClassHead (before : List Nat) :
    readClassHead.Hands before fun head => before ++ head.ids := by
  refine (handsNone_name _ before).bind fun x => ?_
  refine Reader.Hands.bind
    (Q := fun (parent : Option Ref) => before ++ parent.toList.map Ref.id) ?_
    fun parent => (handsNone_expect _ _ _).bind fun _ => .pure rfl
  refine (handsNone_accept _ before).bind fun b => ?_
  split
  · refine (handsNone_name _ before).bind fun parent => ?_
    exact (hands_freshId before).bind fun id => .pure rfl
  · exact .pure (by simp)

/-! ## The machine -/

/-- The ids of what a frame keeps. -/
def Frame.ids : Frame → List Nat
  | .thenBranch condition => condition.ids
  | .elseBranch condition s => condition.ids ++ s.ids
  | .whileBody condition => condition.ids
  | .forBody clauses => clauses.ids

/-- The ids of what the owner of a body keeps. -/
def Owner.ids : Owner → List Nat
  | .function => []
  | .member head earlier => head.ids ++ FunctionDecl.idsAll earlier

/-- The ids of what the open lists hold. -/
def Nest.ids : Nest → List Nat
  | .program done => Stmt.idsAll done
  | .block done frames outer =>
    Stmt.idsAll done ++ (frames.flatMap Frame.ids ++ outer.ids)
  | .body owner _ done outer => owner.ids ++ (Stmt.idsAll done ++ outer.ids)

/-- The ids of what has just been built. -/
def Control.ids : Control → List Nat
  | .members head earlier => head.ids ++ FunctionDecl.idsAll earlier
  | .built s => s.ids
  | _ => []

/-- All ids that the machine holds. -/
def heldIds (control : Control) (frames : List Frame) (nest : Nest) :
    List Nat :=
  control.ids ++ (frames.flatMap Frame.ids ++ nest.ids)

/-- The step leaves the ids that it holds fresh from `n` on. -/
def Step.Hands (n : Nat) : Step → Prop
  | .next control frames nest c =>
    Fresh n (heldIds control frames nest) c.nextId
  | .done statements c => Fresh n (Stmt.idsAll statements) c.nextId

variable {n : Nat} {control : Control} {frames : List Frame} {nest : Nest}
  {c : Cursor}

/-- A fault throws away what is not yet in a list. -/
theorem hands_recover {d : Diagnostic} {m : Nat} (h : Fresh n nest.ids m)
    (hle : m ≤ c.nextId) : (recover d nest c).Hands n := by
  show Fresh n (heldIds .items [] nest) c.nextId
  simp only [heldIds, Control.ids, List.flatMap_nil, List.nil_append]
  exact h.upTo hle

/-- Of a part without nesting, what is given is taken up, and a fault throws
away what is not yet in a list. -/
theorem hands_andThen {α : Type} {p : Reader α} {go : α → Cursor → Step}
    {rest : List Token} {after : α → List Nat}
    (h : Fresh n (heldIds control frames nest) c.nextId)
    (hp : p.Hands (heldIds control frames nest) after) (hraises : p.Along Cursor.Raises)
    (hgo : ∀ a (c' : Cursor), Fresh n (after a) c'.nextId →
      (go a c').Hands n) :
    (Step.andThen p nest (c.moveTo rest) go).Hands n := by
  have hle := hraises (c.moveTo rest)
  unfold Step.andThen
  cases hrun : p (c.moveTo rest) with
  | ok a c' => exact hgo a c' (hp n (c.moveTo rest) c' a h hrun)
  | error d c' =>
    rw [hrun] at hle
    refine hands_recover (h.of_count_le fun id => ?_) hle
    simp only [heldIds, List.count_append]
    omega

/-- A reader that gives a statement hands it to the frames above it. -/
theorem hands_built {p : Reader Stmt} {rest : List Token}
    (h : Fresh n (heldIds control frames nest) c.nextId)
    (hp : ∀ before, p.Hands before fun s => before ++ s.ids)
    (hraises : p.Along Cursor.Raises) :
    (Step.andThen p nest (c.moveTo rest) fun s c =>
      .next (.built s) frames nest c).Hands n := by
  refine hands_andThen h (hp _) hraises fun s c' hs => ?_
  refine hs.of_count_le fun id => ?_
  simp only [heldIds, Control.ids, List.count_append]
  omega

/-- A reader that gives a frame makes a statement wait. -/
theorem hands_frame {α : Type} {p : Reader α} {rest : List Token}
    {ids : α → List Nat} {frame : α → Frame}
    (h : Fresh n (heldIds control frames nest) c.nextId)
    (hp : ∀ before, p.Hands before fun a => before ++ ids a)
    (hraises : p.Along Cursor.Raises) (hframe : ∀ a, (frame a).ids = ids a) :
    (Step.andThen p nest (c.moveTo rest) fun a c =>
      .next .statement (frame a :: frames) nest c).Hands n := by
  refine hands_andThen h (hp _) hraises fun a c' ha => ?_
  refine ha.of_count_le fun id => ?_
  simp only [heldIds, Control.ids, List.flatMap_cons, hframe,
    List.count_append, List.count_nil]
  omega

/-- Behind a header the body of a function is read in a list of its own. -/
theorem hands_body {kind : FunctionKind} {owner : Owner} {rest : List Token}
    (h : Fresh n (heldIds control frames nest) c.nextId)
    (howner : ∀ id, owner.ids.count id ≤ control.ids.count id) :
    (Step.andThen (readHeader kind) nest (c.moveTo rest) fun header c =>
      .next .items [] (.body owner header [] nest) c).Hands n := by
  refine hands_andThen h (handsNone_readHeader _ _) (passage_raises.readHeader _)
    fun header c' hheader => ?_
  refine hheader.of_count_le fun id => ?_
  have hle := howner id
  have hitems : Control.items.ids = [] := rfl
  simp only [heldIds, hitems, Nest.ids, Stmt.idsAll, List.flatMap_nil,
    List.count_append, List.count_nil]
  omega

theorem hands_readDeclaration
    (h : Fresh n (heldIds .declaration frames nest) c.nextId) :
    (readDeclaration frames nest c).Hands n := by
  unfold readDeclaration
  split
  · refine hands_andThen h (hands_readClassHead _) passage_raises.readClassHead
      fun head c' hhead => ?_
    refine hhead.of_count_le fun id => ?_
    simp only [heldIds, Control.ids, FunctionDecl.idsAll, List.flatMap_nil,
      List.count_append, List.count_nil]
    omega
  · exact hands_body h fun id => by simp [Owner.ids]
  · exact hands_built h hands_readVar passage_raises.readVar
  · exact h

theorem hands_readStatement
    (h : Fresh n (heldIds .statement frames nest) c.nextId) :
    (readStatement frames nest c).Hands n := by
  unfold readStatement
  split
  · exact hands_frame h hands_readForClauses passage_raises.readForClauses fun _ => rfl
  · exact hands_frame h (hands_readCondition _ _) (passage_raises.readCondition _ _)
      fun _ => rfl
  · exact hands_frame h (hands_readCondition _ _) (passage_raises.readCondition _ _)
      fun _ => rfl
  · exact hands_built h (hands_readReturn _) (passage_raises.readReturn _)
  · refine h.of_count_le fun id => ?_
    simp only [heldIds, Control.ids, Nest.ids, Stmt.idsAll, List.flatMap_nil,
      List.count_append, List.count_nil]
    omega
  · exact hands_built h hands_readPrint passage_raises.readPrint
  · exact hands_built h hands_readExpression passage_raises.readExpression

theorem hands_readMember {head : ClassHead} {earlier : List FunctionDecl}
    (h : Fresh n (heldIds (.members head earlier) frames nest) c.nextId) :
    (readMember head earlier nest c).Hands n := by
  unfold readMember
  split
  · refine hands_recover (h.of_count_le fun id => ?_) (Nat.le_refl _)
    simp only [heldIds, List.count_append]
    omega
  · refine h.of_count_le fun id => ?_
    have hreverse := count_flatMap_reverse FunctionDecl.ids earlier id
    obtain ⟨name, superclass⟩ := head
    cases superclass <;>
      simp only [heldIds, Control.ids, Stmt.ids, ClassDecl.ids,
        ClassHead.ids, FunctionDecl.idsAll_eq_flatMap, List.count_append,
        List.count_nil, List.count_cons, List.flatMap_nil, hreverse,
        Option.toList_none, Option.toList_some, List.map_nil,
        List.map_cons] <;> omega
  · exact hands_body h fun id => Nat.le_refl _
  · exact hands_body h fun id => Nat.le_refl _

theorem Nest.ids_add (s : Stmt) (nest : Nest) (id : Nat) :
    (nest.add s).ids.count id = s.ids.count id + nest.ids.count id := by
  cases nest <;>
    simp only [Nest.add, Nest.ids, Stmt.idsAll, List.count_append] <;> omega

theorem hands_resume {s : Stmt}
    (h : Fresh n (heldIds (.built s) frames nest) c.nextId) :
    (resume s frames nest c).Hands n := by
  unfold resume
  split
  · refine h.of_count_le fun id => ?_
    simp only [heldIds, Control.ids, Nest.ids_add, List.flatMap_nil,
      List.count_append, List.count_nil]
    omega
  · split
    · refine h.of_count_le fun id => ?_
      simp only [heldIds, Control.ids, Frame.ids, List.flatMap_cons,
        List.count_append, List.count_nil]
      omega
    · refine h.of_count_le fun id => ?_
      simp only [heldIds, Control.ids, Stmt.ids, Frame.ids, List.flatMap_cons,
        List.count_append]
      omega
  · refine h.of_count_le fun id => ?_
    simp only [heldIds, Control.ids, Stmt.ids, Frame.ids, List.flatMap_cons,
      List.count_append]
    omega
  · refine h.of_count_le fun id => ?_
    simp only [heldIds, Control.ids, Stmt.ids, Frame.ids, List.flatMap_cons,
      List.count_append]
    omega
  · next clauses frames =>
    refine h.of_count_le fun id => ?_
    have hloop := (ForClauses.ids_loop_perm clauses s).count_eq id
    simp only [heldIds, Control.ids, Frame.ids, List.flatMap_cons,
      List.count_append] at hloop ⊢
    omega

theorem hands_closeList {rest : List Token}
    (h : Fresh n (heldIds .items [] nest) c.nextId) :
    (closeList nest rest c).Hands n := by
  cases nest with
  | program done => exact h
  | block done frames outer =>
    refine h.of_count_le fun id => ?_
    simp only [heldIds, Control.ids, Nest.ids, Stmt.ids, List.count_append,
      count_idsAll_reverse, List.count_nil]
    omega
  | body owner header done outer =>
    cases owner <;>
    · refine h.of_count_le fun id => ?_
      simp only [heldIds, Control.ids, Nest.ids, Owner.ids, Stmt.ids,
        FunctionDecl.ids, FunctionDecl.idsAll, List.flatMap_nil,
        List.count_append, count_idsAll_reverse, List.count_nil]
      omega

theorem hands_endList (h : Fresh n (heldIds .items [] nest) c.nextId) :
    (endList nest c).Hands n := by
  cases nest with
  | program done =>
    refine h.of_count_le fun id => ?_
    simp only [heldIds, Control.ids, Nest.ids, List.flatMap_nil,
      List.count_append, count_idsAll_reverse, List.count_nil]
    omega
  | block done frames outer =>
    refine hands_recover (h.of_count_le fun id => ?_) (Nat.le_refl _)
    simp only [heldIds, Nest.ids, List.count_append]
    omega
  | body owner header done outer =>
    refine hands_recover (h.of_count_le fun id => ?_) (Nat.le_refl _)
    simp only [heldIds, Nest.ids, List.count_append]
    omega

theorem hands_step (h : Fresh n (heldIds control frames nest) c.nextId) :
    (step control frames nest c).Hands n := by
  cases control with
  | items =>
    -- frames above a list are not read on behind it
    have hitems : Fresh n (heldIds .items [] nest) c.nextId := by
      refine h.of_count_le fun id => ?_
      simp only [heldIds, List.flatMap_nil, List.count_append, List.count_nil]
      omega
    simp only [step, readItem]
    repeat' split
    · exact hands_endList hitems
    · exact hands_closeList hitems
    · exact hitems
  | declaration => exact hands_readDeclaration h
  | statement => exact hands_readStatement h
  | members head earlier => exact hands_readMember h
  | built s => exact hands_resume h

theorem fresh_readFrom (h : Fresh n (heldIds control frames nest) c.nextId) :
    Fresh n (Stmt.idsAll (readFrom control frames nest c).1)
      (readFrom control frames nest c).2.nextId := by
  fun_induction readFrom control frames nest c with
  | case1 control frames nest c control' frames' nest' c' hstep ih =>
    have hhands := hands_step h
    rw [hstep] at hhands
    exact ih hhands
  | case2 control frames nest c statements c' hstep =>
    have hhands := hands_step h
    rw [hstep] at hhands
    exact hhands

/-- What is read from tokens has fresh ids, with faults or without. -/
theorem fresh_parse (scan : Token.Scan) (firstId : Nat) :
    Fresh firstId (Stmt.idsAll (parse scan firstId).statements)
      (parse scan firstId).nextId := by
  have hstart : Fresh firstId (heldIds .items [] (.program []))
      (Cursor.start scan firstId).nextId := .nil firstId
  exact fresh_readFrom hstart

end Stmt

end Lox
