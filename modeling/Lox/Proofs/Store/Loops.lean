import Lox.Proofs.Store.Frames

/-!
# Code without loops

A program without `while` makes no loops while it runs: all the code that its
values hold is its own.  `Stmt.LoopFree` says of a statement that it holds no
loop, not even in a function that it declares, and `Value.Tame` says so of the
code that a value holds.  A native function is tame if it is one of the known
ones, so that calling it gives an answer.

What holds of every value in a store is kept by each operation that is given
only such values (`Store.All`).
-/

namespace Lox

/-! ## Statements -/

mutual

/-- The statement holds no loop. -/
def Stmt.LoopFree : Stmt → Prop
  | .block body => Stmt.AllLoopFree body
  | .ifElse _ thenBranch none => thenBranch.LoopFree
  | .ifElse _ thenBranch (some elseBranch) =>
    thenBranch.LoopFree ∧ elseBranch.LoopFree
  | .while _ _ => False
  | .function f => f.LoopFree
  | .class c => c.LoopFree
  | _ => True

/-- None of the statements holds a loop. -/
def Stmt.AllLoopFree : List Stmt → Prop
  | [] => True
  | s :: rest => s.LoopFree ∧ Stmt.AllLoopFree rest

/-- The body of the function holds no loop. -/
def FunctionDecl.LoopFree : FunctionDecl → Prop
  | ⟨_, _, body, _⟩ => Stmt.AllLoopFree body

/-- None of the functions holds a loop. -/
def FunctionDecl.AllLoopFree : List FunctionDecl → Prop
  | [] => True
  | f :: rest => f.LoopFree ∧ FunctionDecl.AllLoopFree rest

/-- None of the members of the class holds a loop. -/
def ClassDecl.LoopFree : ClassDecl → Prop
  | ⟨_, _, methods⟩ => FunctionDecl.AllLoopFree methods

end

/-! ## Values -/

/-- The members of the class hold no loops. -/
structure ClassInfo.Tame (info : ClassInfo) : Prop where
  methods : ∀ name f, info.methods.find? name = some f →
    f.declaration.LoopFree
  statics : ∀ name f, info.statics.find? name = some f →
    f.declaration.LoopFree

/-- The members of the class and of its ancestors hold no loops. -/
def Class.Tame : Class → Prop
  | base info => info.Tame
  | derived info superclass => info.Tame ∧ superclass.Tame

/-- The value holds no loops.  Only the native functions with the first so
many numbers are known. -/
def Value.Tame (natives : Nat) : Value → Prop
  | native n => n.id < natives
  | function f => f.declaration.LoopFree
  | cls c => c.Tame
  | inst object => object.cls.Tame
  | _ => True

theorem Value.Tame.mono {natives natives' : Nat} {v : Value}
    (h : v.Tame natives) (hle : natives ≤ natives') : v.Tame natives' := by
  cases v with
  | native n => exact Nat.lt_of_lt_of_le h hle
  | _ => exact h

theorem Class.Tame.findMethod? {c : Class} (h : c.Tame) {name : String}
    {f : Closure} (hf : c.findMethod? name = some f) :
    f.declaration.LoopFree := by
  induction c with
  | base info => exact ClassInfo.Tame.methods h name f hf
  | derived info superclass ih =>
    rw [Class.findMethod?] at hf
    split at hf
    · next hown =>
      cases hf
      exact h.1.methods name f hown
    · exact ih h.2 hf

theorem Class.Tame.findStatic? {c : Class} (h : c.Tame) {name : String}
    {f : Closure} (hf : c.findStatic? name = some f) :
    f.declaration.LoopFree := by
  induction c with
  | base info => exact ClassInfo.Tame.statics h name f hf
  | derived info superclass ih =>
    rw [Class.findStatic?] at hf
    split at hf
    · next hown =>
      cases hf
      exact h.1.statics name f hown
    · exact ih h.2 hf

/-! ## Stores -/

/-- What is said holds of every value in the store. -/
structure Store.All (P : Value → Prop) (s : Store) : Prop where
  values : ∀ frame name v, s.valueIn? frame name = some v → P v
  fields : ∀ object name v, s.field? object name = some v → P v

namespace Store.All

variable {P : Value → Prop} {s : Store}

/-- In the store that holds only an empty frame there are no values. -/
theorem start : (Store.empty.addFrame none .empty).All P where
  values := by
    intro frame name v hv
    rw [valueIn?_addFrame] at hv
    split at hv <;> cases hv
  fields := by rintro object name v ⟨⟩

theorem mono {Q : Value → Prop} (h : s.All P) (himp : ∀ v, P v → Q v) :
    s.All Q :=
  ⟨fun frame name v hv => himp v (h.values frame name v hv),
    fun object name v hv => himp v (h.fields object name v hv)⟩

theorem get? (h : s.All P) {frame : FrameId} {name : String} {v : Value}
    (hv : s.get? frame name = some v) : P v := by
  unfold Store.get? at hv
  split at hv
  · exact h.values _ name v hv
  · cases hv

theorem getAt? (h : s.All P) {frame : FrameId} {distance : Nat}
    {name : String} {v : Value} (hv : s.getAt? frame distance name = some v) :
    P v := by
  unfold Store.getAt? at hv
  split at hv
  · exact h.values _ name v hv
  · cases hv

theorem readAt (h : s.All P) {frame : FrameId} {distance line : Nat}
    {name : String} {v : Value}
    (hv : s.readAt frame distance name line = .ok v) : P v := by
  unfold Store.readAt at hv
  cases hvalue : s.getAt? frame distance name with
  | none =>
    rw [hvalue] at hv
    cases hv
  | some w =>
    rw [hvalue] at hv
    cases hv
    exact h.getAt? hvalue

theorem read (h : s.All P) {frame : FrameId} {line : Nat} {name : String}
    {v : Value} (hv : s.read frame name line = .ok v) : P v := by
  unfold Store.read at hv
  cases hvalue : s.get? frame name with
  | none =>
    rw [hvalue] at hv
    cases hv
  | some w =>
    rw [hvalue] at hv
    cases hv
    exact h.get? hvalue

theorem define (h : s.All P) (frame : FrameId) (name : String) {v : Value}
    (hv : P v) : (s.define frame name v).All P where
  values := by
    intro other name' w hw
    rw [valueIn?_define] at hw
    split at hw
    · cases hw
      exact hv
    · exact h.values other name' w hw
  fields := h.fields

theorem addFrame (h : s.All P) (parent : Option FrameId)
    {bindings : Table Value}
    (hbindings : ∀ name v, bindings.find? name = some v → P v) :
    (s.addFrame parent bindings).All P where
  values := by
    intro frame name v hv
    rw [valueIn?_addFrame] at hv
    split at hv
    · exact hbindings name v hv
    · exact h.values frame name v hv
  fields := h.fields

theorem addObject (h : s.All P) : s.addObject.All P where
  values := h.values
  fields := by
    intro object name v hv
    rw [field?_addObject] at hv
    exact h.fields object name v hv

theorem setField (h : s.All P) (object : ObjectId) (name : String) {v : Value}
    (hv : P v) : (s.setField object name v).All P where
  values := h.values
  fields := by
    intro other name' w hw
    rw [field?_setField] at hw
    split at hw
    · cases hw
      exact hv
    · exact h.fields other name' w hw

theorem makeClosure (h : s.All P) (f : FunctionDecl) (frame : FrameId) :
    (s.makeClosure f frame).1.All P :=
  ⟨h.values, h.fields⟩

theorem bindMethod (h : s.All P) (method : Closure) {object : Value}
    (hobject : P object) : (s.bindMethod method object).1.All P :=
  (h.addFrame (some method.frame)
    (Table.forall_single Keyword.kwThis.lexeme hobject)).makeClosure _ _

end Store.All

end Lox
