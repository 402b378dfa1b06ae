import Lox.Proofs.Labels
import Lox.Store

/-!
# Labels in values and in the store

Functions carry their declarations, so there are labels in values and in all
that a store holds.  A change of labels goes through all of it.  No operation
of the store looks at a label: each of them commutes with every change.
-/

namespace Lox

/-! ## Tables -/

namespace Table

variable {α β : Type}

/-- The table with a function applied to its values. -/
def map (f : α → β) (t : Table α) : Table β :=
  ⟨t.entries.map fun entry => (entry.1, f entry.2)⟩

@[simp] theorem map_empty (f : α → β) : (empty : Table α).map f = empty := rfl

theorem map_map {γ : Type} (f : α → β) (g : β → γ) (t : Table α) :
    (t.map f).map g = t.map (g ∘ f) := by
  simp only [map, List.map_map]
  rfl

@[simp] theorem find?_map (f : α → β) (t : Table α) (name : String) :
    (t.map f).find? name = (t.find? name).map f := by
  obtain ⟨entries⟩ := t
  simp only [find?, map]
  induction entries with
  | nil => rfl
  | cons entry rest ih =>
    obtain ⟨key, value⟩ := entry
    simp only [List.map_cons, List.lookup_cons, ih]
    split <;> rfl

@[simp] theorem insert_map (f : α → β) (t : Table α) (name : String)
    (value : α) :
    (t.map f).insert name (f value) = (t.insert name value).map f := by
  obtain ⟨entries⟩ := t
  simp only [insert, map, Table.mk.injEq]
  induction entries with
  | nil => rfl
  | cons entry rest ih =>
    obtain ⟨key, old⟩ := entry
    by_cases h : key = name
    · simp [insertEntry, h]
    · simp [insertEntry, h, ih]

theorem insertAll_map (f : α → β) (names : List String) (values : List α)
    (t : Table α) :
    (t.map f).insertAll (names.zip (values.map f)) =
      (t.insertAll (names.zip values)).map f := by
  induction names generalizing values t with
  | nil => rfl
  | cons name names ih =>
    cases values with
    | nil => rfl
    | cons value values =>
      simp only [insertAll, List.map_cons, List.zip_cons_cons,
        List.foldl_cons, insert_map] at ih ⊢
      exact ih values _

end Table

/-! ## Values -/

/-- The function with other labels. -/
def Closure.relabel (ρ : Labeling) (f : Closure) : Closure :=
  ⟨f.identity, f.declaration.relabel ρ, f.frame⟩

/-- The parts of a class with other labels. -/
def ClassInfo.relabel (ρ : Labeling) (info : ClassInfo) : ClassInfo :=
  ⟨info.id, info.name, info.methods.map (Closure.relabel ρ),
    info.statics.map (Closure.relabel ρ)⟩

/-- The class with other labels. -/
def Class.relabel (ρ : Labeling) : Class → Class
  | base info => base (info.relabel ρ)
  | derived info superclass => derived (info.relabel ρ) (superclass.relabel ρ)

/-- The object with other labels. -/
def Instance.relabel (ρ : Labeling) (object : Instance) : Instance :=
  ⟨object.id, object.cls.relabel ρ⟩

/-- The value with other labels. -/
def Value.relabel (ρ : Labeling) : Value → Value
  | function closure => function (closure.relabel ρ)
  | cls definition => cls (definition.relabel ρ)
  | inst object => inst (object.relabel ρ)
  | v => v

section

variable (ρ : Labeling)

@[simp] theorem FunctionDecl.name_relabel (f : FunctionDecl) :
    (f.relabel ρ).name = f.name.relabel ρ := by
  rw [FunctionDecl.relabel_eq]

@[simp] theorem FunctionDecl.params_relabel (f : FunctionDecl) :
    (f.relabel ρ).params = f.params.map (Ident.relabel ρ) := by
  rw [FunctionDecl.relabel_eq]

@[simp] theorem FunctionDecl.body_relabel (f : FunctionDecl) :
    (f.relabel ρ).body = f.body.map (Stmt.relabel ρ) := by
  rw [FunctionDecl.relabel_eq]

@[simp] theorem FunctionDecl.kind_relabel (f : FunctionDecl) :
    (f.relabel ρ).kind = f.kind := by
  rw [FunctionDecl.relabel_eq]

@[simp] theorem FunctionDecl.isInitializer_relabel (f : FunctionDecl) :
    (f.relabel ρ).isInitializer = f.isInitializer := by
  simp only [FunctionDecl.isInitializer, FunctionDecl.kind_relabel,
    FunctionDecl.name_relabel, Ident.name_relabel]

@[simp] theorem Closure.arity_relabel (f : Closure) :
    (f.relabel ρ).arity = f.arity := by
  simp only [Closure.arity, Closure.relabel, FunctionDecl.params_relabel,
    List.length_map]

@[simp] theorem Closure.isGetter_relabel (f : Closure) :
    (f.relabel ρ).isGetter = f.isGetter := by
  simp only [Closure.isGetter, Closure.relabel, FunctionDecl.kind_relabel]

@[simp] theorem Closure.name_relabel (f : Closure) :
    (f.relabel ρ).name = f.name := by
  simp only [Closure.name, Closure.relabel, FunctionDecl.name_relabel,
    Ident.name_relabel]

@[simp] theorem Class.name_relabel (c : Class) : (c.relabel ρ).name = c.name := by
  cases c <;> rfl

@[simp] theorem Class.id_relabel (c : Class) : (c.relabel ρ).id = c.id := by
  cases c <;> rfl

@[simp] theorem Class.findMethod?_relabel (name : String) (c : Class) :
    (c.relabel ρ).findMethod? name =
      (c.findMethod? name).map (Closure.relabel ρ) := by
  induction c with
  | base info =>
    simp only [Class.relabel, Class.findMethod?, ClassInfo.relabel,
      Table.find?_map]
  | derived info superclass ih =>
    simp only [Class.relabel, Class.findMethod?, ClassInfo.relabel,
      Table.find?_map, ih]
    cases info.methods.find? name <;> rfl

@[simp] theorem Class.findStatic?_relabel (name : String) (c : Class) :
    (c.relabel ρ).findStatic? name =
      (c.findStatic? name).map (Closure.relabel ρ) := by
  induction c with
  | base info =>
    simp only [Class.relabel, Class.findStatic?, ClassInfo.relabel,
      Table.find?_map]
  | derived info superclass ih =>
    simp only [Class.relabel, Class.findStatic?, ClassInfo.relabel,
      Table.find?_map, ih]
    cases info.statics.find? name <;> rfl

@[simp] theorem Class.arity_relabel (c : Class) :
    (c.relabel ρ).arity = c.arity := by
  simp only [Class.arity, Class.findMethod?_relabel]
  cases c.findMethod? initializerName with
  | none => rfl
  | some f => exact f.arity_relabel ρ

@[simp] theorem Value.truthy_relabel (v : Value) :
    (v.relabel ρ).truthy = v.truthy := by
  cases v <;> rfl

@[simp] theorem Value.display_relabel (v : Value) :
    (v.relabel ρ).display = v.display := by
  cases v with
  | function f => simp only [Value.relabel, Value.display, Closure.name_relabel]
  | cls c => simp only [Value.relabel, Value.display, Class.name_relabel]
  | inst object =>
    simp only [Value.relabel, Value.display, Instance.relabel,
      Class.name_relabel]
  | _ => rfl

@[simp] theorem Value.equal_relabel (v w : Value) :
    (v.relabel ρ).equal (w.relabel ρ) = v.equal w := by
  cases v <;> cases w <;>
    simp only [Value.relabel, Value.equal, Closure.relabel, Instance.relabel,
      Class.id_relabel]

@[simp] theorem Value.relabel_ofLiteral (value : Literal) :
    (Value.ofLiteral value).relabel ρ = .ofLiteral value := by
  cases value <;> rfl

/-! ## One change after another -/

theorem Closure.relabel_relabel (σ : Labeling) (f : Closure) :
    (f.relabel ρ).relabel σ = f.relabel (ρ.andThen σ) := by
  simp only [Closure.relabel, FunctionDecl.relabel_relabel_of ρ σ
    fun s _ => s.relabel_relabel ρ σ]

theorem ClassInfo.relabel_relabel (σ : Labeling) (info : ClassInfo) :
    (info.relabel ρ).relabel σ = info.relabel (ρ.andThen σ) := by
  have hclosure : Closure.relabel σ ∘ Closure.relabel ρ =
      .relabel (ρ.andThen σ) := funext (Closure.relabel_relabel ρ σ)
  simp only [ClassInfo.relabel, Table.map_map, hclosure]

theorem Class.relabel_relabel (σ : Labeling) (c : Class) :
    (c.relabel ρ).relabel σ = c.relabel (ρ.andThen σ) := by
  induction c with
  | base info => simp only [Class.relabel, ClassInfo.relabel_relabel]
  | derived info superclass ih =>
    simp only [Class.relabel, ClassInfo.relabel_relabel, ih]

theorem Value.relabel_relabel (σ : Labeling) (v : Value) :
    (v.relabel ρ).relabel σ = v.relabel (ρ.andThen σ) := by
  cases v with
  | function f => simp only [Value.relabel, Closure.relabel_relabel]
  | cls c => simp only [Value.relabel, Class.relabel_relabel]
  | inst object =>
    simp only [Value.relabel, Instance.relabel, Class.relabel_relabel]
  | _ => rfl

/-! ## Failures -/

/-- The failure with other labels. -/
def Failure.relabel : Failure → Failure
  | undefinedVariable name line => undefinedVariable name (ρ.line line)
  | undefinedProperty name owner line =>
    undefinedProperty name owner (ρ.line line)
  | operandNotNumber operator line => operandNotNumber operator (ρ.line line)
  | operandsNotNumbers operator line => operandsNotNumbers operator (ρ.line line)
  | operandsNotNumbersOrStrings operator line =>
    operandsNotNumbersOrStrings operator (ρ.line line)
  | arity expected got line => arity expected got (ρ.line line)
  | notCallable line => notCallable (ρ.line line)
  | notAnInstance access line => notAnInstance access (ρ.line line)
  | invalidSuperclass line => invalidSuperclass (ρ.line line)
  | stackOverflow limit line => stackOverflow limit (ρ.line line)
  | native name message line => native name message (ρ.line line)
  | output reason => output reason

/-- The value or failure with other labels. -/
def relabelResult : Except Failure Value → Except Failure Value
  | .ok v => .ok (v.relabel ρ)
  | .error f => .error (f.relabel ρ)

end

/-! ## The store -/

/-- The frame with other labels. -/
def Frame.relabel (ρ : Labeling) (f : Frame) : Frame :=
  ⟨f.bindings.map (Value.relabel ρ), f.parent⟩

namespace Store

theorem ext_of_parts {s t : Store} (hframes : s.frames = t.frames)
    (hfields : s.fields = t.fields) (hclosures : s.closures = t.closures) :
    s = t := by
  cases s
  cases t
  simp only at hframes hfields hclosures
  subst hframes hfields hclosures
  rfl

/-- The store with other labels. -/
def relabel (ρ : Labeling) (s : Store) : Store where
  frames := s.frames.map (Frame.relabel ρ)
  fields := s.fields.map (Table.map (Value.relabel ρ))
  closures := s.closures
  parent_lt := by
    intro i f p hf hp
    rw [Array.getElem?_map] at hf
    obtain ⟨g, hg, rfl⟩ := Option.map_eq_some_iff.1 hf
    exact s.parent_lt i g p hg hp

variable (ρ : Labeling) (s : Store)

@[simp] theorem nextFrame_relabel : (s.relabel ρ).nextFrame = s.nextFrame := by
  simp only [nextFrame, relabel, Array.size_map]

@[simp] theorem nextObject_relabel :
    (s.relabel ρ).nextObject = s.nextObject := by
  simp only [nextObject, relabel, Array.size_map]

@[simp] theorem addFrame_relabel (parent : Option FrameId)
    (bindings : Table Value) :
    (s.relabel ρ).addFrame parent (bindings.map (Value.relabel ρ)) =
      (s.addFrame parent bindings).relabel ρ := by
  refine ext_of_parts ?_ rfl rfl
  simp only [addFrame, relabel, Array.size_map, Array.map_push, Frame.relabel]

@[simp] theorem valueIn?_relabel (frame : FrameId) (name : String) :
    (s.relabel ρ).valueIn? frame name =
      (s.valueIn? frame name).map (Value.relabel ρ) := by
  simp only [valueIn?, relabel, Array.getElem?_map]
  cases s.frames[frame]? with
  | none => rfl
  | some f => exact Table.find?_map _ _ _

@[simp] theorem parent?_relabel (frame : FrameId) :
    (s.relabel ρ).parent? frame = s.parent? frame := by
  simp only [parent?, relabel, Array.getElem?_map]
  cases s.frames[frame]? <;> rfl

@[simp] theorem owner?_relabel (frame : FrameId) (name : String) :
    (s.relabel ρ).owner? frame name = s.owner? frame name := by
  induction frame using Nat.strongRecOn with
  | ind frame ih =>
    rw [owner?_eq, owner?_eq s, valueIn?_relabel, Option.isSome_map,
      parent?_relabel]
    cases hp : s.parent? frame with
    | none => rfl
    | some p =>
      rw [Option.bind_some, Option.bind_some, ih p (parent?_lt hp)]

@[simp] theorem ancestor?_relabel (frame : FrameId) (distance : Nat) :
    (s.relabel ρ).ancestor? frame distance = s.ancestor? frame distance := by
  induction distance generalizing frame with
  | zero => rfl
  | succ distance ih =>
    simp only [ancestor?, parent?_relabel]
    cases s.parent? frame with
    | none => rfl
    | some p => exact ih p

@[simp] theorem ownerAt?_relabel (frame : FrameId) (distance : Nat)
    (name : String) :
    (s.relabel ρ).ownerAt? frame distance name =
      s.ownerAt? frame distance name := by
  simp only [ownerAt?, ancestor?_relabel, valueIn?_relabel, Option.isSome_map]

@[simp] theorem get?_relabel (frame : FrameId) (name : String) :
    (s.relabel ρ).get? frame name =
      (s.get? frame name).map (Value.relabel ρ) := by
  simp only [get?, owner?_relabel, valueIn?_relabel]
  cases s.owner? frame name <;> rfl

@[simp] theorem getAt?_relabel (frame : FrameId) (distance : Nat)
    (name : String) :
    (s.relabel ρ).getAt? frame distance name =
      (s.getAt? frame distance name).map (Value.relabel ρ) := by
  simp only [getAt?, ancestor?_relabel, valueIn?_relabel]
  cases s.ancestor? frame distance <;> rfl

theorem orUndefined_relabel (name : String) (line : Nat) (v : Option Value) :
    orUndefined name (ρ.line line) (v.map (Value.relabel ρ)) =
      relabelResult ρ (orUndefined name line v) := by
  cases v <;> rfl

@[simp] theorem read_relabel (frame : FrameId) (name : String) (line : Nat) :
    (s.relabel ρ).read frame name (ρ.line line) =
      relabelResult ρ (s.read frame name line) := by
  rw [read, get?_relabel, orUndefined_relabel, read]

@[simp] theorem readAt_relabel (frame : FrameId) (distance : Nat)
    (name : String) (line : Nat) :
    (s.relabel ρ).readAt frame distance name (ρ.line line) =
      relabelResult ρ (s.readAt frame distance name line) := by
  rw [readAt, getAt?_relabel, orUndefined_relabel, readAt]

theorem map_modify {α β : Type} (f : α → β) (change : α → α) (change' : β → β)
    (h : ∀ a, f (change a) = change' (f a)) (array : Array α) (i : Nat) :
    (array.modify i change).map f = (array.map f).modify i change' := by
  refine Array.ext_getElem? fun j => ?_
  simp only [Array.getElem?_map, Array.getElem?_modify]
  split
  · cases array[j]? with
    | none => rfl
    | some a => simp only [Option.map_some, h]
  · rfl

@[simp] theorem define_relabel (frame : FrameId) (name : String) (v : Value) :
    (s.relabel ρ).define frame name (v.relabel ρ) =
      (s.define frame name v).relabel ρ := by
  refine ext_of_parts ?_ rfl rfl
  simp only [define, relabel]
  refine (map_modify _ _ _ ?_ _ _).symm
  intro f
  simp only [Frame.relabel, Table.insert_map]

@[simp] theorem addObject_relabel :
    (s.relabel ρ).addObject = s.addObject.relabel ρ := by
  refine ext_of_parts rfl ?_ rfl
  simp only [addObject, relabel, Array.map_push, Table.map_empty]

@[simp] theorem field?_relabel (object : ObjectId) (name : String) :
    (s.relabel ρ).field? object name =
      (s.field? object name).map (Value.relabel ρ) := by
  simp only [field?, relabel, Array.getElem?_map]
  cases s.fields[object]? with
  | none => rfl
  | some t => exact Table.find?_map _ _ _

@[simp] theorem setField_relabel (object : ObjectId) (name : String)
    (v : Value) :
    (s.relabel ρ).setField object name (v.relabel ρ) =
      (s.setField object name v).relabel ρ := by
  refine ext_of_parts rfl ?_ rfl
  simp only [setField, relabel]
  refine (map_modify _ _ _ ?_ _ _).symm
  intro t
  rw [Table.insert_map]

theorem relabel_relabel (σ : Labeling) :
    (s.relabel ρ).relabel σ = s.relabel (ρ.andThen σ) := by
  have hvalue : Value.relabel σ ∘ Value.relabel ρ = .relabel (ρ.andThen σ) :=
    funext (Value.relabel_relabel ρ σ)
  refine ext_of_parts ?_ ?_ rfl
  · simp only [relabel, Array.map_map]
    congr 1
    funext f
    simp only [Function.comp_apply, Frame.relabel, Table.map_map, hvalue]
  · simp only [relabel, Array.map_map]
    congr 1
    funext t
    simp only [Function.comp_apply, Table.map_map, hvalue]

/-- The store and function with other labels. -/
def relabelMade (made : Store × Closure) : Store × Closure :=
  (made.1.relabel ρ, made.2.relabel ρ)

@[simp] theorem makeClosure_relabel (f : FunctionDecl) (frame : FrameId) :
    (s.relabel ρ).makeClosure (f.relabel ρ) frame =
      relabelMade ρ (s.makeClosure f frame) := rfl

@[simp] theorem bindMethod_relabel (method : Closure) (object : Value) :
    (s.relabel ρ).bindMethod (method.relabel ρ) (object.relabel ρ) =
      relabelMade ρ (s.bindMethod method object) := by
  simp only [bindMethod, nextFrame_relabel]
  rw [← Table.map_empty (Value.relabel ρ), Table.insert_map]
  show ((s.relabel ρ).addFrame _ _).makeClosure (method.declaration.relabel ρ) _ = _
  rw [addFrame_relabel, makeClosure_relabel]
  rfl

end Store

end Lox
