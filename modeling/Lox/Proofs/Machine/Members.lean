import Lox.Proofs.Machine.Labels
import Lox.Proofs.Store.Loops

/-!
# The members of a class

A class holds functions: its methods and its static methods, and those of its
ancestors.  `Class.find?` looks up both sorts alike: the nearest class counts
that has the name.  `Class.All` says of all functions that they have a property;
one that is found has it then, wherever it was declared.  A class statement makes
its members one after the other from its declarations (`all_makeMembers`), and
changes nothing in the store but the count of functions.
-/

namespace Lox

/-- What holds of all arguments holds of all parameters. -/
theorem Table.forall_insertAll {α : Type} {P : α → Prop} (names : List String)
    {values : List α} (h : ∀ v ∈ values, P v) (name : String) (v : α)
    (hv : (Table.empty.insertAll (names.zip values)).find? name = some v) :
    P v := by
  rcases Table.mem_of_find?_insertAll hv with hmem | hempty
  · obtain ⟨item, hitem, rfl⟩ := List.mem_map.1 hmem
    exact h _ (List.of_mem_zip hitem).2
  · cases hempty

/-! ## Classes -/

/-- The class, its superclass, the superclass of that one, and so on. -/
def Class.lineage : Class → List Class
  | base info => [base info]
  | derived info superclass => derived info superclass :: superclass.lineage

theorem Class.mem_lineage_self (c : Class) : c ∈ c.lineage := by
  cases c <;> exact List.mem_cons_self

theorem Class.lineage_trans {c d e : Class} (h : d ∈ c.lineage)
    (h' : e ∈ d.lineage) : e ∈ c.lineage := by
  induction c with
  | base info =>
    rw [List.mem_singleton.1 h] at h'
    exact h'
  | derived info superclass ih =>
    rcases List.mem_cons.1 h with rfl | h
    · exact h'
    · exact List.mem_cons_of_mem _ (ih h)

/-- The members of one sort that a class has of its own. -/
def ClassInfo.members (info : ClassInfo) (static : Bool) : Table Closure :=
  if static then info.statics else info.methods

/-- The member of this sort and name of the nearest class that has one. -/
def Class.find? (c : Class) (static : Bool) (name : String) : Option Closure :=
  c.lineage.findSome? fun d => (d.info.members static).find? name

namespace Class

variable {info : ClassInfo} {superclass : Class} {static : Bool} {name : String}

theorem find?_base :
    (base info).find? static name = (info.members static).find? name := by
  simp only [find?, lineage, List.findSome?_cons, List.findSome?_nil]
  cases h : ((base info).info.members static).find? name <;> exact h.symm

theorem find?_derived :
    (derived info superclass).find? static name =
      ((info.members static).find? name).or (superclass.find? static name) := by
  simp only [find?, lineage, List.findSome?_cons]
  have hinfo : (derived info superclass).info = info := rfl
  rw [hinfo]
  cases (info.members static).find? name <;> rfl

theorem findMethod?_eq (c : Class) (name : String) :
    c.findMethod? name = c.find? false name := by
  induction c with
  | base info =>
    rw [find?_base]
    rfl
  | derived info superclass ih =>
    have hmembers : info.members false = info.methods := rfl
    rw [findMethod?, find?_derived, ← ih, hmembers]
    cases info.methods.find? name <;> rfl

theorem findStatic?_eq (c : Class) (name : String) :
    c.findStatic? name = c.find? true name := by
  induction c with
  | base info =>
    rw [find?_base]
    rfl
  | derived info superclass ih =>
    have hmembers : info.members true = info.statics := rfl
    rw [findStatic?, find?_derived, ← ih, hmembers]
    cases info.statics.find? name <;> rfl

end Class

/-- What is said holds of all functions that the class has of its own. -/
structure ClassInfo.All (P : Closure → Prop) (info : ClassInfo) : Prop where
  methods : ∀ name f, info.methods.find? name = some f → P f
  statics : ∀ name f, info.statics.find? name = some f → P f

/-- What is said holds of all functions of the class and of its ancestors. -/
def Class.All (P : Closure → Prop) (c : Class) : Prop :=
  ∀ d ∈ c.lineage, d.info.All P

theorem Class.all_base {P : Closure → Prop} {info : ClassInfo} :
    (base info).All P ↔ info.All P :=
  List.forall_mem_singleton

theorem Class.all_derived {P : Closure → Prop} {info : ClassInfo}
    {superclass : Class} :
    (derived info superclass).All P ↔ info.All P ∧ superclass.All P :=
  List.forall_mem_cons

namespace Class.All

variable {P : Closure → Prop} {c d : Class} {name : String} {f : Closure}

theorem mono {Q : Closure → Prop} (h : c.All P) (himp : ∀ f, P f → Q f) :
    c.All Q :=
  fun d hd => ⟨fun name f hf => himp f ((h d hd).methods name f hf),
    fun name f hf => himp f ((h d hd).statics name f hf)⟩

theorem ancestor (h : c.All P) (hd : d ∈ c.lineage) : d.All P :=
  fun e he => h e (lineage_trans hd he)

theorem find? {static : Bool} (h : c.All P)
    (hf : c.find? static name = some f) : P f := by
  obtain ⟨d, hd, hown⟩ := List.exists_of_findSome?_eq_some hf
  cases static with
  | false => exact (h d hd).methods name f hown
  | true => exact (h d hd).statics name f hown

theorem findMethod? (h : c.All P) (hf : c.findMethod? name = some f) : P f :=
  h.find? (c.findMethod?_eq name ▸ hf)

theorem findStatic? (h : c.All P) (hf : c.findStatic? name = some f) : P f :=
  h.find? (c.findStatic?_eq name ▸ hf)

end Class.All

/-! ## Making classes -/

namespace Machine

theorem frames_makeMembers (frame : FrameId) (list : List FunctionDecl)
    (members : Members) (store : Store) :
    (makeMembers frame list members store).2.frames = store.frames := by
  induction list generalizing members store with
  | nil => rfl
  | cons f rest ih => exact ih _ _

theorem fields_makeMembers (frame : FrameId) (list : List FunctionDecl)
    (members : Members) (store : Store) :
    (makeMembers frame list members store).2.fields = store.fields := by
  induction list generalizing members store with
  | nil => rfl
  | cons f rest ih => exact ih _ _

/-- The members of a class have what every function has that is made of one of
its declarations in this frame. -/
theorem all_makeMembers {P : Closure → Prop} {frame : FrameId}
    {list : List FunctionDecl}
    (hlist : ∀ f ∈ list, ∀ identity, P ⟨identity, f, frame⟩)
    {declaration : ClassDecl} {members : Members} {store : Store}
    (hmembers : (infoOf declaration (members, store)).All P) :
    (infoOf declaration (makeMembers frame list members store)).All P := by
  induction list generalizing members store with
  | nil => exact hmembers
  | cons f rest ih =>
    obtain ⟨hf, hrest⟩ := List.forall_mem_cons.1 hlist
    refine ih hrest ?_
    split
    · exact ⟨hmembers.methods, Table.forall_insert hmembers.statics _ (hf _)⟩
    · exact ⟨Table.forall_insert hmembers.methods _ (hf _), hmembers.statics⟩

/-- The same of a class that has had no members yet. -/
theorem all_infoOf {P : Closure → Prop} {frame : FrameId}
    {declaration : ClassDecl}
    (h : ∀ f ∈ declaration.methods, ∀ identity, P ⟨identity, f, frame⟩)
    (store : Store) :
    (infoOf declaration (makeMembers frame declaration.methods
      ⟨.empty, .empty⟩ store)).All P :=
  all_makeMembers h ⟨by rintro _ _ ⟨⟩, by rintro _ _ ⟨⟩⟩

end Machine

/-- What holds of all values in the store holds of them after members are made. -/
theorem Store.All.makeMembers {P : Value → Prop} {store : Store}
    (h : store.All P) (frame : FrameId) (list : List FunctionDecl)
    (members : Machine.Members) :
    (Machine.makeMembers frame list members store).2.All P := by
  refine ⟨fun f name v hv => h.values f name v ?_,
    fun object name v hv => h.fields object name v ?_⟩
  · unfold Store.valueIn? at hv ⊢
    rw [← Machine.frames_makeMembers frame list members store]
    exact hv
  · unfold Store.field? at hv ⊢
    rw [← Machine.fields_makeMembers frame list members store]
    exact hv

end Lox
