import Lox.Proofs.Machine.Members

/-!
# The declarations of classes

What a class has of its own comes from its declaration: for each name and sort
the last member that the declaration has (`Declares.members`).  `Declares` says
which class the next step of a machine makes, and from which declaration.
-/

namespace Lox

/-- Whether the function is a member of this sort and name. -/
def FunctionDecl.isMember (static : Bool) (name : String) (f : FunctionDecl) :
    Bool :=
  (f.kind == .static) == static && f.name.name == name

/-- The member of this sort and name that the declaration gives to its class: of
several the last one. -/
def ClassDecl.member? (declaration : ClassDecl) (static : Bool)
    (name : String) : Option FunctionDecl :=
  declaration.methods.reverse.find? (FunctionDecl.isMember static name)

namespace Machine

/-! ## Making members -/

/-- The members with one more, which takes the place of what there is of its
sort and name. -/
def Members.add (members : Members) (f : FunctionDecl) (closure : Closure) :
    Members :=
  if f.kind = .static then
    { members with statics := members.statics.insert f.name.name closure }
  else
    { members with methods := members.methods.insert f.name.name closure }

/-- The members of one sort. -/
def Members.ofSort (members : Members) (static : Bool) : Table Closure :=
  if static then members.statics else members.methods

theorem Members.find?_add (members : Members) (f : FunctionDecl)
    (closure : Closure) (static : Bool) (name : String) :
    ((members.add f closure).ofSort static).find? name =
      if f.isMember static name then some closure
      else (members.ofSort static).find? name := by
  have hname : (f.name.name == name) = decide (name = f.name.name) := by
    rw [Bool.eq_iff_iff, beq_iff_eq, decide_eq_true_iff, eq_comm]
  by_cases hkind : f.kind = .static <;> cases static <;>
    simp [add, ofSort, FunctionDecl.isMember, hkind, hname, Table.find?_insert]

/-- Of the members that are made the last one of each sort and name counts. -/
theorem declaration_makeMembers (frame : FrameId) (list : List FunctionDecl)
    (members : Members) (store : Store) (static : Bool) (name : String) :
    (((makeMembers frame list members store).1.ofSort static).find? name).map
        Closure.declaration =
      (list.reverse.find? (FunctionDecl.isMember static name)).or
        (((members.ofSort static).find? name).map Closure.declaration) := by
  induction list generalizing members store with
  | nil => rfl
  | cons f rest ih =>
    have hstep : makeMembers frame (f :: rest) members store =
        makeMembers frame rest (members.add f (store.makeClosure f frame).2)
          (store.makeClosure f frame).1 := rfl
    rw [hstep, ih, Members.find?_add, List.reverse_cons, List.find?_append,
      Option.or_assoc, List.find?_singleton]
    split <;> rfl

/-! ## Making classes -/

/-- The next step makes the class of the declaration: a class statement without
superclass starts, or the superclass is there. -/
inductive Declares (m : Machine) (declaration : ClassDecl) : Class → Prop where
  | base (statement : m.control = .exec (.class declaration))
      (superclass : declaration.superclass = none) :
      Declares m declaration (.base (infoOf declaration
        (makeMembers m.state.frame declaration.methods ⟨.empty, .empty⟩
          (m.state.store.define m.state.frame declaration.name.name .nil))))
  | derived {parent : Class} {line : Nat} {rest : List Pending}
      (named : m.control = .value (.cls parent))
      (waits : m.stack = .superclass declaration line :: rest) :
      Declares m declaration (.derived (infoOf declaration
        (makeMembers m.state.store.nextFrame declaration.methods
          ⟨.empty, .empty⟩ (superStore parent m.state))) parent)

/-- What a class has of its own are the members of its declaration. -/
theorem Declares.members {m : Machine} {declaration : ClassDecl} {c : Class}
    (h : Declares m declaration c) (static : Bool) (name : String) :
    ((c.info.members static).find? name).map Closure.declaration =
      declaration.member? static name := by
  have hmade (frame : FrameId) (store : Store) :
      (((infoOf declaration (makeMembers frame declaration.methods
        ⟨.empty, .empty⟩ store)).members static).find? name).map
          Closure.declaration = declaration.member? static name := by
    refine (declaration_makeMembers frame _ _ store static name).trans ?_
    cases static <;> exact Option.or_none
  cases h with
  | base => exact hmade _ _
  | derived => exact hmade _ _

end Machine

end Lox
