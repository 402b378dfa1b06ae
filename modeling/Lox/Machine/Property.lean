import Lox.Machine.Call

/-!
# Properties and classes

Reading a property of an object: a field of the object itself, or else the
nearest method of its class, bound to the object.  A class is an object too;
its methods are the static ones.  `super` takes a method from the superclass
and binds it to the current `this`.
-/

namespace Lox.Machine

/-- Reads a property: a field, or a method found by `method?` and bound to
the object. -/
def readProperty (set : Setting) (object : Value) (id : ObjectId)
    (method? : String → Option Closure) (owner : String) (name : Ident)
    (stack : List Pending) (st : State) : Machine :=
  match st.store.field? id name.name with
  | some v => settle set v name.line stack st
  | none =>
    match method? name.name with
    | some method =>
      let (store, bound) := st.store.bindMethod method object
      settle set (.function bound) name.line stack { st with store := store }
    | none =>
      ⟨.failed (.undefinedProperty name.name owner name.line), stack, st⟩

/-- Reads a property of a value. -/
def getProperty (set : Setting) (object : Value) (name : Ident)
    (stack : List Pending) (st : State) : Machine :=
  match object with
  | .inst o =>
    readProperty set object o.id (fun name => o.cls.findMethod? name)
      object.display name stack st
  | .cls c =>
    readProperty set object c.id (fun name => c.findStatic? name)
      object.display name stack st
  | _ => ⟨.failed (.notAnInstance .read name.line), stack, st⟩

/-- The number of the object that a value is. -/
def objectId? : Value → Option ObjectId
  | .inst o => some o.id
  | .cls c => some c.id
  | _ => none

/-- Binds a method of `superclass` to the `this` that lies one frame inside
the frame of `super`. -/
def bindSuper (set : Setting) (superclass : Class) (distance line : Nat)
    (method : Ident) (stack : List Pending) (st : State) : Machine :=
  match distance with
  | 0 =>
    ⟨.failed (.undefinedVariable Keyword.kwSuper.lexeme line), stack, st⟩
  | inner + 1 =>
    match st.store.readAt st.frame inner Keyword.kwThis.lexeme line with
    | .error f => ⟨.failed f, stack, st⟩
    | .ok object =>
      match superclass.findMethod? method.name with
      | none =>
        ⟨.failed (.undefinedProperty method.name superclass.name method.line),
          stack, st⟩
      | some f =>
        let (store, bound) := st.store.bindMethod f object
        settle set (.function bound) method.line stack { st with store := store }

/-- Reads a method through `super`. -/
def getSuper (set : Setting) (id line : Nat) (method : Ident)
    (stack : List Pending) (st : State) : Machine :=
  match set.distances.find? id with
  | none =>
    ⟨.failed (.undefinedVariable Keyword.kwSuper.lexeme line), stack, st⟩
  | some distance =>
    match st.store.readAt st.frame distance Keyword.kwSuper.lexeme line with
    | .error f => ⟨.failed f, stack, st⟩
    | .ok (.cls superclass) =>
      bindSuper set superclass distance line method stack st
    | .ok _ => ⟨.failed (.invalidSuperclass line), stack, st⟩

/-! ## Making classes -/

/-- The methods and the static methods of a class that is being made. -/
structure Members where
  methods : Table Closure
  statics : Table Closure

/-- Makes the functions of the members.  Of two members of one name and sort
the later one counts. -/
def makeMembers (frame : FrameId) :
    List FunctionDecl → Members → Store → Members × Store
  | [], members, store => (members, store)
  | f :: rest, members, store =>
    let (store, closure) := store.makeClosure f frame
    let members : Members :=
      if f.kind = .static then
        { members with statics := members.statics.insert f.name.name closure }
      else
        { members with methods := members.methods.insert f.name.name closure }
    makeMembers frame rest members store

/-- Makes a class and gives it to its name.  The members close over the
current frame, or over a new one that holds `super`. -/
def makeClass (declaration : ClassDecl) (superclass : Option Class)
    (stack : List Pending) (st : State) : Machine :=
  let (frame, store) := match superclass with
    | none => (st.frame, st.store)
    | some parent =>
      (st.store.nextFrame, st.store.addFrame (some st.frame)
        (Table.empty.insert Keyword.kwSuper.lexeme (.cls parent)))
  let (members, store) :=
    makeMembers frame declaration.methods ⟨.empty, .empty⟩ store
  let info : ClassInfo :=
    ⟨store.nextObject, declaration.name.name, members.methods,
      members.statics⟩
  let c : Class := match superclass with
    | none => .base info
    | some parent => .derived info parent
  let name := declaration.name
  match store.owner? st.frame name.name with
  | some owner =>
    ⟨.completed .normal, stack,
      { st with store := store.addObject.define owner name.name (.cls c) }⟩
  | none =>
    ⟨.failed (.undefinedVariable name.name name.line), stack,
      { st with store := store }⟩

end Lox.Machine
