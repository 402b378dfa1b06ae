import Lox.Stmt
import Lox.Table

/-!
# Values

What expressions evaluate to.  Functions, classes and instances are known by
an identity.  Their immutable parts, the declaration of a function, the
methods and ancestors of a class, the class of an instance, are part of the
value; what changes, the variables of a frame and the fields of an object,
is kept in a store under the numbers that values carry.
-/

namespace Lox

/-- The number of a frame in the store. -/
abbrev FrameId := Nat

/-- The number of an object, a class or an instance, in the store. -/
abbrev ObjectId := Nat

/-- A declared function with the frame it closes over.  Two functions are the
same only if they have the same identity. -/
structure Closure where
  identity : Nat
  declaration : FunctionDecl
  frame : FrameId

/-- What a class has of its own. -/
structure ClassInfo where
  id : ObjectId
  name : String
  methods : Table Closure
  statics : Table Closure

/-- A class: what it has of its own, and its superclass if it has one. -/
inductive Class where
  | base (info : ClassInfo)
  | derived (info : ClassInfo) (superclass : Class)

/-- An object made by calling a class. -/
structure Instance where
  id : ObjectId
  cls : Class

/-- A function of the host.  Its number selects what it does. -/
structure Native where
  id : Nat
  name : String
  arity : Nat
  deriving Repr, DecidableEq

/-- A value of a program. -/
inductive Value where
  | nil
  | bool (value : Bool)
  | number (value : Float)
  | string (content : String)
  | native (function : Native)
  | function (closure : Closure)
  | cls (definition : Class)
  | inst (object : Instance)

namespace Closure

/-- The name the function was declared with. -/
def name (f : Closure) : String :=
  f.declaration.name.name

/-- How many arguments the function takes. -/
def arity (f : Closure) : Nat :=
  f.declaration.params.length

/-- Whether the function runs as soon as it is read from an object. -/
def isGetter (f : Closure) : Bool :=
  f.declaration.kind == .getter

end Closure

namespace Class

/-- What the class has of its own. -/
def info : Class → ClassInfo
  | base info => info
  | derived info _ => info

/-- The name the class was declared with. -/
def name (c : Class) : String :=
  c.info.name

/-- The number under which the fields of the class are stored. -/
def id (c : Class) : ObjectId :=
  c.info.id

/-- The nearest method of a name: that of the class itself, or else that of
its superclass. -/
def findMethod? (name : String) : Class → Option Closure
  | base info => info.methods.find? name
  | derived info superclass =>
    match info.methods.find? name with
    | some f => some f
    | none => superclass.findMethod? name

/-- The nearest static method of a name. -/
def findStatic? (name : String) : Class → Option Closure
  | base info => info.statics.find? name
  | derived info superclass =>
    match info.statics.find? name with
    | some f => some f
    | none => superclass.findStatic? name

/-- How many arguments a call of the class takes: those of its initializer,
or none. -/
def arity (c : Class) : Nat :=
  match c.findMethod? initializerName with
  | some f => f.arity
  | none => 0

end Class

namespace Value

/-- Only `nil` and `false` count as false. -/
def truthy : Value → Bool
  | nil => false
  | bool value => value
  | _ => true

/-- The name of the kind of a value. -/
def kind : Value → String
  | nil => "nil"
  | bool _ => "bool"
  | number _ => "number"
  | string _ => "string"
  | native _ => "function"
  | function _ => "function"
  | cls _ => "class"
  | inst _ => "instance"

/-- What `print` writes for a value. -/
def display : Value → String
  | nil => "nil"
  | bool value => if value then "true" else "false"
  | number value => Number.display value
  | string content => content
  | native _ => "<native fn>"
  | function f => s!"<fn {f.name}>"
  | cls c => c.name
  | inst object => s!"{object.cls.name} instance"

/-- Equality of a program: values of different kinds differ, numbers compare
as numbers, and functions, classes and instances by identity. -/
def equal : Value → Value → Bool
  | nil, nil => true
  | bool a, bool b => a == b
  | number a, number b => a == b
  | string a, string b => a == b
  | native a, native b => a.id == b.id
  | function a, function b => a.identity == b.identity
  | cls a, cls b => a.id == b.id
  | inst a, inst b => a.id == b.id
  | _, _ => false

/-- The value of a literal. -/
def ofLiteral : Literal → Value
  | .nil => nil
  | .bool value => bool value
  | .number value => number value
  | .string content => string content

end Value

end Lox
