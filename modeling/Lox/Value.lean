import Lox.Names
import Lox.Scopes
import Lox.Syntax

/-!
The values that programs compute with. Functions, classes and instances have
an identity, a number that no other one of their kind shares; what an instance
holds in its fields is kept apart, because it changes.
-/

namespace Lox

/-- Functions that programs can call without having declared them. -/
inductive Native where
  /-- The time in seconds. -/
  | clock
deriving DecidableEq, Repr

def Native.name : Native → String
  | .clock => "clock"

def Native.arity : Native → Nat
  | .clock => 0

/-- A routine with the scope it was declared in. -/
structure Closure where
  routine : Routine
  scope : ScopeId
  /-- Calls give back the receiver, whatever the body returns. -/
  yieldsReceiver : Bool

/-- A class. Its methods and the methods of the class itself are inherited side
by side, along the same superclasses. -/
structure Class where
  identity : Nat
  name : String
  methods : Names Closure
  classMethods : Names Closure
  superclass : Option Class

/-- The method that instances of a class answer to under a name. -/
def Class.method? (name : String) : Class → Option Closure
  | ⟨_, _, methods, _, none⟩ => methods.find? name
  | ⟨_, _, methods, _, some superclass⟩ =>
      (methods.find? name).or (Class.method? name superclass)

/-- The method that a class itself answers to under a name. -/
def Class.classMethod? (name : String) : Class → Option Closure
  | ⟨_, _, _, classMethods, none⟩ => classMethods.find? name
  | ⟨_, _, _, classMethods, some superclass⟩ =>
      (classMethods.find? name).or (Class.classMethod? name superclass)

inductive Value where
  | nil
  | boolean (value : Bool)
  | number (value : Float)
  | string (text : String)
  | native (provided : Native)
  | function (identity : Nat) (closure : Closure)
  | classValue (cls : Class)
  | object (identity : Nat) (cls : Class)

instance : Inhabited Value := ⟨.nil⟩

namespace Value

def ofLiteral : Literal → Value
  | .number value => .number value
  | .string text => .string text
  | .boolean value => .boolean value
  | .nil => .nil

def isTruthy : Value → Bool
  | .nil => false
  | .boolean value => value
  | _ => true

/-- Equality as programs see it: values of different kinds differ, numbers
compare as doubles, and what has an identity is equal only to itself. -/
def same : Value → Value → Bool
  | .nil, .nil => true
  | .boolean left, .boolean right => left == right
  | .number left, .number right => left == right
  | .string left, .string right => left == right
  | .native left, .native right => left == right
  | .function left _, .function right _ => left == right
  | .classValue left, .classValue right => left.identity == right.identity
  | .object left _, .object right _ => left == right
  | _, _ => false

/-- What `print` shows. -/
def text : Value → String
  | .nil => "nil"
  | .boolean value => if value then "true" else "false"
  | .number value => Number.printed.render value
  | .string text => text
  | .native _ => "<native fn>"
  | .function _ closure =>
      match closure.routine.name with
      | some name => "<fn " ++ name.lexeme ++ ">"
      | none => "<fn>"
  | .classValue cls => cls.name
  | .object _ cls => cls.name ++ " instance"

/-- The name of the kind of a value. -/
def kindName : Value → String
  | .nil => "nil"
  | .boolean _ => "boolean"
  | .number _ => "number"
  | .string _ => "string"
  | .native _ => "function"
  | .function _ _ => "function"
  | .classValue _ => "class"
  | .object _ _ => "instance"

end Value

/-- What a call expression can call. -/
inductive Callable where
  | native (provided : Native)
  | closure (declared : Closure)
  | construction (cls : Class)

def Value.callable? : Value → Option Callable
  | .native provided => some (.native provided)
  | .function _ closure => some (.closure closure)
  | .classValue cls => some (.construction cls)
  | _ => none

/-- The number of arguments a call has to give. -/
def Callable.arity : Callable → Nat
  | .native provided => provided.arity
  | .closure declared => declared.routine.arity
  | .construction cls => ((cls.method? initializerName).map (·.routine.arity)).getD 0

end Lox
