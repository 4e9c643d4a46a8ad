import Lox.Token

/-!
The trees that programs are read into. A tree keeps the tokens that later
diagnostics point at. Each place where a name is used has a number of its own,
because the binding of a name is decided once for each such place.
-/

namespace Lox

/-- One place in a program where a name is looked up or assigned. -/
structure Occurrence where
  id : Nat
  name : Token
deriving DecidableEq, Repr

inductive Literal where
  | number (value : Float)
  | string (text : String)
  | boolean (value : Bool)
  | nil
deriving DecidableEq, Repr

mutual

/-- A function or method as it stands in the source. -/
structure Routine where
  /-- Absent in a function expression. -/
  name : Option Token
  /-- A method without a parameter list is a getter. -/
  parameters : Option (List Token)
  body : List Statement

inductive Expression where
  | literal (value : Literal)
  | grouping (inner : Expression)
  | unary (operator : Token) (operand : Expression)
  | binary (left : Expression) (operator : Token) (right : Expression)
  | logical (left : Expression) (operator : Token) (right : Expression)
  | conditional (condition thenBranch elseBranch : Expression)
  | reference (place : Occurrence)
  | assign (place : Occurrence) (value : Expression)
  /-- The closing parenthesis is where a failing call is reported. -/
  | call (callee : Expression) (closing : Token) (arguments : List Expression)
  | get (object : Expression) (name : Token)
  | set (object : Expression) (name : Token) (value : Expression)
  | lambda (routine : Routine)
  | receiver (place : Occurrence)
  | inherited (place : Occurrence) (method : Token)

inductive Statement where
  | expression (value : Expression)
  | print (value : Expression)
  | variableDeclaration (name : Token) (initializer : Option Expression)
  | block (statements : List Statement)
  | conditional (condition : Expression) (thenBranch : Statement) (elseBranch : Option Statement)
  | loop (condition : Expression) (body : Statement)
  | routineDeclaration (routine : Routine)
  | exit (keyword : Token) (value : Option Expression)
  | classDeclaration (name : Token) (superclass : Option Occurrence)
      (methods classMethods : List Routine)

end

instance : Inhabited Expression := ⟨.literal .nil⟩
instance : Inhabited Statement := ⟨.block []⟩
instance : Inhabited Routine := ⟨⟨none, none, []⟩⟩

def Routine.arity (routine : Routine) : Nat := (routine.parameters.map List.length).getD 0

theorem Routine.arity_eq (routine : Routine) :
    routine.arity = (routine.parameters.getD []).length := by
  unfold arity
  cases routine.parameters <;> rfl

def Routine.isGetter (routine : Routine) : Bool := routine.parameters.isNone

/-- The name under which a routine is declared. -/
def Routine.label (routine : Routine) : String := (routine.name.map Token.lexeme).getD ""

/-- The name that methods know their receiver by. -/
def receiverName : String := "self"

/-- The name that methods know the superclass of their class by. -/
def superclassName : String := "super"

/-- The method that sets up a new instance. -/
def initializerName : String := "init"

end Lox
