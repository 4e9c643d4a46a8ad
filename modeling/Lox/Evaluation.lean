import Lox.Machine

/-!
Running programs. Expressions give values and statements run to completion or
ask the routine around them to return. What one construct does is said once,
for any way to carry out the parts it is made of; a run is the way that does so
by the same rules. As programs need not end, every step into a part uses up one
unit of a supply; a run that is given too little stops as exhausted, which is
no error of the program.
-/

namespace Lox

/-- A setting for programs: something that acts on a machine and can act in
another scope or one call deeper. -/
class Setting (m : Type → Type) extends Monad m where
  act {α : Type} : Run α → m α
  within {α : Type} : ScopeId → m α → m α
  nested {α : Type} : Nat → m α → m α

instance : Setting Run where
  act action := action
  within := Run.within
  nested := Run.nested

instance {m : Type → Type} [Setting m] : MonadLift Run m := ⟨Setting.act⟩

/-- A way to carry out the parts that a construct is made of. -/
structure Parts (m : Type → Type) where
  evaluate : Expression → m Value
  execute : Statement → m Completion
  call : Closure → List Value → m Value

namespace Parts

open Run Setting

variable {m : Type → Type} [Setting m]

/-- Evaluate expressions from left to right. -/
@[specialize] def evaluateAll (parts : Parts m) : List Expression → m (List Value)
  | [] => return []
  | first :: rest => do
      let value ← parts.evaluate first
      let values ← evaluateAll parts rest
      return value :: values

/-- Run statements one after the other, up to the first that returns. -/
@[specialize] def inOrder (parts : Parts m) : List Statement → m Completion
  | [] => return .normal
  | first :: rest => do
      match ← parts.execute first with
      | .normal => inOrder parts rest
      | .returned value => return .returned value

/-- Call a closure: its body runs in a new scope that holds the arguments. -/
@[inline] def application (parts : Parts m) (closure : Closure) (arguments : List Value) :
    m Value := do
  let scope ← openScope closure.scope (parameterNames closure.routine arguments)
  let completion ← within scope (parts.inOrder closure.routine.body)
  result closure completion

/-- Make an instance and run its initializer, if its class has one. -/
@[specialize] def construct (parts : Parts m) (cls : Class) (arguments : List Value) :
    m Value := do
  let object ← makeInstance cls
  match cls.method? initializerName with
  | some initializer =>
      let bound ← bindReceiver initializer object
      let _ ← parts.call bound arguments
      return object
  | none => return object

/-- Call something with as many arguments as it has to be given. -/
@[specialize] def invoke (parts : Parts m) (arguments : List Value) : Callable → m Value
  | .native .clock => readClock
  | .closure declared => parts.call declared arguments
  | .construction cls => parts.construct cls arguments

/-- Call a value, which has to be callable with that many arguments. -/
@[specialize] def callValue (parts : Parts m) (callee : Value) (line : Nat)
    (arguments : List Value) : m Value :=
  match callee.callable? with
  | none => (fail line .notCallable : Run Value)
  | some callable =>
      if arguments.length ≠ callable.arity then
        (fail line (.wrongArgumentCount callable.arity arguments.length) : Run Value)
      else nested line (parts.invoke arguments callable)

/-- A method of a receiver, found under a name: getters are called at once. -/
@[specialize] def access (parts : Parts m) (method : Option Closure) (receiver : Value)
    (name : Token) : m Value := do
  match method with
  | none => (fail name.line (.undefinedProperty name.lexeme) : Run Value)
  | some method =>
      let bound ← bindReceiver method receiver
      if bound.routine.isGetter then nested name.line (parts.call bound [])
      else makeFunction bound

/-- A property of an object: its fields come before the methods of its class. -/
@[specialize] def property (parts : Parts m) (object : Value) (name : Token) : m Value := do
  match object with
  | .object identity cls =>
      match ← field? identity name.lexeme with
      | some value => return value
      | none => parts.access (cls.method? name.lexeme) object name
  | .classValue cls => parts.access (cls.classMethod? name.lexeme) object name
  | _ => (fail name.line .noProperties : Run Value)

/-- The class that a class declaration inherits from. -/
@[specialize] def superclassOf (parts : Parts m) : Option Occurrence → m (Option Class)
  | none => return none
  | some place => do
      match ← parts.evaluate (.reference place) with
      | .classValue cls => return some cls
      | _ => (fail place.name.line .superclassNotClass : Run (Option Class))

@[inline] def evaluation (parts : Parts m) : Expression → m Value
  | .literal value => return .ofLiteral value
  | .grouping inner => parts.evaluate inner
  | .unary operator operand => do
      let value ← parts.evaluate operand
      blame operator.line (unaryResult operator.kind value)
  | .binary left operator right => do
      let first ← parts.evaluate left
      let second ← parts.evaluate right
      blame operator.line (binaryResult operator.kind first second)
  | .logical left operator right => do
      let first ← parts.evaluate left
      if decides operator.kind first then return first else parts.evaluate right
  | .conditional condition thenBranch elseBranch => do
      let value ← parts.evaluate condition
      if value.isTruthy then parts.evaluate thenBranch else parts.evaluate elseBranch
  | .reference place => lookUp place
  | .assign place value => do
      let result ← parts.evaluate value
      assign place result
      return result
  | .call callee closing arguments => do
      let function ← parts.evaluate callee
      let values ← parts.evaluateAll arguments
      parts.callValue function closing.line values
  | .get object name => do
      let target ← parts.evaluate object
      parts.property target name
  | .set object name value => do
      match ← parts.evaluate object with
      | .object identity _ =>
          let result ← parts.evaluate value
          setField identity name.lexeme result
          return result
      | _ => (fail name.line .noFields : Run Value)
  | .lambda routine => closeOver routine
  | .receiver place => lookUp place
  | .inherited place method => do
      let (found, receiver) ← inheritedMethod place method
      parts.access found receiver method

@[inline] def execution (parts : Parts m) : Statement → m Completion
  | .expression value => do
      let _ ← parts.evaluate value
      return .normal
  | .print value => do
      let result ← parts.evaluate value
      print result
      return .normal
  | .variableDeclaration name none => do
      define name.lexeme .nil
      return .normal
  | .variableDeclaration name (some initializer) => do
      let value ← parts.evaluate initializer
      define name.lexeme value
      return .normal
  | .block statements => do
      let outer ← currentScope
      let scope ← openScope outer .empty
      within scope (parts.inOrder statements)
  | .conditional condition thenBranch elseBranch => do
      let value ← parts.evaluate condition
      if value.isTruthy then parts.execute thenBranch
      else
        match elseBranch with
        | some statement => parts.execute statement
        | none => return .normal
  | .loop condition body => do
      let value ← parts.evaluate condition
      if value.isTruthy then
        match ← parts.execute body with
        | .normal => parts.execute (.loop condition body)
        | .returned value => return .returned value
      else return .normal
  | .routineDeclaration routine => do
      let function ← closeOver routine
      define routine.label function
      return .normal
  | .exit _ none => return .returned .nil
  | .exit _ (some value) => do
      let result ← parts.evaluate value
      return .returned result
  | .classDeclaration name superclass methods classMethods => do
      let parent ← parts.superclassOf superclass
      let declared ← makeClass name parent methods classMethods
      define name.lexeme declared
      return .normal

/-- A whole program. A return at its top level just ends it. -/
@[inline] def program (parts : Parts m) (statements : List Statement) : m Unit := do
  let _ ← parts.inOrder statements

end Parts

mutual

def evaluate : (supply : Nat) → Expression → Run Value
  | 0, _ => throw .exhausted
  | supply + 1, expression =>
      Parts.evaluation ⟨evaluate supply, execute supply, call supply⟩ expression

def execute : (supply : Nat) → Statement → Run Completion
  | 0, _ => throw .exhausted
  | supply + 1, statement =>
      Parts.execution ⟨evaluate supply, execute supply, call supply⟩ statement

def call : (supply : Nat) → Closure → List Value → Run Value
  | 0, _, _ => throw .exhausted
  | supply + 1, closure, arguments =>
      Parts.application ⟨evaluate supply, execute supply, call supply⟩ closure arguments

end

/-- The way that carries out parts by the rules for constructs, as far as the
supply goes. -/
@[inline] def Parts.supplied (supply : Nat) : Parts Run :=
  ⟨Lox.evaluate supply, Lox.execute supply, Lox.call supply⟩

def runProgram (supply : Nat) (statements : List Statement) : Run Unit :=
  (Parts.supplied supply).program statements

end Lox
