import Std.Data.TreeMap
import Lox.Binding
import Lox.Operators
import Lox.Sink

/-!
The state of a running program and the steps that change it. A run that stops
early says why and still leaves the machine as it was at that point, so that a
session can go on after an error.
-/

namespace Lox

structure Machine where
  scopes : Scopes Value
  /-- The scope of the top level. -/
  globals : ScopeId
  /-- The scope of the code that is being run. -/
  current : ScopeId
  /-- How many calls are under way. -/
  depth : Nat
  /-- For each occurrence with a bond, the number of scopes to its binding. -/
  distances : Std.TreeMap Nat Nat
  /-- The fields of every instance, in the order in which they were made. -/
  fields : Array (Names Value)
  /-- How many functions and classes have been made. -/
  identities : Nat
  sink : Sink
  /-- Microseconds since the epoch. Each look at the clock takes one. -/
  time : Nat

/-- A machine before its first program, with the native functions in its global
scope. -/
def Machine.start (sink : Sink) (time : Nat) : Machine where
  scopes := Scopes.empty.extend none
    (.ofList ([Native.clock].map fun provided => (provided.name, .native provided)))
  globals := 0
  current := 0
  depth := 0
  distances := ∅
  fields := #[]
  identities := 0
  sink := sink
  time := time

/-- Why a run stops before its end. -/
inductive Halt where
  | failed (diagnostic : Diagnostic)
  /-- The bound on the length of the run was reached. -/
  | exhausted
deriving DecidableEq, Repr

abbrev Run := EStateM Halt Machine

/-- How a statement ends that neither fails nor goes on for ever. -/
inductive Completion where
  | normal
  /-- The routine around the statement is to return this value. -/
  | returned (value : Value)

/-- The deepest nesting of calls. -/
def callLimit : Nat := 1000

/-- Record how far out an occurrence is bound. -/
def Machine.bond (machine : Machine) (id distance : Nat) : Machine :=
  { machine with distances := machine.distances.insert id distance }

/-- Record everything that an analysis found. -/
def Machine.bondAll (machine : Machine) (bonds : List Bond) : Machine :=
  bonds.foldl (fun machine bond => machine.bond bond.place.id bond.distance) machine

namespace Run

variable {α : Type}

def fail (line : Nat) (cause : Fault) : Run α := throw (.failed (.fault line cause))

/-- A result of the operators, blamed on a line. -/
def blame (line : Nat) : Except Fault α → Run α
  | .ok value => pure value
  | .error cause => fail line cause

/-- Run in another scope, and come back to this one however that ends. -/
@[inline] def within (scope : ScopeId) (action : Run α) : Run α := fun machine =>
  let outer := machine.current
  match action { machine with current := scope } with
  | .ok value after => .ok value { after with current := outer }
  | .error halt after => .error halt { after with current := outer }

/-- Run one call deeper, and come back up however that ends, unless the limit
is reached. -/
@[inline] def nested (line : Nat) (action : Run α) : Run α := fun machine =>
  if callLimit ≤ machine.depth then
    .error (.failed (.fault line .stackOverflow)) machine
  else
    match action { machine with depth := machine.depth + 1 } with
    | .ok value after => .ok value { after with depth := after.depth - 1 }
    | .error halt after => .error halt { after with depth := after.depth - 1 }

def openScope (parent : ScopeId) (names : Names Value) : Run ScopeId :=
  modifyGet fun machine =>
    (machine.scopes.size, { machine with scopes := machine.scopes.extend (some parent) names })

def currentScope : Run ScopeId := return (← get).current

/-- Declare a name in the current scope. -/
def define (name : String) (value : Value) : Run Unit :=
  modify fun machine =>
    { machine with scopes := machine.scopes.define machine.current name value }

/-- The scope that an occurrence refers to, if that scope has its name: the one
at the distance of its bond, or the global one if it has none. -/
def holder? (machine : Machine) (place : Occurrence) : Option ScopeId :=
  match machine.distances[place.id]? with
  | some distance => machine.scopes.holderAt? machine.current distance place.name.lexeme
  | none => machine.scopes.holder? machine.globals place.name.lexeme

/-- The fault of an occurrence that refers to nothing. -/
def unknownName (machine : Machine) (place : Occurrence) : Fault :=
  if machine.distances.contains place.id then .unboundLocal place.name.lexeme
  else .undefinedVariable place.name.lexeme

def lookUp (place : Occurrence) : Run Value := fun machine =>
  match (holder? machine place).bind (machine.scopes.local? · place.name.lexeme) with
  | some value => .ok value machine
  | none => fail place.name.line (unknownName machine place) machine

def assign (place : Occurrence) (value : Value) : Run Unit := fun machine =>
  match holder? machine place with
  | some scope =>
      .ok () { machine with scopes := machine.scopes.define scope place.name.lexeme value }
  | none => fail place.name.line (unknownName machine place) machine

/-- A number that no function and no class has had yet. -/
def freshIdentity : Run Nat :=
  modifyGet fun machine =>
    (machine.identities, { machine with identities := machine.identities + 1 })

def makeFunction (closure : Closure) : Run Value :=
  return .function (← freshIdentity) closure

/-- A function of the given routine that sees the current scope. -/
def closeOver (routine : Routine) : Run Value := do
  makeFunction ⟨routine, ← currentScope, false⟩

/-- A new instance without fields. -/
def makeInstance (cls : Class) : Run Value :=
  modifyGet fun machine =>
    (.object machine.fields.size cls, { machine with fields := machine.fields.push .empty })

def field? (identity : Nat) (name : String) : Run (Option Value) :=
  return (← get).fields[identity]?.bind (·.find? name)

def setField (identity : Nat) (name : String) (value : Value) : Run Unit :=
  modify fun machine =>
    { machine with fields := machine.fields.modify identity (·.set name value) }

def write (text : String) : Run Unit := fun machine =>
  match machine.sink.write? text with
  | some sink => .ok () { machine with sink := sink }
  | none => .error (.failed .outputClosed) machine

/-- A value on a line of its own. -/
def print (value : Value) : Run Unit := do
  write value.text
  write "\n"

def readClock : Run Value :=
  modifyGet fun machine =>
    (.number (Float.ofNat machine.time / 1000000), { machine with time := machine.time + 1 })

/-- A method that knows its receiver, through a scope of its own that holds
nothing else. -/
def bindReceiver (method : Closure) (receiver : Value) : Run Closure := do
  let scope ← openScope method.scope (.ofList [(receiverName, receiver)])
  return { method with scope := scope }

/-- The receiver that a bound method knows. -/
def receiverOf (method : Closure) : Run Value :=
  return ((← get).scopes.local? method.scope receiverName).getD .nil

/-- Methods by name; the last of one name counts. -/
def methodTable (routines : List Routine) (scope : ScopeId) (initializers : Bool) :
    Names Closure :=
  .ofList (routines.map fun routine =>
    (routine.label, ⟨routine, scope, initializers && routine.label = initializerName⟩))

/-- A new class below a given superclass, if any. Its methods see the current
scope, and through a scope of its own that holds nothing else the superclass. -/
def makeClass (name : Token) (superclass : Option Class)
    (methods classMethods : List Routine) : Run Value := do
  let outer ← currentScope
  let scope ← match superclass with
    | none => pure outer
    | some cls => openScope outer (.ofList [(superclassName, .classValue cls)])
  let identity ← freshIdentity
  return .classValue
    { identity
      name := name.lexeme
      methods := methodTable methods scope true
      classMethods := methodTable classMethods scope false
      superclass }

/-- The method of the superclass that an occurrence of `super` asks for, if
there is one, and the receiver it is for. The scope of the receiver lies just
inside of the one that holds the superclass. -/
def inheritedMethod (place : Occurrence) (method : Token) : Run (Option Closure × Value) := do
  let machine ← get
  let line := place.name.line
  match machine.distances[place.id]? with
  | none => fail line .superUnavailable
  | some distance =>
      match machine.scopes.readAt? machine.current distance place.name.lexeme with
      | none => fail line (.unboundLocal place.name.lexeme)
      | some (.classValue superclass) =>
          match machine.scopes.readAt? machine.current (distance - 1) receiverName with
          | none => fail line (.unboundLocal receiverName)
          | some receiver =>
              return match receiver with
                | .classValue _ => (superclass.classMethod? method.lexeme, receiver)
                | _ => (superclass.method? method.lexeme, receiver)
      | some _ => fail line .superclassNotClass

/-- The parameters of a routine, each with its argument. -/
def parameterNames (routine : Routine) (arguments : List Value) : Names Value :=
  .ofList (((routine.parameters.getD []).map Token.lexeme).zip arguments)

/-- What a routine gives back once its body has run. -/
def result (closure : Closure) (completion : Completion) : Run Value :=
  if closure.yieldsReceiver then receiverOf closure
  else
    match completion with
    | .normal => return .nil
    | .returned value => return value

end Run

end Lox
