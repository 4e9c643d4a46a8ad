import Lox.Session
import Mathlib.Tactic.SplitIfs

/-!
What all constructs have in common. They are put together from primitive steps
on the machine, from their parts, and from a few ways to combine these. Hence a
relation between two settings that holds of the primitive steps and is kept by
the ways to combine relates every construct in one setting to the same construct
in the other, as soon as it relates the parts.
-/

namespace Lox

/-- The steps that constructs take on the machine by themselves. -/
inductive Run.Primitive : {α : Type} → Run α → Prop where
  | fail {α : Type} (line : Nat) (cause : Fault) : Primitive (Run.fail line cause : Run α)
  | blame {α : Type} (line : Nat) (outcome : Except Fault α) : Primitive (Run.blame line outcome)
  | currentScope : Primitive Run.currentScope
  | openScope (parent : ScopeId) (names : Names Value) : Primitive (Run.openScope parent names)
  | define (name : String) (value : Value) : Primitive (Run.define name value)
  | lookUp (place : Occurrence) : Primitive (Run.lookUp place)
  | assign (place : Occurrence) (value : Value) : Primitive (Run.assign place value)
  | makeFunction (closure : Closure) : Primitive (Run.makeFunction closure)
  | closeOver (routine : Routine) : Primitive (Run.closeOver routine)
  | makeInstance (cls : Class) : Primitive (Run.makeInstance cls)
  | field (identity : Nat) (name : String) : Primitive (Run.field? identity name)
  | setField (identity : Nat) (name : String) (value : Value) :
      Primitive (Run.setField identity name value)
  | print (value : Value) : Primitive (Run.print value)
  | readClock : Primitive Run.readClock
  | bindReceiver (method : Closure) (receiver : Value) :
      Primitive (Run.bindReceiver method receiver)
  | makeClass (name : Token) (superclass : Option Class) (methods classMethods : List Routine) :
      Primitive (Run.makeClass name superclass methods classMethods)
  | inheritedMethod (place : Occurrence) (method : Token) :
      Primitive (Run.inheritedMethod place method)
  | result (closure : Closure) (completion : Completion) :
      Primitive (Run.result closure completion)

/-- A relation that the primitive steps keep and the ways to combine them. -/
structure Setting.Relation (m n : Type → Type) [Setting m] [Setting n] where
  Related : {α : Type} → m α → n α → Prop
  pure {α : Type} (value : α) : Related (pure value) (pure value)
  bind {α β : Type} {left : m α} {right : n α} {nextLeft : α → m β} {nextRight : α → n β}
    (first : Related left right)
    (second : ∀ value, Related (nextLeft value) (nextRight value)) :
    Related (left >>= nextLeft) (right >>= nextRight)
  act {α : Type} {action : Run α} (primitive : Run.Primitive action) :
    Related (Setting.act action) (Setting.act action)
  within {α : Type} {left : m α} {right : n α} (scope : ScopeId) (inner : Related left right) :
    Related (Setting.within scope left) (Setting.within scope right)
  nested {α : Type} {left : m α} {right : n α} (line : Nat) (inner : Related left right) :
    Related (Setting.nested line left) (Setting.nested line right)

namespace Setting.Relation

variable {m n : Type → Type} [Setting m] [Setting n] (relation : Relation m n)

/-- All parts are related. -/
structure OfParts (left : Parts m) (right : Parts n) : Prop where
  evaluate (expression : Expression) :
    relation.Related (left.evaluate expression) (right.evaluate expression)
  execute (statement : Statement) :
    relation.Related (left.execute statement) (right.execute statement)
  call (closure : Closure) (arguments : List Value) :
    relation.Related (left.call closure arguments) (right.call closure arguments)

variable {relation} {left : Parts m} {right : Parts n} (parts : relation.OfParts left right)

include parts

theorem evaluate_all_related (expressions : List Expression) :
    relation.Related (left.evaluateAll expressions) (right.evaluateAll expressions) := by
  induction expressions with
  | nil => exact relation.pure _
  | cons first rest induction =>
      apply relation.bind (parts.evaluate first)
      intro value
      exact relation.bind induction fun values => relation.pure _

theorem in_order_related (statements : List Statement) :
    relation.Related (left.inOrder statements) (right.inOrder statements) := by
  induction statements with
  | nil => exact relation.pure _
  | cons first rest induction =>
      apply relation.bind (parts.execute first)
      intro completion
      cases completion with
      | normal => exact induction
      | returned value => exact relation.pure _

theorem application_related (closure : Closure) (arguments : List Value) :
    relation.Related (left.application closure arguments)
      (right.application closure arguments) := by
  apply relation.bind (relation.act (.openScope _ _))
  intro scope
  apply relation.bind (relation.within scope (in_order_related parts _))
  intro completion
  exact relation.act (.result closure completion)

theorem construct_related (cls : Class) (arguments : List Value) :
    relation.Related (left.construct cls arguments) (right.construct cls arguments) := by
  apply relation.bind (relation.act (.makeInstance cls))
  intro object
  cases cls.method? initializerName with
  | none => exact relation.pure _
  | some initializer =>
      apply relation.bind (relation.act (.bindReceiver initializer object))
      intro bound
      exact relation.bind (parts.call bound arguments) fun _ => relation.pure _

theorem invoke_related (arguments : List Value) (callable : Callable) :
    relation.Related (left.invoke arguments callable) (right.invoke arguments callable) := by
  cases callable with
  | native provided =>
      cases provided
      exact relation.act .readClock
  | closure declared => exact parts.call declared arguments
  | construction cls => exact construct_related parts cls arguments

theorem call_value_related (callee : Value) (line : Nat) (arguments : List Value) :
    relation.Related (left.callValue callee line arguments)
      (right.callValue callee line arguments) := by
  unfold Parts.callValue
  cases callee.callable? with
  | none => exact relation.act (.fail line _)
  | some callable =>
      dsimp only
      split_ifs
      · exact relation.act (.fail line _)
      · exact relation.nested line (invoke_related parts arguments callable)

theorem access_related (method : Option Closure) (receiver : Value) (name : Token) :
    relation.Related (left.access method receiver name) (right.access method receiver name) := by
  cases method with
  | none => exact relation.act (.fail name.line _)
  | some method =>
      apply relation.bind (relation.act (.bindReceiver method receiver))
      intro bound
      split_ifs
      · exact relation.nested name.line (parts.call bound [])
      · exact relation.act (.makeFunction bound)

theorem property_related (object : Value) (name : Token) :
    relation.Related (left.property object name) (right.property object name) := by
  cases object with
  | object identity cls =>
      apply relation.bind (relation.act (.field identity name.lexeme))
      intro field
      cases field with
      | some value => exact relation.pure _
      | none => exact access_related parts _ _ name
  | classValue cls => exact access_related parts _ _ name
  | nil | boolean | number | string | native | function => exact relation.act (.fail name.line _)

theorem superclass_of_related (superclass : Option Occurrence) :
    relation.Related (left.superclassOf superclass) (right.superclassOf superclass) := by
  cases superclass with
  | none => exact relation.pure _
  | some place =>
      apply relation.bind (parts.evaluate (.reference place))
      intro value
      cases value with
      | classValue cls => exact relation.pure _
      | nil | boolean | number | string | native | function | object =>
          exact relation.act (.fail place.name.line _)

theorem evaluation_related (expression : Expression) :
    relation.Related (left.evaluation expression) (right.evaluation expression) := by
  have evaluated := parts.evaluate
  cases expression with
  | literal value => exact relation.pure _
  | grouping inner => exact evaluated inner
  | unary operator operand =>
      exact relation.bind (evaluated operand) fun _ => relation.act (.blame operator.line _)
  | binary left operator right =>
      apply relation.bind (evaluated left)
      intro first
      exact relation.bind (evaluated right) fun _ => relation.act (.blame operator.line _)
  | logical left operator right =>
      apply relation.bind (evaluated left)
      intro first
      split_ifs
      · exact relation.pure _
      · exact evaluated right
  | conditional condition thenBranch elseBranch =>
      apply relation.bind (evaluated condition)
      intro value
      split_ifs
      · exact evaluated thenBranch
      · exact evaluated elseBranch
  | reference place => exact relation.act (.lookUp place)
  | assign place value =>
      apply relation.bind (evaluated value)
      intro result
      exact relation.bind (relation.act (.assign place result)) fun _ => relation.pure _
  | call callee closing arguments =>
      apply relation.bind (evaluated callee)
      intro function
      apply relation.bind (evaluate_all_related parts arguments)
      intro values
      exact call_value_related parts function closing.line values
  | get object name =>
      apply relation.bind (evaluated object)
      intro target
      exact property_related parts target name
  | set object name value =>
      apply relation.bind (evaluated object)
      intro target
      cases target with
      | object identity cls =>
          apply relation.bind (evaluated value)
          intro result
          exact relation.bind (relation.act (.setField identity name.lexeme result)) fun _ =>
            relation.pure _
      | nil | boolean | number | string | native | function | classValue =>
          exact relation.act (.fail name.line _)
  | lambda routine => exact relation.act (.closeOver routine)
  | receiver place => exact relation.act (.lookUp place)
  | inherited place method =>
      apply relation.bind (relation.act (.inheritedMethod place method))
      rintro ⟨found, receiver⟩
      exact access_related parts found receiver method

theorem execution_related (statement : Statement) :
    relation.Related (left.execution statement) (right.execution statement) := by
  have evaluated := parts.evaluate
  have executed := parts.execute
  cases statement with
  | expression value => exact relation.bind (evaluated value) fun _ => relation.pure _
  | print value =>
      apply relation.bind (evaluated value)
      intro result
      exact relation.bind (relation.act (.print result)) fun _ => relation.pure _
  | variableDeclaration name initializer =>
      cases initializer with
      | none =>
          exact relation.bind (relation.act (.define name.lexeme .nil)) fun _ => relation.pure _
      | some initializer =>
          apply relation.bind (evaluated initializer)
          intro value
          exact relation.bind (relation.act (.define name.lexeme value)) fun _ => relation.pure _
  | block statements =>
      apply relation.bind (relation.act .currentScope)
      intro outer
      apply relation.bind (relation.act (.openScope outer .empty))
      intro scope
      exact relation.within scope (in_order_related parts statements)
  | conditional condition thenBranch elseBranch =>
      apply relation.bind (evaluated condition)
      intro value
      split_ifs
      · exact executed thenBranch
      · cases elseBranch with
        | none => exact relation.pure _
        | some statement => exact executed statement
  | loop condition body =>
      apply relation.bind (evaluated condition)
      intro value
      split_ifs
      · apply relation.bind (executed body)
        intro completion
        cases completion with
        | normal => exact executed (.loop condition body)
        | returned value => exact relation.pure _
      · exact relation.pure _
  | routineDeclaration routine =>
      apply relation.bind (relation.act (.closeOver routine))
      intro function
      exact relation.bind (relation.act (.define routine.label function)) fun _ => relation.pure _
  | exit keyword value =>
      cases value with
      | none => exact relation.pure _
      | some value => exact relation.bind (evaluated value) fun _ => relation.pure _
  | classDeclaration name superclass methods classMethods =>
      apply relation.bind (superclass_of_related parts superclass)
      intro parent
      apply relation.bind (relation.act (.makeClass name parent methods classMethods))
      intro declared
      exact relation.bind (relation.act (.define name.lexeme declared)) fun _ => relation.pure _

theorem program_related (statements : List Statement) :
    relation.Related (left.program statements) (right.program statements) :=
  relation.bind (in_order_related parts statements) fun _ => relation.pure _

theorem line_related (line : Line) :
    relation.Related (left.line line) (right.line line) := by
  cases line with
  | statements statements =>
      exact relation.bind (program_related parts statements) fun _ => relation.pure _
  | expression tree => exact relation.bind (parts.evaluate tree) fun _ => relation.pure _

end Setting.Relation

end Lox
