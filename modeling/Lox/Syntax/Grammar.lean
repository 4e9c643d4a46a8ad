import Lox.Syntax.Reading

/-!
The grammar. Rules that do not call themselves take the rules they are built
from as arguments; the five that do are tied together at the end, with a bound
on how deep they may nest. A bound of a few levels for each token is never
reached, since every way around the cycle steps over at least one token.
-/

namespace Lox

/-- Operators that associate to the left and bind equally tightly. -/
structure Level where
  operators : List Kind
  node : Expression → Token → Expression → Expression

/-- From the loosest to the tightest. -/
def levels : List Level :=
  [⟨[.orWord], .logical⟩, ⟨[.andWord], .logical⟩, ⟨[.bangEqual, .equalEqual], .binary⟩,
    ⟨[.greater, .greaterEqual, .less, .lessEqual], .binary⟩, ⟨[.minus, .plus], .binary⟩,
    ⟨[.star, .slash], .binary⟩]

namespace Rule

/-- Further operators of one level, each with its right operand, after what has
been read so far. -/
def chain (level : Level) (operand : Rule Expression) :
    (bound : Nat) → Expression → Rule Expression
  | 0, left => return left
  | bound + 1, left => do
      match ← acceptAny level.operators with
      | some operator => chain level operand bound (level.node left operator (← operand))
      | none => return left

/-- All levels of binary operators above the given operands. -/
def operations (bound : Nat) (operand : Rule Expression) : Rule Expression :=
  levels.foldr (fun level tighter => do chain level tighter bound (← tighter)) operand

/-- The parameter list after its opening parenthesis. -/
def parameters (bound : Nat) : Rule (List Token) := do
  let names ←
    if (← next).kind = .rightParen then pure []
    else commaSeparated (expect .identifier .parameterName) .tooManyParameters bound 0
  let _ ← expect .rightParen .parametersEnd
  return names

/-- Calls and property accesses after what has been read so far. -/
def trailers (expression : Rule Expression) : (bound : Nat) → Expression → Rule Expression
  | 0, target => return target
  | bound + 1, target => do
      if (← accept .leftParen).isSome then
        let arguments ←
          if (← next).kind = .rightParen then pure []
          else commaSeparated expression .tooManyArguments (bound + 1) 0
        let closing ← expect .rightParen .argumentsEnd
        trailers expression bound (.call target closing arguments)
      else if (← accept .dot).isSome then
        let name ← expect .identifier .propertyName
        trailers expression bound (.get target name)
      else
        return target

/-- A block after its opening brace. -/
def block (declaration : Rule Statement) (bound : Nat) : Rule (List Statement) := do
  let statements ←
    declarations declaration (fun kind => kind = .rightBrace || kind = .endOfInput) bound
  let _ ← expect .rightBrace .blockEnd
  return statements

/-- A function expression after its keyword. -/
def lambda (declaration : Rule Statement) (bound : Nat) : Rule Expression := do
  let _ ← expect .leftParen .lambdaParameters
  let names ← parameters bound
  let _ ← expect .leftBrace .functionBody
  return .lambda ⟨none, some names, ← block declaration bound⟩

def primary (expression : Rule Expression) (declaration : Rule Statement) (bound : Nat) :
    Rule Expression := do
  let token ← next
  match token.kind with
  | .falseWord =>
      skip
      return .literal (.boolean false)
  | .trueWord =>
      skip
      return .literal (.boolean true)
  | .nilWord =>
      skip
      return .literal .nil
  | .number value =>
      skip
      return .literal (.number value)
  | .string text =>
      skip
      return .literal (.string text)
  | .selfWord =>
      skip
      return .receiver ⟨← fresh, token⟩
  | .superWord =>
      skip
      let _ ← expect .dot .superDot
      let method ← expect .identifier .superMethod
      return .inherited ⟨← fresh, token⟩ method
  | .identifier =>
      skip
      return .reference ⟨← fresh, token⟩
  | .funWord =>
      skip
      lambda declaration bound
  | .leftParen =>
      skip
      let inner ← expression
      let _ ← expect .rightParen .groupingEnd
      return .grouping inner
  | _ => missing .expression

/-- The assignment of a value to what stands before the equals sign. A target
that cannot be assigned to is noted and stays as it is. -/
def assignment (target : Expression) (equals : Token) (value : Expression) : Rule Expression := do
  match target with
  | .reference place => return .assign ⟨← fresh, place.name⟩ value
  | .get object name => return .set object name value
  | other =>
      note equals .invalidTarget
      return other

/-- What follows a token of the given kind, if there is such a token. -/
def following {α : Type} (kind : Kind) (rule : Rule α) : Rule (Option α) := do
  if (← accept kind).isSome then some <$> rule else return none

def variableDeclaration (expression : Rule Expression) : Rule Statement := do
  let name ← expect .identifier .variableName
  let initializer ← following .equal expression
  let _ ← expect .semicolon .declarationEnd
  return .variableDeclaration name initializer

def expressionStatement (expression : Rule Expression) : Rule Statement := do
  let value ← expression
  let _ ← expect .semicolon .statementEnd
  return .expression value

def printStatement (expression : Rule Expression) : Rule Statement := do
  let value ← expression
  let _ ← expect .semicolon .printEnd
  return .print value

/-- An expression that may be left out before a token of the given kind. -/
def optional (closing : Kind) (expression : Rule Expression) : Rule (Option Expression) := do
  if (← next).kind = closing then return none else some <$> expression

def exitStatement (keyword : Token) (expression : Rule Expression) : Rule Statement := do
  let value ← optional .semicolon expression
  let _ ← expect .semicolon .returnEnd
  return .exit keyword value

/-- One round of a loop with its increment. -/
def stepped (increment : Option Expression) (body : Statement) : Statement :=
  match increment with
  | some value => .block [body, .expression value]
  | none => body

/-- A loop with its clauses is a plain loop inside a block of its own. -/
def desugared (initializer : Option Statement) (condition increment : Option Expression)
    (body : Statement) : Statement :=
  let loop := .loop (condition.getD (.literal (.boolean true))) (stepped increment body)
  match initializer with
  | some first => .block [first, loop]
  | none => loop

/-- The first clause of a loop, through its semicolon. -/
def forInitializer (expression : Rule Expression) : Rule (Option Statement) := do
  if (← accept .semicolon).isSome then return none
  else if (← accept .varWord).isSome then some <$> variableDeclaration expression
  else some <$> expressionStatement expression

def forStatement (expression : Rule Expression) (statement : Rule Statement) :
    Rule Statement := do
  let _ ← expect .leftParen .forOpening
  let initializer ← forInitializer expression
  let condition ← optional .semicolon expression
  let _ ← expect .semicolon .loopConditionEnd
  let increment ← optional .rightParen expression
  let _ ← expect .rightParen .forClausesEnd
  return desugared initializer condition increment (← statement)

def ifStatement (expression : Rule Expression) (statement : Rule Statement) :
    Rule Statement := do
  let _ ← expect .leftParen .ifOpening
  let condition ← expression
  let _ ← expect .rightParen .conditionEnd
  let thenBranch ← statement
  return .conditional condition thenBranch (← following .elseWord statement)

def whileStatement (expression : Rule Expression) (statement : Rule Statement) :
    Rule Statement := do
  let _ ← expect .leftParen .whileOpening
  let condition ← expression
  let _ ← expect .rightParen .conditionEnd
  return .loop condition (← statement)

/-- A named function after its keyword. -/
def function (declaration : Rule Statement) (bound : Nat) : Rule Routine := do
  let name ← expect .identifier .functionName
  let _ ← expect .leftParen .functionParameters
  let names ← parameters bound
  let _ ← expect .leftBrace .functionBody
  return ⟨some name, some names, ← block declaration bound⟩

/-- A method, which is a getter if no parameter list follows its name. -/
def method (declaration : Rule Statement) (bound : Nat) : Rule Routine := do
  let name ← expect .identifier .methodName
  let names ← following .leftParen (parameters bound)
  let _ ← expect .leftBrace .methodBody
  return ⟨some name, names, ← block declaration bound⟩

/-- The members of a class up to its closing brace, those at class level marked
with `true`. -/
def members (method : Rule Routine) : (bound : Nat) → Rule (List (Bool × Routine))
  | 0 => return []
  | bound + 1 => do
      let kind := (← next).kind
      if kind = .rightBrace || kind = .endOfInput then return []
      let atClassLevel := (← accept .classWord).isSome
      let first ← method
      return (atClassLevel, first) :: (← members method bound)

def superclass : Rule Occurrence := do
  let name ← expect .identifier .superclassName
  return ⟨← fresh, name⟩

/-- A class after its keyword. -/
def classDeclaration (declaration : Rule Statement) (bound : Nat) : Rule Statement := do
  let name ← expect .identifier .className
  let superclass ← following .less superclass
  let _ ← expect .leftBrace .classBody
  let all ← members (method declaration bound) bound
  let _ ← expect .rightBrace .classEnd
  return .classDeclaration name superclass
    ((all.filter (!·.1)).map (·.2)) ((all.filter (·.1)).map (·.2))

/-- Whether a named function starts here; the keyword alone may also start a
function expression. -/
def atFunctionDeclaration : Rule Bool := do
  match (← get).rest with
  | first :: second :: _ => return first.kind = .funWord && second.kind = .identifier
  | _ => return false

mutual

def expression : (bound : Nat) → Rule Expression
  | 0 => missing .expression
  | bound + 1 => do
      let target ← conditional bound
      match ← accept .equal with
      | some equals => assignment target equals (← expression bound)
      | none => return target

def conditional : (bound : Nat) → Rule Expression
  | 0 => missing .expression
  | bound + 1 => do
      let condition ← operations bound (unary bound)
      match ← accept .question with
      | some _ =>
          let thenBranch ← expression bound
          let _ ← expect .colon .conditionalColon
          return .conditional condition thenBranch (← conditional bound)
      | none => return condition

def unary : (bound : Nat) → Rule Expression
  | 0 => missing .expression
  | bound + 1 => do
      match ← acceptAny [.bang, .minus] with
      | some operator => return .unary operator (← unary bound)
      | none =>
          let head ← primary (expression bound) (declaration bound) bound
          trailers (expression bound) bound head

def statement : (bound : Nat) → Rule Statement
  | 0 => missing .expression
  | bound + 1 => do
      let token ← next
      match token.kind with
      | .forWord =>
          skip
          forStatement (expression bound) (statement bound)
      | .ifWord =>
          skip
          ifStatement (expression bound) (statement bound)
      | .whileWord =>
          skip
          whileStatement (expression bound) (statement bound)
      | .returnWord =>
          skip
          exitStatement token (expression bound)
      | .leftBrace =>
          skip
          return .block (← block (declaration bound) bound)
      | .printWord =>
          skip
          printStatement (expression bound)
      | _ => expressionStatement (expression bound)

def declaration : (bound : Nat) → Rule Statement
  | 0 => missing .expression
  | bound + 1 => do
      if (← accept .classWord).isSome then
        classDeclaration (declaration bound) bound
      else if ← atFunctionDeclaration then
        skip
        return .routineDeclaration (← function (declaration bound) bound)
      else if (← accept .varWord).isSome then
        variableDeclaration (expression bound)
      else
        statement bound

end

end Rule

end Lox
