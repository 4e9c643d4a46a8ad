import Lox.Token

/-!
Everything that can be wrong with a program, as causes. The wording is kept
apart from the causes, in one `message` for each stage at which a program can
fail, and a `Diagnostic` joins a cause with the place it is reported at.
-/

namespace Lox

/-- What is wrong with a piece of text that is no token. -/
inductive LexicalError where
  | unexpectedCharacter (character : Char)
  | unterminatedString
  | unterminatedComment
deriving DecidableEq, Repr

def LexicalError.message : LexicalError → String
  | .unexpectedCharacter character => "Unexpected character: " ++ character.toString
  | .unterminatedString => "Unterminated string."
  | .unterminatedComment => "Unterminated block comment."

/-- What the grammar asks for at a place where something else stands. -/
inductive Missing where
  | className
  | superclassName
  | classBody
  | classEnd
  | functionName
  | functionParameters
  | functionBody
  | methodName
  | methodBody
  | lambdaParameters
  | parameterName
  | parametersEnd
  | variableName
  | declarationEnd
  | forOpening
  | loopConditionEnd
  | forClausesEnd
  | printEnd
  | statementEnd
  | ifOpening
  | conditionEnd
  | whileOpening
  | returnEnd
  | blockEnd
  | conditionalColon
  | argumentsEnd
  | superDot
  | superMethod
  | propertyName
  | expression
  | groupingEnd
  | endOfExpression
deriving DecidableEq, Repr

def Missing.description : Missing → String
  | .className => "class name"
  | .superclassName => "superclass name"
  | .classBody => "'\x7b' before class body"
  | .classEnd => "'\x7d' after class body"
  | .functionName => "function name"
  | .functionParameters => "'(' after function name"
  | .functionBody => "'\x7b' before function body"
  | .methodName => "method name"
  | .methodBody => "'\x7b' before method body"
  | .lambdaParameters => "'(' after 'fun'"
  | .parameterName => "parameter name"
  | .parametersEnd => "')' after parameters"
  | .variableName => "variable name"
  | .declarationEnd => "';' after variable declaration"
  | .forOpening => "'(' after 'for'"
  | .loopConditionEnd => "';' after loop condition"
  | .forClausesEnd => "')' after for clauses"
  | .printEnd => "';' after value"
  | .statementEnd => "';' after expression"
  | .ifOpening => "'(' after 'if'"
  | .conditionEnd => "')' after condition"
  | .whileOpening => "'(' after 'while'"
  | .returnEnd => "';' after return value"
  | .blockEnd => "'\x7d' after block"
  | .conditionalColon => "':' after then branch of conditional expression"
  | .argumentsEnd => "')' after arguments"
  | .superDot => "'.' after 'super'"
  | .superMethod => "superclass method name"
  | .propertyName => "property name after '.'"
  | .expression => "expression"
  | .groupingEnd => "')' after expression"
  | .endOfExpression => "end of expression"

inductive SyntaxError where
  | expected (missing : Missing)
  | tooManyParameters
  | tooManyArguments
  | invalidTarget
deriving DecidableEq, Repr

def SyntaxError.message : SyntaxError → String
  | .expected missing => "Expected " ++ missing.description
  | .tooManyParameters => "Can't have more than 255 parameters"
  | .tooManyArguments => "Can't have more than 255 arguments"
  | .invalidTarget => "Invalid assignment target"

/-- Violations of the rules on names that are checked before anything runs. -/
inductive BindingError where
  | topLevelReturn
  | redeclared
  | ownInitializer
  | inheritsFromItself
  | selfOutsideClass
  | superOutsideClass
  | superWithoutSuperclass
deriving DecidableEq, Repr

def BindingError.message : BindingError → String
  | .topLevelReturn => "Can't return from top-level code."
  | .redeclared => "Already a variable with this name in this scope."
  | .ownInitializer => "Can't read local variable in its own initializer."
  | .inheritsFromItself => "A class can't inherit from itself."
  | .selfOutsideClass => "Can't use 'self' outside of a class."
  | .superOutsideClass => "Can't use 'super' outside of a class."
  | .superWithoutSuperclass => "Can't use 'super' in a class with no superclass."

/-- What can go wrong while a program runs. -/
inductive Fault where
  /-- No global has this name. -/
  | undefinedVariable (name : String)
  /-- The scope that the bond of an occurrence leads to lacks this name. -/
  | unboundLocal (name : String)
  | undefinedProperty (name : String)
  | operandNotNumber
  | operandsNotNumbers
  | operandsNotAlike
  | divisionByZero
  | invalidUnaryOperator
  | invalidBinaryOperator
  | notCallable
  | wrongArgumentCount (expected actual : Nat)
  | stackOverflow
  | noProperties
  | noFields
  | superUnavailable
  | superclassNotClass
deriving DecidableEq, Repr

def Fault.message : Fault → String
  | .undefinedVariable name => "Undefined variable '" ++ name ++ "'."
  | .unboundLocal name => "Undefined variable '" ++ name ++ "'."
  | .undefinedProperty name => "Undefined property '" ++ name ++ "'."
  | .operandNotNumber => "Operand must be a number."
  | .operandsNotNumbers => "Operands must be numbers."
  | .operandsNotAlike => "Operands must be two numbers or two strings."
  | .divisionByZero => "Division by zero."
  | .invalidUnaryOperator => "Invalid unary operator."
  | .invalidBinaryOperator => "Invalid binary operator."
  | .notCallable => "Can only call functions and classes."
  | .wrongArgumentCount expected actual =>
      "Expected " ++ toString expected ++ " arguments but got " ++ toString actual ++ "."
  | .stackOverflow => "Stack overflow."
  | .noProperties => "Only instances have properties."
  | .noFields => "Only instances have fields."
  | .superUnavailable => "Can't use 'super' here."
  | .superclassNotClass => "Superclass must be a class."

/-- A cause at the place where it is reported. -/
inductive Diagnostic where
  | lexical (line : Nat) (cause : LexicalError)
  | grammatical (place : Token) (cause : SyntaxError)
  | binding (place : Token) (cause : BindingError)
  | fault (line : Nat) (cause : Fault)
  /-- The output takes no more text. -/
  | outputClosed
deriving DecidableEq, Repr

/-- How static errors name the token they are reported at. -/
def Token.location (token : Token) : String :=
  if token.kind = .endOfInput then " at end" else " at '" ++ token.lexeme ++ "'"

def Diagnostic.text : Diagnostic → String
  | .lexical line cause => "[line " ++ toString line ++ "] Error: " ++ cause.message
  | .grammatical place cause =>
      "[line " ++ toString place.line ++ "] Error" ++ place.location ++ ": " ++ cause.message
  | .binding place cause =>
      "[line " ++ toString place.line ++ "] Error" ++ place.location ++ ": " ++ cause.message
  | .fault line cause => cause.message ++ "\n[line " ++ toString line ++ "]"
  | .outputClosed => "sink closed"

end Lox
