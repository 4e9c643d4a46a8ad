import Lox.Syntax

/-!
The prefix form of an expression: every operator before its operands, in
parentheses that leave no question of precedence.
-/

namespace Lox

def Literal.prefixForm : Literal → String
  | .number value => Number.literal.render value
  | .string text => text
  | .boolean true => "true"
  | .boolean false => "false"
  | .nil => "nil"

/-- Parameters without the body. -/
def Routine.prefixForm (routine : Routine) : String :=
  "(fun" ++ String.join ((routine.parameters.getD []).map fun name => " " ++ name.lexeme) ++ ")"

mutual

def Expression.prefixForm : Expression → String
  | .literal value => value.prefixForm
  | .grouping inner => "(group " ++ inner.prefixForm ++ ")"
  | .unary operator operand => "(" ++ operator.lexeme ++ " " ++ operand.prefixForm ++ ")"
  | .binary left operator right =>
      "(" ++ operator.lexeme ++ " " ++ left.prefixForm ++ " " ++ right.prefixForm ++ ")"
  | .logical left operator right =>
      "(" ++ operator.lexeme ++ " " ++ left.prefixForm ++ " " ++ right.prefixForm ++ ")"
  | .conditional condition thenBranch elseBranch =>
      "(? " ++ condition.prefixForm ++ " " ++ thenBranch.prefixForm ++ " "
        ++ elseBranch.prefixForm ++ ")"
  | .reference place => place.name.lexeme
  | .assign place value => "(= " ++ place.name.lexeme ++ " " ++ value.prefixForm ++ ")"
  | .call callee _ arguments =>
      "(call " ++ callee.prefixForm ++ Expression.spacedForms arguments ++ ")"
  | .get object name => "(. " ++ object.prefixForm ++ " " ++ name.lexeme ++ ")"
  | .set object name value =>
      "(=. " ++ object.prefixForm ++ " " ++ name.lexeme ++ " " ++ value.prefixForm ++ ")"
  | .lambda routine => routine.prefixForm
  | .receiver place => place.name.lexeme
  | .inherited _ method => "(super " ++ method.lexeme ++ ")"

/-- The arguments of a call, each after a space. -/
def Expression.spacedForms : List Expression → String
  | [] => ""
  | argument :: rest => " " ++ argument.prefixForm ++ Expression.spacedForms rest

end

end Lox
