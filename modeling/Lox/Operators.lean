import Lox.Diagnostic
import Lox.Value

/-!
What the operators do with values that have already been computed. An operator
is given by the kind of its token.
-/

namespace Lox

def unaryResult : Kind → Value → Except Fault Value
  | .minus, .number value => .ok (.number (-value))
  | .minus, _ => .error .operandNotNumber
  | .bang, value => .ok (.boolean (!value.isTruthy))
  | _, _ => .error .invalidUnaryOperator

def numberOperands : Value → Value → Except Fault (Float × Float)
  | .number left, .number right => .ok (left, right)
  | _, _ => .error .operandsNotNumbers

/-- The sum of two numbers, or two strings one after the other. -/
def sum : Value → Value → Except Fault Value
  | .number left, .number right => .ok (.number (left + right))
  | .string left, .string right => .ok (.string (left ++ right))
  | _, _ => .error .operandsNotAlike

/-- Both zeros are refused as divisors. -/
def quotient (left right : Value) : Except Fault Value := do
  let (dividend, divisor) ← numberOperands left right
  if divisor == 0 then .error .divisionByZero else .ok (.number (dividend / divisor))

/-- A comparison of two numbers, which fails for those that are not ordered, or
of two strings by their code points. -/
def comparison (numbers : Float → Float → Bool) (strings : String → String → Bool) :
    Value → Value → Except Fault Value
  | .number left, .number right => .ok (.boolean (numbers left right))
  | .string left, .string right => .ok (.boolean (strings left right))
  | _, _ => .error .operandsNotAlike

def binaryResult (operator : Kind) (left right : Value) : Except Fault Value :=
  match operator with
  | .equalEqual => .ok (.boolean (left.same right))
  | .bangEqual => .ok (.boolean (!left.same right))
  | .plus => sum left right
  | .minus => do
      let (minuend, subtrahend) ← numberOperands left right
      .ok (.number (minuend - subtrahend))
  | .star => do
      let (first, second) ← numberOperands left right
      .ok (.number (first * second))
  | .slash => quotient left right
  | .less => comparison (· < ·) (· < ·) left right
  | .lessEqual => comparison (· ≤ ·) (fun left right => !(right < left : Bool)) left right
  | .greater => comparison (· > ·) (· > ·) left right
  | .greaterEqual => comparison (· ≥ ·) (fun left right => !(left < right : Bool)) left right
  | _ => .error .invalidBinaryOperator

/-- Whether the left operand alone decides a logical operator: a truthy one
decides a disjunction, and one that is not truthy a conjunction. -/
def decides (operator : Kind) (left : Value) : Bool :=
  if operator = .orWord then left.isTruthy else !left.isTruthy

end Lox
