import LoxLang.Fault
import LoxLang.Execution.Value

/-!
# Operators

What the operators of the language make of their operands. A type error is blamed on the operator.
-/
namespace LoxLang
namespace Value

/-- `!` takes any value, `-` takes a number. -/
def unary (operator : Token) (right : Value) : Except RunFault Value :=
  match operator.kind with
  | .minus =>
    match right with
    | .number n => .ok (.number (-n))
    | _ => .error (.operation operator .operandNotNumber)
  | .bang => .ok (.bool !right.isTruthy)
  | _ => .error (.operation operator .invalidUnary)

def arithmetic? (a b : Float) : Kind → Option Value
  | .minus => some (.number (a - b))
  | .star => some (.number (a * b))
  | .slash => some (.number (a / b))
  | .less => some (.bool (a < b))
  | .lessEqual => some (.bool (a ≤ b))
  | .greater => some (.bool (b < a))
  | .greaterEqual => some (.bool (b ≤ a))
  | _ => none

/-- `+` takes two numbers or two strings, `==` and `!=` take any values, and all others take two
numbers. -/
def binary (operator : Token) (left right : Value) : Except RunFault Value :=
  match operator.kind with
  | .plus =>
    match left, right with
    | .number a, .number b => .ok (.number (a + b))
    | .string a, .string b => .ok (.string (a ++ b))
    | _, _ => .error (.operation operator .operandsNotAddable)
  | .equalEqual => .ok (.bool (left.equals right))
  | .bangEqual => .ok (.bool !left.equals right)
  | kind =>
    match left, right with
    | .number a, .number b =>
      match arithmetic? a b kind with
      | some value => .ok value
      | none => .error (.operation operator .invalidBinary)
    | _, _ => .error (.operation operator .operandsNotNumbers)

end Value
end LoxLang
