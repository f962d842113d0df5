import LoxLang.Numeral.Text

/-!
# Values

Values of a running program. Functions, classes and instances live in a heap, and a value refers to
them by their place there; two such values are equal only if they refer to the same place.
-/
namespace LoxLang

inductive Value
  | nil
  | bool (b : Bool)
  | number (n : Float)
  | string (s : String)
  | native (place : Nat)
  | function (place : Nat)
  | cls (place : Nat)
  | inst (place : Nat)
deriving DecidableEq

namespace Value

/-- Everything but `nil` and `false` counts as true, also `0` and the empty string. -/
def isTruthy : Value → Bool
  | nil => false
  | bool b => b
  | _ => true

/-- The equality of the language. Numbers compare as IEEE doubles, so NaN differs from itself and
the two zeros are equal. -/
def equals : Value → Value → Bool
  | nil, nil => true
  | bool a, bool b => a == b
  | number a, number b => a == b
  | string a, string b => a == b
  | native a, native b => a == b
  | function a, function b => a == b
  | cls a, cls b => a == b
  | inst a, inst b => a == b
  | _, _ => false

def typeName : Value → String
  | nil => "nil"
  | bool _ => "boolean"
  | number _ => "number"
  | string _ => "string"
  | native _ => "function"
  | function _ => "function"
  | cls _ => "class"
  | inst _ => "instance"

end Value
end LoxLang
