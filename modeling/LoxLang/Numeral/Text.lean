import LoxLang.Numeral.Decimal

/-!
# The texts of a number

Four places write numbers, each in its own way: `print`, the token listing, the outline of a program
and the JSON form of a program. The first three use plain digits throughout, so that a non-negative
finite number always appears as a literal of the language.
-/
namespace LoxLang
namespace Numeral

def signed (neg : Bool) (text : String) : String :=
  if neg then "-" ++ text else text

def isNaN (n : Float) : Bool := infinityRank < rank n

/-- The shortest digits that denote the number, without exponent; a half goes up. -/
def plain (infinity : String) (n : Float) : String :=
  if isNaN n then "NaN"
  else signed (negative n) <|
    if rank n = infinityRank then infinity
    else String.ofList (Decimal.shortest .up (rank n)).positional

/-- What `print` writes. -/
def display (n : Float) : String := plain "Infinity" n

/-- The literal column of the token listing: integers below `10 ^ 15` end in `.0`, and zero has no
sign there. -/
def literalText (n : Float) : String :=
  if isIntegral n && decide (whole n < Nat.pow 10 15) then
    signed (negative n && decide (whole n ≠ 0)) (toString (whole n) ++ ".0")
  else plain "inf" n

/-- The outline of a program shows integers exactly, to the last digit, and ending in `.0`. -/
def outlineText (n : Float) : String :=
  if isIntegral n then signed (negative n) (toString (whole n) ++ ".0")
  else plain "inf" n

/-- The JSON number: the shortest digits, a half going to the even digit. They are written
positionally for leading exponents from `-5` to `15`, with `.0` after an integer, and with a signed
exponent otherwise. Infinities and NaN have no JSON number. -/
def jsonText (n : Float) : String :=
  if isFinite n then
    let d := Decimal.shortest .even (rank n)
    let text :=
      if -5 ≤ d.leadingExponent && decide (d.leadingExponent < 16) then
        d.positional ++ if 0 ≤ d.exponent then ".0".toList else []
      else d.scientific
    signed (negative n) (String.ofList text)
  else "null"

end Numeral
end LoxLang
