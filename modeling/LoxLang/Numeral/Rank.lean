/-!
# Doubles by rank

The non-negative doubles in increasing order are numbered `0, 1, 2, …`; this number, the *rank*, is
the bit pattern without its sign. Below infinity a rank splits into a binade and a significand:
`rank = binade * 2 ^ 52 + significand`, and the double is `significand * 2 ^ binade` in units of the
smallest positive double. Reading a quotient of naturals as a double is therefore one rounded
division, with carries between binades and the step to infinity for free.
-/
namespace LoxLang
namespace Numeral

/-- `num / den` rounded to the nearest natural; a half goes to the even neighbour. -/
def roundEven (num den : Nat) : Nat :=
  let quotient := num / den
  let remainder := num % den
  if 2 * remainder < den then quotient
  else if den < 2 * remainder then quotient + 1
  else quotient + quotient % 2

/-- The smallest positive double is one part in `unit`. -/
def unit : Nat := Nat.pow 2 1074

/-- The rank of positive infinity; larger ranks are no numbers. -/
def infinityRank : Nat := 0x7ff0000000000000

/-- How often the spacing has doubled from the smallest one to the spacing at `rank`. -/
def binade (rank : Nat) : Nat := rank / Nat.pow 2 52 - 1

def significand (rank : Nat) : Nat := rank - binade rank * Nat.pow 2 52

theorem binade_mul_add_significand (rank : Nat) :
    binade rank * Nat.pow 2 52 + significand rank = rank := by
  have hle : binade rank * Nat.pow 2 52 ≤ rank :=
    calc
      binade rank * Nat.pow 2 52 ≤ rank / Nat.pow 2 52 * Nat.pow 2 52 :=
        Nat.mul_le_mul_right _ (Nat.sub_le _ 1)
      _ ≤ rank := Nat.div_mul_le_self _ _
  exact Nat.add_sub_cancel' hle

/-- The finite double of this rank, as a multiple of the smallest positive double. -/
def units (rank : Nat) : Nat := significand rank * Nat.pow 2 (binade rank)

/-- The rank of the double nearest to `num / den`, a half going to the even significand. -/
def nearestRank (num den : Nat) : Nat :=
  let scaled := num * unit
  let b := Nat.log2 (scaled / den) - 52
  min (b * Nat.pow 2 52 + roundEven scaled (den * Nat.pow 2 b)) infinityRank

def signBit : Nat := Nat.pow 2 63

def rank (n : Float) : Nat := n.toBits.toNat % signBit

def negative (n : Float) : Bool := signBit ≤ n.toBits.toNat

def ofRank (neg : Bool) (rank : Nat) : Float :=
  Float.ofBits (UInt64.ofNat (if neg then signBit + rank else rank))

def ofInt (i : Int) : Float := ofRank (i < 0) (nearestRank i.natAbs 1)

def isFinite (n : Float) : Bool := rank n < infinityRank

def isIntegral (n : Float) : Bool := isFinite n && units (rank n) % unit == 0

/-- The magnitude of a finite double, rounded down to a natural. -/
def whole (n : Float) : Nat := units (rank n) / unit

end Numeral
end LoxLang
