import LoxLang.Numeral.Rank

/-!
# Decimals and the shortest decimal of a double

A decimal denotes the double nearest to it. `Decimal.shortest` goes through the decimal grids from
coarse to fine and stops at the first one with a point that denotes the given double; of two such
neighbours the nearer wins, and a `Tie` settles equal distances. A double that no grid of the search
reaches would get its exact expansion, so that the result denotes the double in any case.
-/
namespace LoxLang

/-- The number `coefficient * 10 ^ exponent`. -/
structure Decimal where
  coefficient : Nat
  exponent : Int
deriving DecidableEq

/-- Which of two equally near decimals is taken: the larger one, or the one whose last digit is
even. -/
inductive Tie
  | up
  | even
deriving DecidableEq

namespace Decimal
open Numeral

def powerOfTen (e : Int) : Nat × Nat :=
  if 0 ≤ e then (Nat.pow 10 e.toNat, 1) else (1, Nat.pow 10 (-e).toNat)

/-- The rank of the double that a decimal denotes. -/
def rank (d : Decimal) : Nat :=
  let (num, den) := powerOfTen d.exponent
  nearestRank (d.coefficient * num) den

def toFloat (d : Decimal) : Float := ofRank false d.rank

/-- The exact value of a finite double: the smallest one is `5 ^ 1074 / 10 ^ 1074`. -/
def exact (rank : Nat) : Decimal := ⟨units rank * Nat.pow 5 1074, -1074⟩

/-- The two points of the grid of multiples of `10 ^ e` next to the double of this rank, the nearer
one first. -/
def neighbours (tie : Tie) (rank : Nat) (e : Int) : List Decimal :=
  let (num, den) := powerOfTen e
  let scaled := units rank * den
  let step := unit * num
  let below : Decimal := ⟨scaled / step, e⟩
  let above : Decimal := ⟨scaled / step + 1, e⟩
  let twice := 2 * (scaled % step)
  let preferAbove :=
    if twice = step then tie = .up || below.coefficient % 2 = 1 else step < twice
  if preferAbove then [above, below] else [below, above]

/-- The point of the grid of multiples of `10 ^ e` that denotes the double of this rank. -/
def onGrid? (tie : Tie) (rank : Nat) (e : Int) : Option Decimal :=
  (neighbours tie rank e).find? (·.rank == rank)

/-- Search through `count` grids, each ten times finer than the one before. -/
def search (tie : Tie) (rank : Nat) : (count : Nat) → (e : Int) → Decimal
  | 0, _ => exact rank
  | count + 1, e => (onGrid? tie rank e).getD (search tie rank count (e - 1))

/-- An exponent of ten above the double of this rank, and at most a hundred times too large. -/
def startExponent (rank : Nat) : Int :=
  ((Nat.log2 (units rank) : Int) - 1073) * 30103 / 100000 + 1

/-- The shortest decimal that denotes the double of this rank, and the nearest of the shortest. -/
def shortest (tie : Tie) (rank : Nat) : Decimal :=
  if rank = 0 then ⟨0, 0⟩ else search tie rank 20 (startExponent rank)

/-- The significant digits, most significant first. -/
def digits (d : Decimal) : List Char := Nat.toDigits 10 d.coefficient

def leadingExponent (d : Decimal) : Int := d.digits.length - 1 + d.exponent

/-- Digits with a point in place, zeros filled in on either side. -/
def positional (d : Decimal) : List Char :=
  if 0 ≤ d.exponent then d.digits ++ List.replicate d.exponent.toNat '0'
  else
    let places := (-d.exponent).toNat
    let padded := List.replicate (places + 1 - d.digits.length) '0' ++ d.digits
    padded.take (padded.length - places) ++ '.' :: padded.drop (padded.length - places)

/-- One digit, a point before further digits, and the signed exponent. -/
def scientific (d : Decimal) : List Char :=
  let tail := d.digits.drop 1
  let mantissa := d.digits.take 1 ++ if tail.isEmpty then [] else '.' :: tail
  let e := d.leadingExponent
  mantissa ++ 'e' :: (if e < 0 then '-' else '+') :: Nat.toDigits 10 e.natAbs

end Decimal
end LoxLang
