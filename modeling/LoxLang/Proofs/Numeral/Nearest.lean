import LoxLang.Numeral.Decimal
import LoxLang.Proofs.Numeral.Ranks

/-!
# The nearest double

A decimal denotes the double nearest to it. `Nearest` says so of the values of doubles and not of
their ranks: no double is nearer to the given number, and if another one is as near, then the
mantissa is even. There is exactly one such double (`Nearest.unique`), and it is the one that a
decimal is turned into (`Decimal.nearest_toFloat`).
-/
namespace LoxLang
namespace Numeral
open Float.Model (UnpackedFloat)
open Float.Model.UnpackedFloat

/-- The exact value of a double with a positive sign. Infinity stands where the next double would be
if the exponent had no bound, so that a number from halfway on is nearest to it. -/
def value? (x : Float) : Option ℚ :=
  match x.toModel.unpack with
  | .zero .positive => some 0
  | .finite .positive mantissa exponent _ => some (mantissa * 2 ^ exponent)
  | .infinity .positive => some (2 ^ 1024)
  | _ => none

def HasEvenMantissa (x : Float) : Prop :=
  match x.toModel.unpack with
  | .finite _ mantissa _ _ => mantissa % 2 = 0
  | _ => True

/-- No double is nearer to `q` than `x`, and if another one is as near, then `x` is the one with the
even mantissa. -/
def Nearest (q : ℚ) (x : Float) : Prop :=
  ∃ v, value? x = some v ∧ ∀ y w, value? y = some w →
    |q - v| < |q - w| ∨ |q - v| = |q - w| ∧ (y = x ∨ HasEvenMantissa x)

/-! ## The parts of a double -/

section Parts

variable (bits : UInt64)

theorem toNat_unpackExponent :
    (@unpackExponent .binary64 bits.toBitVec).toNat = bits.toNat / 2 ^ 52 % 2 ^ 11 := by
  rw [unpackExponent_def, BitVec.extractLsb'_toNat, Nat.shiftRight_eq_div_pow]
  rfl

theorem toNat_unpackMantissa :
    (@unpackMantissa .binary64 bits.toBitVec).toNat = bits.toNat % 2 ^ 52 := by
  rw [unpackMantissa_def, BitVec.extractLsb'_toNat, Nat.shiftRight_zero]
  rfl

theorem unpackExponent_eq_iff (e : BitVec 11) :
    @unpackExponent .binary64 bits.toBitVec = e ↔
      bits.toNat / 2 ^ 52 % 2 ^ 11 = e.toNat := by
  rw [← BitVec.toNat_inj, toNat_unpackExponent]

theorem unpackMantissa_eq_zero_iff :
    @unpackMantissa .binary64 bits.toBitVec = 0#52 ↔ bits.toNat % 2 ^ 52 = 0 := by
  rw [← BitVec.toNat_inj, toNat_unpackMantissa]
  rfl

theorem sign_eq : Sign.ofBitVec (@unpackSign .binary64 bits.toBitVec) =
    if bits.toNat < 2 ^ 63 then .positive else .negative := by
  have hlt : bits.toNat < 2 ^ 64 := bits.toNat_lt
  have hsign : (@unpackSign .binary64 bits.toBitVec).toNat = bits.toNat / 2 ^ 63 := by
    rw [unpackSign_def, BitVec.extractLsb'_toNat, Nat.shiftRight_eq_div_pow]
    exact Nat.mod_eq_of_lt (Nat.div_lt_of_lt_mul hlt)
  have hzero : @unpackSign .binary64 bits.toBitVec = 0#1 ↔ bits.toNat < 2 ^ 63 := by
    rw [← BitVec.toNat_inj, hsign]
    change bits.toNat / 2 ^ 63 = 0 ↔ bits.toNat < 2 ^ 63
    omega
  unfold Sign.ofBitVec
  simp only [hzero]

end Parts

/-- The leading bit of a mantissa is not among the bits of a double. -/
theorem toNat_one_append (mantissa : BitVec 52) :
    (1#1 ++ mantissa).toNat = 2 ^ 52 + mantissa.toNat := by
  have hlt : mantissa.toNat < 2 ^ 52 := mantissa.isLt
  rw [BitVec.toNat_append, ← Nat.shiftLeft_add_eq_or_of_lt hlt]
  rfl

section Ranked

variable {x : Float}

theorem unpack_of_eq_zero (h : x.toBits.toNat = 0) : x.toModel.unpack = .zero .positive := by
  have hbits : x.toBits = 0 := UInt64.toNat_inj.mp h
  change UnpackedFloat.unpack .binary64 x.toBits.toBitVec = _
  rw [hbits]
  rfl

theorem unpack_of_eq_infinityRank (h : x.toBits.toNat = infinityRank) :
    x.toModel.unpack = .infinity .positive := by
  have hbits : x.toBits = 0x7ff0000000000000 := UInt64.toNat_inj.mp h
  change UnpackedFloat.unpack .binary64 x.toBits.toBitVec = _
  rw [hbits]
  rfl

/-- Between zero and infinity the rank holds the mantissa and the exponent. -/
theorem unpack_of_lt_infinityRank (hne : x.toBits.toNat ≠ 0)
    (h : x.toBits.toNat < infinityRank) :
    ∃ hpos, x.toModel.unpack =
      .finite .positive (significand x.toBits.toNat) (binade x.toBits.toNat - 1074) hpos := by
  have hlt : x.toBits.toNat < 0x7ff0000000000000 := h
  have hbias : Float.Model.Format.binary64.exponentBias = 1023 := rfl
  have hsign := sign_eq x.toBits
  rw [if_pos (by omega)] at hsign
  have hones : @unpackExponent .binary64 x.toBits.toBitVec ≠ -1#11 := by
    rw [ne_eq, unpackExponent_eq_iff]
    change x.toBits.toNat / 2 ^ 52 % 2 ^ 11 ≠ 2047
    omega
  change ∃ hpos, UnpackedFloat.unpack .binary64 x.toBits.toBitVec = _
  unfold UnpackedFloat.unpack
  simp only [hsign]
  rw [if_neg hones]
  by_cases hfirst : x.toBits.toNat < 2 ^ 52
  · have hzero : @unpackExponent .binary64 x.toBits.toBitVec = 0#11 := by
      rw [unpackExponent_eq_iff]
      change x.toBits.toNat / 2 ^ 52 % 2 ^ 11 = 0
      omega
    have hmantissa : @unpackMantissa .binary64 x.toBits.toBitVec ≠ 0#52 := by
      rw [ne_eq, unpackMantissa_eq_zero_iff]
      omega
    have hrank : x.toBits.toNat % 2 ^ 52 = significand x.toBits.toNat ∧
        binade x.toBits.toNat = 0 := by
      simp only [significand, binade, Nat.pow_eq]
      omega
    rw [if_pos hzero, dif_neg hmantissa]
    refine ⟨by omega, ?_⟩
    rw [finite.injEq, toNat_unpackMantissa, hzero, hrank.1, hrank.2, hbias]
    exact ⟨rfl, rfl, rfl⟩
  · have hnonzero : @unpackExponent .binary64 x.toBits.toBitVec ≠ 0#11 := by
      rw [ne_eq, unpackExponent_eq_iff]
      change x.toBits.toNat / 2 ^ 52 % 2 ^ 11 ≠ 0
      omega
    have hrank : 2 ^ 52 + x.toBits.toNat % 2 ^ 52 = significand x.toBits.toNat ∧
        x.toBits.toNat / 2 ^ 52 % 2 ^ 11 = binade x.toBits.toNat + 1 := by
      simp only [significand, binade, Nat.pow_eq]
      omega
    rw [if_neg hnonzero]
    refine ⟨by omega, ?_⟩
    rw [finite.injEq, toNat_one_append, toNat_unpackMantissa, toNat_unpackExponent, hrank.1,
      hrank.2, hbias]
    refine ⟨rfl, rfl, ?_⟩
    push_cast
    omega

/-- Past infinity there are negative doubles and no numbers. -/
theorem value?_of_infinityRank_lt (h : infinityRank < x.toBits.toNat) : value? x = none := by
  have hlt : 0x7ff0000000000000 < x.toBits.toNat := h
  have hsign := sign_eq x.toBits
  have hunpack : x.toModel.unpack = UnpackedFloat.unpack .binary64 x.toBits.toBitVec := rfl
  unfold value?
  rw [hunpack]
  unfold UnpackedFloat.unpack
  simp only [hsign]
  by_cases hpos : x.toBits.toNat < 2 ^ 63
  · have hones : @unpackExponent .binary64 x.toBits.toBitVec = -1#11 := by
      rw [unpackExponent_eq_iff]
      change x.toBits.toNat / 2 ^ 52 % 2 ^ 11 = 2047
      omega
    have hmantissa : @unpackMantissa .binary64 x.toBits.toBitVec ≠ 0#52 := by
      rw [ne_eq, unpackMantissa_eq_zero_iff]
      omega
    rw [if_pos hones, if_neg hmantissa]
  · rw [if_neg hpos]
    split_ifs <;> rfl

end Ranked

theorem cast_pow_two (n : Nat) : ((Nat.pow 2 n : ℕ) : ℚ) = 2 ^ (n : ℤ) :=
  (Nat.cast_pow 2 n).trans (zpow_natCast 2 n).symm

theorem cast_unit : (unit : ℚ) = 2 ^ (1074 : ℤ) := by
  unfold unit
  -- the exponent is hidden, or the power would be computed
  generalize hn : 1074 = n
  rw [cast_pow_two, ← hn, Nat.cast_ofNat]

theorem unit_pos : (0 : ℚ) < unit := by
  rw [cast_unit]
  exact zpow_pos (by norm_num) _

theorem units_div_unit (rank : Nat) :
    (units rank / unit : ℚ) = significand rank * 2 ^ ((binade rank : ℤ) - 1074) := by
  rw [units, cast_unit, Nat.cast_mul, cast_pow_two, zpow_sub₀ (by norm_num), mul_div_assoc]

theorem units_infinityRank : (units infinityRank / unit : ℚ) = 2 ^ (1024 : ℤ) := by
  have hsignificand : significand infinityRank = Nat.pow 2 52 := by decide
  have hbinade : binade infinityRank = 2046 := by decide
  rw [units_div_unit, hsignificand, hbinade, cast_pow_two, ← zpow_add₀ (by norm_num)]
  rfl

/-- The doubles with a value are those up to infinity, in the order of their ranks. -/
theorem value?_eq (x : Float) : value? x =
    if x.toBits.toNat ≤ infinityRank then some (units x.toBits.toNat / unit : ℚ) else none := by
  split
  · next h =>
    unfold value?
    rcases h.lt_or_eq with hlt | heq
    · by_cases hzero : x.toBits.toNat = 0
      · have hunits : units 0 = 0 := by decide
        rw [unpack_of_eq_zero hzero, hzero, hunits, Nat.cast_zero, zero_div]
      · obtain ⟨hpos, hunpack⟩ := unpack_of_lt_infinityRank hzero hlt
        rw [hunpack, units_div_unit]
    · rw [unpack_of_eq_infinityRank heq, heq, units_infinityRank]
      rfl
  · next h => exact value?_of_infinityRank_lt (Nat.lt_of_not_le h)

theorem hasEvenMantissa_iff {x : Float} (h : x.toBits.toNat ≤ infinityRank) :
    HasEvenMantissa x ↔ x.toBits.toNat % 2 = 0 := by
  unfold HasEvenMantissa
  rcases h.lt_or_eq with hlt | heq
  · by_cases hzero : x.toBits.toNat = 0
    · rw [unpack_of_eq_zero hzero, hzero]
      simp
    · obtain ⟨hpos, hunpack⟩ := unpack_of_lt_infinityRank hzero hlt
      have hrank := binade_mul_add_significand x.toBits.toNat
      rw [Nat.pow_eq] at hrank
      rw [hunpack]
      simp only
      omega
  · rw [unpack_of_eq_infinityRank heq, heq]
    decide

/-- Every rank up to infinity is the rank of a double. -/
theorem toBits_ofBits {bits : UInt64} (h : bits.toNat ≤ infinityRank) :
    (Float.ofBits bits).toBits = bits := by
  have hnumber : ¬@isNaNBits .binary64 bits.toBitVec := by
    intro hnan
    have hle : bits.toNat ≤ 0x7ff0000000000000 := h
    obtain ⟨hones, hmantissa⟩ := of_decide_eq_true hnan
    have hexponent : bits.toNat / 2 ^ 52 % 2 ^ 11 = 2047 := (unpackExponent_eq_iff bits _).mp hones
    have hmantissa' := mt (unpackMantissa_eq_zero_iff bits).mpr hmantissa
    omega
  have hpack := @pack_unpack .binary64 bits.toBitVec
  rw [if_neg hnumber] at hpack
  exact UInt64.toBitVec_inj.mp hpack

theorem toNat_toBits_ofRank {rank : Nat} (h : rank ≤ infinityRank) :
    (ofRank false rank).toBits.toNat = rank := by
  have hlt : rank < 2 ^ 64 := Nat.lt_of_le_of_lt h (by decide)
  have hnat : (UInt64.ofNat rank).toNat = rank := UInt64.toNat_ofNat_of_lt' hlt
  rw [ofRank, if_neg (by decide), toBits_ofBits (hnat.symm ▸ h), hnat]

theorem eq_of_toNat_toBits_eq {x y : Float} (h : x.toBits.toNat = y.toBits.toNat) : x = y := by
  rw [← Float.ofBits_toBits x, ← Float.ofBits_toBits y, UInt64.toNat_inj.mp h]

/-- Distances between values are distances between ranks in other units. -/
theorem abs_mul_unit_sub (q : ℚ) (n : Nat) : |q * unit - n| = |q - n / unit| * unit := by
  rw [← abs_of_pos unit_pos, ← abs_mul, sub_mul, abs_of_pos unit_pos,
    div_mul_cancel₀ _ unit_pos.ne']

theorem value?_eq_some_iff {x : Float} {v : ℚ} : value? x = some v ↔
    x.toBits.toNat ≤ infinityRank ∧ (units x.toBits.toNat / unit : ℚ) = v := by
  rw [value?_eq]
  by_cases h : x.toBits.toNat ≤ infinityRank
  · rw [if_pos h, Option.some.injEq, and_iff_right h]
  · rw [if_neg h]
    exact ⟨nofun, fun h' => absurd h'.1 h⟩

theorem nearest_iff (q : ℚ) (x : Float) :
    Nearest q x ↔ IsNearestRank (q * unit) x.toBits.toNat := by
  constructor
  · rintro ⟨v, hv, hall⟩
    obtain ⟨hle, rfl⟩ := value?_eq_some_iff.mp hv
    refine ⟨hle, fun other hother => ?_⟩
    have hrank := toNat_toBits_ofRank hother
    have hvalue : value? (ofRank false other) = some (units other / unit : ℚ) :=
      value?_eq_some_iff.mpr (hrank.symm ▸ ⟨hother, rfl⟩)
    rw [abs_mul_unit_sub, abs_mul_unit_sub]
    rcases hall _ _ hvalue with hlt | ⟨heq, hor⟩
    · exact .inl (mul_lt_mul_of_pos_right hlt unit_pos)
    · exact .inr ⟨by rw [heq], hor.imp (fun h => by rw [← h, hrank]) (hasEvenMantissa_iff hle).mp⟩
  · rintro ⟨hle, hall⟩
    refine ⟨_, value?_eq_some_iff.mpr ⟨hle, rfl⟩, fun y w hw => ?_⟩
    obtain ⟨hle', rfl⟩ := value?_eq_some_iff.mp hw
    have hdistances := hall _ hle'
    rw [abs_mul_unit_sub, abs_mul_unit_sub] at hdistances
    rcases hdistances with hlt | ⟨heq, hor⟩
    · exact .inl (lt_of_mul_lt_mul_right hlt unit_pos.le)
    · exact .inr ⟨mul_right_cancel₀ unit_pos.ne' heq,
        hor.imp eq_of_toNat_toBits_eq (hasEvenMantissa_iff hle).mpr⟩

theorem Nearest.unique {q : ℚ} {x y : Float} (h : Nearest q x) (h' : Nearest q y) : x = y :=
  eq_of_toNat_toBits_eq (((nearest_iff q x).mp h).unique ((nearest_iff q y).mp h'))

theorem nearest_ofRank (num : Nat) {den : Nat} (hden : 0 < den) :
    Nearest (num / den) (ofRank false (nearestRank num den)) := by
  have hrank := isNearestRank_nearestRank num hden
  rw [nearest_iff, toNat_toBits_ofRank hrank.1, div_mul_eq_mul_div, ← Nat.cast_mul]
  exact hrank

end Numeral

namespace Decimal

def value (d : Decimal) : ℚ := d.coefficient * 10 ^ d.exponent

theorem powerOfTen_eq (e : Int) :
    0 < (powerOfTen e).2 ∧ ((powerOfTen e).1 / (powerOfTen e).2 : ℚ) = 10 ^ e := by
  unfold powerOfTen
  split
  · next h =>
    obtain ⟨n, rfl⟩ := Int.eq_ofNat_of_zero_le h
    simp
  · next h =>
    obtain ⟨n, rfl⟩ : ∃ n : ℕ, e = -n := ⟨e.natAbs, by omega⟩
    simp

theorem nearest_toFloat (d : Decimal) : Numeral.Nearest d.value d.toFloat := by
  obtain ⟨hden, hpower⟩ := powerOfTen_eq d.exponent
  have hnearest := Numeral.nearest_ofRank (d.coefficient * (powerOfTen d.exponent).1) hden
  rwa [Nat.cast_mul, mul_div_assoc, hpower] at hnearest

end Decimal
end LoxLang
