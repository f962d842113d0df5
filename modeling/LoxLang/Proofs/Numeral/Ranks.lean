import Mathlib
import LoxLang.Numeral.Rank

/-!
# The nearest rank

Ranks are ordered as the doubles are. The rank of a quotient is nearest to it: no rank up to
infinity is nearer, and if another one is as near, then the rank is even. A rounded division in
the right binade finds it (`isNearestRank_nearestRank`), and there is no other
(`IsNearestRank.unique`).
-/
namespace LoxLang
namespace Numeral

/-! ## Ranks in order -/

theorem significand_lt (rank : Nat) : significand rank < 2 ^ 53 := by
  simp only [significand, binade, Nat.pow_eq]
  omega

/-- Only in the first binade is a significand short of its leading bit. -/
theorem binade_eq_zero_or_le_significand (rank : Nat) :
    binade rank = 0 ∨ 2 ^ 52 ≤ significand rank := by
  simp only [significand, binade, Nat.pow_eq]
  omega

theorem units_add {b s : Nat} (hle : s ≤ 2 ^ 53) (h : b = 0 ∨ 2 ^ 52 ≤ s) :
    units (b * Nat.pow 2 52 + s) = s * Nat.pow 2 b := by
  simp only [units, significand, binade, Nat.pow_eq]
  rcases Nat.lt_or_ge s (2 ^ 52) with hlt | hge
  · have hb : b = 0 := h.resolve_right (by omega)
    have hbinade : (b * 2 ^ 52 + s) / 2 ^ 52 - 1 = 0 := by omega
    rw [hbinade, hb]
    simp
  · rcases Nat.lt_or_ge s (2 ^ 53) with hlt | hge'
    · have hbinade : (b * 2 ^ 52 + s) / 2 ^ 52 - 1 = b := by omega
      rw [hbinade, Nat.add_sub_cancel_left]
    · have hs : s = 2 ^ 53 := by omega
      have hbinade : (b * 2 ^ 52 + s) / 2 ^ 52 - 1 = b + 1 := by omega
      have hsignificand : b * 2 ^ 52 + s - (b + 1) * 2 ^ 52 =
          2 ^ 52 := by omega
      rw [hbinade, hsignificand, hs, Nat.pow_succ]
      omega

theorem units_succ (rank : Nat) : units (rank + 1) = units rank + Nat.pow 2 (binade rank) := by
  have hrank := binade_mul_add_significand rank
  have hlt := significand_lt rank
  have hnormal := binade_eq_zero_or_le_significand rank
  have hnext : units (binade rank * Nat.pow 2 52 + (significand rank + 1)) =
      (significand rank + 1) * Nat.pow 2 (binade rank) :=
    units_add hlt (hnormal.imp_right fun h => by omega)
  rw [← Nat.add_assoc, hrank] at hnext
  rw [hnext, Nat.add_mul, Nat.one_mul]
  rfl

theorem units_strictMono : StrictMono units := by
  apply strictMono_nat_of_lt_succ
  intro rank
  have hpos : 0 < Nat.pow 2 (binade rank) := Nat.pow_pos (by decide)
  rw [units_succ]
  omega

/-! ## Rounded division -/

/-- A rounded quotient is off by a half at most; where it is off by a half, it is even. -/
theorem roundEven_bounds (num : Nat) {den : Nat} (hden : 0 < den) :
    2 * (roundEven num den * den) ≤ 2 * num + den ∧
    2 * num ≤ 2 * (roundEven num den * den) + den ∧
    (2 * (roundEven num den * den) = 2 * num + den ∨ 2 * num = 2 * (roundEven num den * den) + den →
      roundEven num den % 2 = 0) := by
  have hnum : num = num / den * den + num % den := (Nat.div_add_mod' num den).symm
  have hmod : num % den < den := Nat.mod_lt num hden
  unfold roundEven
  generalize num / den = q at hnum ⊢
  generalize num % den = m at hnum hmod ⊢
  simp only
  split
  · omega
  · split
    · rw [Nat.add_mul, Nat.one_mul]
      omega
    · rcases Nat.mod_two_eq_zero_or_one q with hq | hq
      · rw [hq, Nat.add_zero]
        omega
      · rw [hq, Nat.add_mul, Nat.one_mul]
        omega

theorem abs_sub_roundEven_le (num : Nat) {den : Nat} (hden : 0 < den) :
    |(num / den : ℚ) - roundEven num den| ≤ 1 / 2 := by
  have hpos : (0 : ℚ) < den := by exact_mod_cast hden
  obtain ⟨hlower, hupper, -⟩ := roundEven_bounds num hden
  have hlower' : (2 * (roundEven num den * den) : ℚ) ≤ 2 * num + den := by exact_mod_cast hlower
  have hupper' : (2 * num : ℚ) ≤ 2 * (roundEven num den * den) + den := by exact_mod_cast hupper
  rw [abs_le, neg_le_sub_iff_le_add, sub_le_iff_le_add, div_le_iff₀ hpos, ← sub_le_iff_le_add,
    le_div_iff₀ hpos]
  constructor <;> linarith

theorem roundEven_even {num den : Nat} (hden : 0 < den)
    (h : |(num / den : ℚ) - roundEven num den| = 1 / 2) : roundEven num den % 2 = 0 := by
  have hne : (den : ℚ) ≠ 0 := by exact_mod_cast hden.ne'
  apply (roundEven_bounds num hden).2.2
  rcases (abs_eq (by norm_num)).mp h with heq | heq
  · right
    field_simp at heq
    have hcast : (2 * num : ℚ) = 2 * (roundEven num den * den) + den := by linarith
    exact_mod_cast hcast
  · left
    field_simp at heq
    have hcast : (2 * (roundEven num den * den) : ℚ) = 2 * num + den := by linarith
    exact_mod_cast hcast

/-- The significand in which a quotient is rounded has its leading bit, unless it is that of the
first binade. -/
theorem log2_bounds (n : Nat) :
    n < 2 ^ 53 * 2 ^ (n.log2 - 52) ∧ (n.log2 - 52 = 0 ∨ 2 ^ 52 * 2 ^ (n.log2 - 52) ≤ n) := by
  have hlt : n < 2 ^ (n.log2 + 1) := Nat.lt_log2_self
  rw [← Nat.pow_add, ← Nat.pow_add]
  constructor
  · exact hlt.trans_le (Nat.pow_le_pow_right (by decide) (by omega))
  · rcases Nat.le_total n.log2 52 with hle | hge
    · exact .inl (by omega)
    · have hne : n ≠ 0 := by
        rintro rfl
        simp at hge
      right
      rw [Nat.add_sub_cancel' hge]
      exact Nat.log2_self_le hne

theorem roundEven_le {num den s : Nat} (hden : 0 < den) (h : num ≤ s * den) :
    roundEven num den ≤ s := by
  have hbound := (roundEven_bounds num hden).1
  by_contra hlt
  have hstep : (s + 1) * den ≤ roundEven num den * den := Nat.mul_le_mul_right den (by omega)
  rw [Nat.add_mul, Nat.one_mul] at hstep
  omega

theorem le_roundEven {num den s : Nat} (hden : 0 < den) (h : s * den ≤ num) :
    s ≤ roundEven num den := by
  have hbound := (roundEven_bounds num hden).2.1
  by_contra hlt
  have hstep : (roundEven num den + 1) * den ≤ s * den := Nat.mul_le_mul_right den (by omega)
  rw [Nat.add_mul, Nat.one_mul] at hstep
  omega

/-- `q` lies within half a `spacing` of the value at `rank`, with equality only at an even rank; the
other ranks are a spacing away, unless they lie below a number that is not rounded up. -/
structure RoundsTo (q : ℚ) (rank spacing : Nat) : Prop where
  near : |q - units rank| ≤ spacing / 2
  even : |q - units rank| = spacing / 2 → rank % 2 = 0
  above : ∀ other, rank < other → units rank + spacing ≤ units other
  below : ∀ other, other < rank → units other + spacing ≤ units rank ∨ units rank ≤ q

def roundedRank (num den : Nat) : Nat :=
  (Nat.log2 (num / den) - 52) * Nat.pow 2 52 +
    roundEven num (den * Nat.pow 2 (Nat.log2 (num / den) - 52))

theorem nearestRank_eq (num den : Nat) :
    nearestRank num den = min (roundedRank (num * unit) den) infinityRank := rfl

theorem roundsTo_of_significand {num den b : Nat} (hden : 0 < den)
    (hlt : num ≤ 2 ^ 53 * (den * 2 ^ b)) (hge : b = 0 ∨ 2 ^ 52 * (den * 2 ^ b) ≤ num) :
    RoundsTo (num / den) (b * Nat.pow 2 52 + roundEven num (den * Nat.pow 2 b)) (2 ^ b) := by
  have hstep : 0 < den * 2 ^ b := Nat.mul_pos hden (Nat.pow_pos (by decide))
  have hnear := abs_sub_roundEven_le num hstep
  have heven := @roundEven_even num _ hstep
  have hle := roundEven_le hstep hlt
  have hnormal : b = 0 ∨ 2 ^ 52 ≤ roundEven num (den * 2 ^ b) := hge.imp_right (le_roundEven hstep)
  simp only [Nat.pow_eq]
  generalize hs : roundEven num (den * 2 ^ b) = s at *
  have hunits : units (b * 2 ^ 52 + s) = s * 2 ^ b := units_add hle hnormal
  have hspacing : (0 : ℚ) < (2 ^ b : ℕ) := by exact_mod_cast Nat.pow_pos (n := b) (by decide)
  have hscale : |(num / den : ℚ) - units (b * 2 ^ 52 + s)| =
      |(num / (den * 2 ^ b : ℕ) : ℚ) - s| * (2 ^ b : ℕ) := by
    rw [← abs_of_pos hspacing, ← abs_mul, hunits, sub_mul, Nat.cast_mul,
      Nat.cast_mul, ← div_div, div_mul_cancel₀ _ hspacing.ne']
  refine ⟨?_, ?_, ?_, ?_⟩
  · rw [hscale]
    linarith [mul_le_mul_of_nonneg_right hnear hspacing.le]
  · intro heq
    have hhalf : |(num / (den * 2 ^ b : ℕ) : ℚ) - s| = 1 / 2 := by
      apply mul_right_cancel₀ hspacing.ne'
      linarith
    have hs2 := heven hhalf
    omega
  · intro other hother
    have hbinade : b ≤ binade (b * 2 ^ 52 + s) := by
      simp only [binade, Nat.pow_eq]
      omega
    calc
      units (b * 2 ^ 52 + s) + 2 ^ b ≤ units (b * 2 ^ 52 + s) + 2 ^ binade (b * 2 ^ 52 + s) :=
        Nat.add_le_add_left (Nat.pow_le_pow_right (by decide) hbinade) _
      _ = units (b * 2 ^ 52 + s + 1) := (units_succ _).symm
      _ ≤ units other := units_strictMono.monotone hother
  · intro other hother
    by_cases hfirst : b ≠ 0 ∧ s = 2 ^ 52
    · -- below the first significand the spacing is smaller, but nothing was rounded up to it
      right
      rw [hunits, hfirst.2, le_div_iff₀ (by exact_mod_cast hden)]
      have hexact := hge.resolve_left hfirst.1
      rw [Nat.mul_left_comm, Nat.mul_comm] at hexact
      exact_mod_cast hexact
    · left
      have hbefore : units (b * 2 ^ 52 + (s - 1)) = (s - 1) * 2 ^ b :=
        units_add (by omega) (by omega)
      have hmono : units other ≤ units (b * 2 ^ 52 + (s - 1)) :=
        units_strictMono.monotone (by omega)
      have hpos : 1 ≤ s := by omega
      calc
        units other + 2 ^ b ≤ (s - 1) * 2 ^ b + 2 ^ b := by omega
        _ = (s - 1 + 1) * 2 ^ b := by ring
        _ = units (b * 2 ^ 52 + s) := by rw [hunits, Nat.sub_add_cancel hpos]

theorem roundsTo_roundedRank (num : Nat) {den : Nat} (hden : 0 < den) :
    ∃ spacing, RoundsTo (num / den) (roundedRank num den) spacing := by
  obtain ⟨hlt, hge⟩ := log2_bounds (num / den)
  refine ⟨2 ^ (Nat.log2 (num / den) - 52), roundsTo_of_significand hden ?_ ?_⟩
  · rw [Nat.mul_left_comm, Nat.mul_comm]
    exact ((Nat.div_lt_iff_lt_mul hden).mp hlt).le
  · refine hge.imp_right fun hle => ?_
    rw [Nat.mul_left_comm, Nat.mul_comm]
    exact (Nat.le_div_iff_mul_le hden).mp hle

/-- No rank up to infinity is nearer to `q`, and if another one is as near, then this one is
even. -/
def IsNearestRank (q : ℚ) (rank : Nat) : Prop :=
  rank ≤ infinityRank ∧ ∀ other ≤ infinityRank,
    |q - units rank| < |q - units other| ∨
      |q - units rank| = |q - units other| ∧ (other = rank ∨ rank % 2 = 0)

namespace RoundsTo

variable {q : ℚ} {rank spacing : Nat}

/-- Another rank is at least half a spacing away, or it is strictly farther. -/
theorem half_le_or_lt (h : RoundsTo q rank spacing) {other : Nat} (hne : other ≠ rank) :
    (spacing / 2 : ℚ) ≤ |q - units other| ∨ |q - units rank| < |q - units other| := by
  have hnear := abs_le.mp h.near
  rcases Nat.lt_or_gt_of_ne hne with hlt | hgt
  · rcases h.below other hlt with hfar | hdown
    · have hfar' : (units other + spacing : ℚ) ≤ units rank := by exact_mod_cast hfar
      exact .inl (le_abs.mpr (.inl (by linarith)))
    · have hlt' : (units other : ℚ) < units rank := by exact_mod_cast units_strictMono hlt
      right
      rw [abs_of_nonneg (by linarith), abs_of_nonneg (by linarith)]
      linarith
  · have hfar : (units rank + spacing : ℚ) ≤ units other := by exact_mod_cast h.above other hgt
    exact .inl (le_abs.mpr (.inr (by linarith)))

theorem isNearestRank (h : RoundsTo q rank spacing) (hle : rank ≤ infinityRank) :
    IsNearestRank q rank := by
  refine ⟨hle, fun other _ => ?_⟩
  by_cases hne : other = rank
  · exact .inr ⟨by rw [hne], .inl hne⟩
  · rcases h.half_le_or_lt hne with hfar | hlt
    · rcases (h.near.trans hfar).lt_or_eq with hlt | heq
      · exact .inl hlt
      · have hhalf : |q - units rank| = spacing / 2 := le_antisymm h.near (heq ▸ hfar)
        exact .inr ⟨heq, .inr (h.even hhalf)⟩
    · exact .inl hlt

/-- A number that would be rounded to a rank past infinity is not below infinity. -/
theorem infinity_le (h : RoundsTo q rank spacing) (hlt : infinityRank < rank) :
    units infinityRank ≤ q := by
  rcases h.below infinityRank hlt with hfar | hdown
  · have hfar' : (units infinityRank + spacing : ℚ) ≤ units rank := by exact_mod_cast hfar
    have hnear := abs_le.mp h.near
    have hnonneg : (0 : ℚ) ≤ spacing := spacing.cast_nonneg
    linarith
  · have hmono : (units infinityRank : ℚ) < units rank := by exact_mod_cast units_strictMono hlt
    linarith

end RoundsTo

theorem isNearestRank_infinityRank {q : ℚ} (h : units infinityRank ≤ q) :
    IsNearestRank q infinityRank := by
  refine ⟨le_rfl, fun other hother => ?_⟩
  have hmono : (units other : ℚ) ≤ units infinityRank := by
    exact_mod_cast units_strictMono.monotone hother
  rw [abs_of_nonneg (by linarith), abs_of_nonneg (by linarith)]
  rcases hmono.lt_or_eq with hlt | heq
  · exact .inl (by linarith)
  · exact .inr ⟨by rw [heq], .inr (by decide)⟩

/-- The rank of a quotient is nearest to it, in units of the smallest positive double. -/
theorem isNearestRank_nearestRank (num : Nat) {den : Nat} (hden : 0 < den) :
    IsNearestRank ((num * unit : ℕ) / den) (nearestRank num den) := by
  obtain ⟨spacing, h⟩ := roundsTo_roundedRank (num * unit) hden
  rw [nearestRank_eq]
  rcases Nat.lt_or_ge infinityRank (roundedRank (num * unit) den) with hlt | hge
  · rw [Nat.min_eq_right hlt.le]
    exact isNearestRank_infinityRank (h.infinity_le hlt)
  · rw [Nat.min_eq_left hge]
    exact h.isNearestRank hge

namespace IsNearestRank

variable {q : ℚ} {rank other : Nat}

theorem le (h : IsNearestRank q rank) (hle : other ≤ infinityRank) :
    |q - units rank| ≤ |q - units other| := by
  rcases h.2 other hle with hlt | ⟨heq, -⟩
  · exact hlt.le
  · exact heq.le

theorem even (h : IsNearestRank q rank) (hle : other ≤ infinityRank) (hne : other ≠ rank)
    (heq : |q - units rank| = |q - units other|) : rank % 2 = 0 := by
  rcases h.2 other hle with hlt | ⟨-, hor⟩
  · exact absurd heq hlt.ne
  · exact hor.resolve_left hne

/-- Of two ranks as near as can be, none is the smaller: both would be even, with a nearer rank
between them. -/
theorem not_lt (h : IsNearestRank q rank) (h' : IsNearestRank q other) : ¬rank < other := by
  intro hlt
  have heq : |q - units rank| = |q - units other| := le_antisymm (h.le h'.1) (h'.le h.1)
  have heven := h.even h'.1 hlt.ne' heq
  have heven' := h'.even h.1 hlt.ne heq.symm
  have hbetween : rank + 1 < other := by omega
  have hnext : rank + 1 ≤ infinityRank := hbetween.le.trans h'.1
  have hle := h.le hnext
  have hleft : (units rank : ℚ) < units (rank + 1) := by
    exact_mod_cast units_strictMono (Nat.lt_succ_self rank)
  have hright : (units (rank + 1) : ℚ) < units other := by exact_mod_cast units_strictMono hbetween
  have hmiddle : q - units rank = units other - q := by
    rcases abs_eq_abs.mp heq with hsame | hopposite <;> linarith
  have hnearer : |q - units (rank + 1)| < q - units rank := abs_lt.mpr ⟨by linarith, by linarith⟩
  rw [abs_of_pos (by linarith)] at hle
  linarith

theorem unique (h : IsNearestRank q rank) (h' : IsNearestRank q other) : rank = other :=
  Nat.le_antisymm (Nat.not_lt.mp (h'.not_lt h)) (Nat.not_lt.mp (h.not_lt h'))

end IsNearestRank

end Numeral
end LoxLang
