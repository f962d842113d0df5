import LoxLang.Execution.Heap
import LoxLang.Proofs.Numeral.Texts
import LoxLang.Proofs.Source.Layout
import LoxLang.Tree.Outline

/-!
# Number texts are literals

`print`, the token listing and the outline write a number each in its own way. All three texts are
digits, perhaps with a point before further digits, and they write decimals that denote the number.
So the scanner reads each of them as this very number (`scan_numberTexts`).
-/
namespace LoxLang
open Numeral

namespace Decimal

variable {d : Decimal} {n : Float}

/-- A decimal of the same rank has the number as its nearest double. -/
theorem nearest_of_rank (hsign : negative n = false) (h : d.rank = Numeral.rank n) :
    Nearest d.value n := by
  have hfloat : d.toFloat = n := by
    rw [toFloat, h, ← hsign, ofRank_negative_rank]
  exact hfloat ▸ d.nearest_toFloat

theorem lexeme_numberText {t : NumberText} (hexponent : t.exponent = none)
    (h : Nearest t.decimal.value n) : Lexeme t.text (.token (.number n)) := by
  have hfraction : t.fraction ≠ [] := t.marked.resolve_right fun hne => hne hexponent
  have htext : t.text = t.whole ++ '.' :: t.fraction := by
    rw [NumberText.text, NumberText.mantissa, if_neg hfraction, hexponent, NumberText.power,
      List.append_nil]
  have hvalue : t.decimal.value = numeralValue t.whole t.fraction := by
    rw [NumberText.decimal, value, numeralValue, hexponent, Option.getD_none, zero_sub, zpow_neg,
      zpow_natCast, div_eq_mul_inv]
  rw [hvalue] at h
  rw [htext]
  exact .fraction ⟨t.whole_ne_nil, fun c hc => t.isDigit c (List.mem_append_left _ hc)⟩
    ⟨hfraction, fun c hc => t.isDigit c (List.mem_append_right _ hc)⟩ h

theorem lexeme_positional_point (hexponent : 0 ≤ d.exponent) (h : Nearest d.value n) :
    Lexeme (d.positional ++ ['.', '0']) (.token (.number n)) := by
  obtain ⟨t, htext, hnone, hvalue⟩ := exists_integerText d hexponent
  rw [htext]
  exact lexeme_numberText hnone (hvalue ▸ h)

/-- Digits, with a point in place if there is a fraction, are a literal. -/
theorem lexeme_positional (h : Nearest d.value n) :
    Lexeme d.positional (.token (.number n)) := by
  rcases le_or_gt 0 d.exponent with hexponent | hexponent
  · obtain ⟨zeros, hzeros⟩ := Int.eq_ofNat_of_zero_le hexponent
    have hdigits : ∀ c ∈ d.digits ++ List.replicate zeros '0', c.isDigit := by
      intro c hc
      rcases List.mem_append.mp hc with hdigit | hzero
      · exact isDigit_of_mem_digits hdigit
      · rw [List.eq_of_mem_replicate hzero]
        decide
    have hvalue : numeralValue (d.digits ++ List.replicate zeros '0') [] = d.value := by
      rw [numeralValue, List.append_nil, Nat.ofDigitChars_append, ofDigitChars_digits,
        ofDigitChars_zeros, value, hzeros, List.length_nil, pow_zero, div_one, zpow_natCast,
        Nat.cast_mul, Nat.cast_pow, Nat.cast_ofNat]
    rw [positional, if_pos hexponent, hzeros]
    exact .integer ⟨List.append_ne_nil_of_left_ne_nil d.digits_ne_nil _, hdigits⟩ (hvalue ▸ h)
  · obtain ⟨t, htext, hnone, hdecimal⟩ := exists_fractionText d hexponent
    rw [htext]
    exact lexeme_numberText hnone (hdecimal ▸ h)

end Decimal

namespace Numeral

variable {n : Float}

/-- The shortest digits of a number are a literal of it. -/
theorem lexeme_plain (hfinite : isFinite n) (hsign : negative n = false) (infinity : String) :
    Lexeme (plain infinity n).toList (.token (.number n)) := by
  have hlt := rank_lt_of_isFinite hfinite
  have hnan : isNaN n = false := decide_eq_false (Nat.not_lt.mpr hlt.le)
  rw [plain, hnan, if_neg Bool.false_ne_true, if_neg hlt.ne, signed, hsign,
    if_neg Bool.false_ne_true, String.toList_ofList]
  exact Decimal.lexeme_positional (Decimal.nearest_of_rank hsign (Decimal.rank_shortest .up hlt.le))

theorem rank_whole (h : isIntegral n) : (⟨whole n, 0⟩ : Decimal).rank = rank n := by
  obtain ⟨hfinite, hdvd⟩ := Bool.and_eq_true_iff.mp h
  have hunits : whole n * unit = units (rank n) :=
    Nat.div_mul_cancel (Nat.dvd_of_mod_eq_zero (eq_of_beq hdvd))
  apply Decimal.rank_of_value (rank_lt_of_isFinite hfinite).le
  rw [Decimal.value, zpow_zero, mul_one]
  exact_mod_cast hunits

theorem lexeme_whole (hintegral : isIntegral n) (hsign : negative n = false) :
    Lexeme (toString (whole n) ++ ".0").toList (.token (.number n)) := by
  have hdigits : (toString (whole n) ++ ".0").toList =
      (⟨whole n, 0⟩ : Decimal).positional ++ ['.', '0'] := by
    rw [Nat.toString_eq_ofList_toDigits, String.toList_append, String.toList_ofList]
    exact congrArg (· ++ ['.', '0']) (List.append_nil _).symm
  rw [hdigits]
  exact Decimal.lexeme_positional_point le_rfl
    (Decimal.nearest_of_rank hsign (rank_whole hintegral))

theorem lexeme_literalText (hfinite : isFinite n) (hsign : negative n = false) :
    Lexeme (literalText n).toList (.token (.number n)) := by
  unfold literalText
  split
  · next h =>
    rw [hsign, Bool.false_and, signed, if_neg Bool.false_ne_true]
    exact lexeme_whole (Bool.and_eq_true_iff.mp h).1 hsign
  · exact lexeme_plain hfinite hsign "inf"

theorem lexeme_outlineText (hfinite : isFinite n) (hsign : negative n = false) :
    Lexeme (outlineText n).toList (.token (.number n)) := by
  unfold outlineText
  split
  · next h =>
    rw [hsign, signed, if_neg Bool.false_ne_true]
    exact lexeme_whole h hsign
  · exact lexeme_plain hfinite hsign "inf"

end Numeral

theorem scan_of_lexeme {text : String} {kind : Kind} (h : Lexeme text.toList (.token kind))
    (hkind : ∀ contents, kind ≠ .string contents) :
    scan text = [.ok ⟨kind, text, 1⟩, .ok ⟨.eof, "", 1⟩] := by
  have hnewlines : text.toList.count '\n' = 0 :=
    List.count_eq_zero.mpr (newline_not_mem_of_lexeme h hkind)
  rw [scan_eq, itemsFrom_lexeme h, hnewlines, String.ofList_toList]

/-- The texts of a number are literals of the language. What `print` shows of a finite number
without a sign, the literal column of the token listing and the outline of the number are each
scanned as one number token, and its value is this number. -/
theorem scan_numberTexts {n : Float} (hfinite : isFinite n) (hsign : negative n = false)
    (heap : Heap) (id : Nat) :
    ∀ text ∈ [heap.text (.number n), (Kind.number n).literal,
        (Expr.literal id (.number n)).outline],
      scan text = [.ok ⟨.number n, text, 1⟩, .ok ⟨.eof, "", 1⟩] := by
  have hscan {text : String} (h : Lexeme text.toList (.token (.number n))) :=
    scan_of_lexeme h fun _ => nofun
  simp only [List.forall_mem_cons, List.not_mem_nil, false_imp_iff, implies_true, and_true]
  exact ⟨hscan (lexeme_plain hfinite hsign "Infinity"), hscan (lexeme_literalText hfinite hsign),
    hscan (lexeme_outlineText hfinite hsign)⟩

/-- The shortest digits of this number write another integer than its outline, which is exact. -/
def large : Float := 1e23

theorem texts_large : isFinite large ∧ negative large = false ∧
    Heap.initial.text (.number large) = "100000000000000000000000" ∧
    (Expr.literal 0 (.number large)).outline = "99999999999999991611392.0" := by
  decide +kernel

theorem scan_numberTexts_large :
    scan "100000000000000000000000" =
      [.ok ⟨.number large, "100000000000000000000000", 1⟩, .ok ⟨.eof, "", 1⟩] ∧
    scan "99999999999999991611392.0" =
      [.ok ⟨.number large, "99999999999999991611392.0", 1⟩, .ok ⟨.eof, "", 1⟩] := by
  obtain ⟨hfinite, hsign, hprinted, houtline⟩ := texts_large
  have hscan := scan_numberTexts hfinite hsign Heap.initial 0
  rw [hprinted, houtline] at hscan
  exact ⟨hscan _ (by simp), hscan _ (by simp)⟩

end LoxLang
