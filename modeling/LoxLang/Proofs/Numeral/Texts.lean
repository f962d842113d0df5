import LoxLang.Numeral.Text
import LoxLang.Proofs.Numeral.Nearest

/-!
# Reading numbers back

The text of a JSON number holds all of the number. Read as a decimal it has the value of the
shortest decimal, or is that decimal, and the double nearest to this value is the number
(`readJson_jsonText`). The sign stands in front of the text, so that the two zeros are kept apart.
-/
namespace LoxLang
namespace Decimal
open Numeral

/-! ## The shortest decimal denotes its double -/

theorem isNearestRank_rank (d : Decimal) : IsNearestRank (d.value * unit) d.rank := by
  obtain ⟨hden, hpower⟩ := powerOfTen_eq d.exponent
  have hnearest := isNearestRank_nearestRank (d.coefficient * (powerOfTen d.exponent).1) hden
  rwa [Nat.cast_mul, Nat.cast_mul, mul_div_right_comm, mul_div_assoc, hpower] at hnearest

theorem rank_eq_of_value_eq {d d' : Decimal} (h : d.value = d'.value) : d.rank = d'.rank := by
  have hnearest := d.isNearestRank_rank
  rw [h] at hnearest
  exact hnearest.unique d'.isNearestRank_rank

theorem rank_of_value {d : Decimal} {rank : Nat} (hle : rank ≤ infinityRank)
    (h : d.value * unit = units rank) : d.rank = rank := by
  have hself : IsNearestRank (units rank) rank := by
    refine ⟨hle, fun other _ => ?_⟩
    by_cases hne : other = rank
    · exact .inr ⟨by rw [hne], .inl hne⟩
    · have hapart : (units rank : ℚ) - units other ≠ 0 := by
        intro heq
        have hunits : units rank = units other := by exact_mod_cast sub_eq_zero.mp heq
        exact hne (units_strictMono.injective hunits).symm
      rw [sub_self, abs_zero]
      exact .inl (abs_pos.mpr hapart)
  have hnearest := d.isNearestRank_rank
  rw [h] at hnearest
  exact hnearest.unique hself

/-- Powers of five over powers of ten are powers of two. -/
theorem value_mul_pow_two (n u : Nat) :
    (⟨u * Nat.pow 5 n, -n⟩ : Decimal).value * (Nat.pow 2 n : ℕ) = u := by
  have hten : (10 : ℚ) ^ n ≠ 0 := pow_ne_zero n (by norm_num)
  have hpowers : (5 : ℚ) ^ n * 2 ^ n = 10 ^ n := by rw [← mul_pow]; norm_num
  rw [value, zpow_neg, zpow_natCast, Nat.cast_mul, Nat.pow_eq, Nat.pow_eq, Nat.cast_pow,
    Nat.cast_pow, Nat.cast_ofNat, Nat.cast_ofNat, mul_right_comm, mul_assoc (u : ℚ), hpowers,
    mul_assoc, mul_inv_cancel₀ hten, mul_one]

theorem value_exact (rank : Nat) : (exact rank).value * unit = units rank := by
  have hexponent : (exact rank).exponent = -(1074 : ℕ) := rfl
  have hcoefficient : (exact rank).coefficient = units rank * Nat.pow 5 1074 := rfl
  unfold unit
  -- the exponent is hidden, or the powers would be computed
  generalize 1074 = n at hexponent hcoefficient ⊢
  rw [← value_mul_pow_two n (units rank), ← hexponent, ← hcoefficient]

theorem rank_of_onGrid? {tie : Tie} {rank : Nat} {e : Int} {d : Decimal}
    (h : onGrid? tie rank e = some d) : d.rank = rank := by
  rw [onGrid?] at h
  have hdenotes := List.find?_some h
  exact eq_of_beq hdenotes

theorem rank_search {rank : Nat} (tie : Tie) (hle : rank ≤ infinityRank) (count : Nat) (e : Int) :
    (search tie rank count e).rank = rank := by
  induction count generalizing e with
  | zero => exact rank_of_value hle (value_exact rank)
  | succ count ih =>
    rw [search]
    cases hgrid : onGrid? tie rank e with
    | none => exact ih (e - 1)
    | some d => exact rank_of_onGrid? hgrid

/-- The shortest decimal of a finite double denotes it. -/
theorem rank_shortest {rank : Nat} (tie : Tie) (hle : rank ≤ infinityRank) :
    (shortest tie rank).rank = rank := by
  rw [shortest]
  split
  · next hzero =>
    subst hzero
    have hunits : units 0 = 0 := by decide
    exact rank_of_value hle (by rw [value, hunits, Nat.cast_zero, zero_mul, zero_mul])
  · exact rank_search tie hle 20 _

/-! ## The exponents of digits -/

theorem isDigit_of_mem_digits {d : Decimal} {c : Char} (h : c ∈ d.digits) : c.isDigit :=
  Nat.isDigit_of_mem_toDigits (by decide) le_rfl h

theorem digits_ne_nil (d : Decimal) : d.digits ≠ [] := Nat.toDigits_ne_nil

theorem ofDigitChars_digits (d : Decimal) : Nat.ofDigitChars 10 d.digits 0 = d.coefficient :=
  Nat.ofDigitChars_toDigits (by decide) le_rfl

end Decimal

namespace Numeral

/-- Zeros behind digits are factors of ten. -/
theorem ofDigitChars_zeros (n init : Nat) :
    Nat.ofDigitChars 10 (List.replicate n '0') init = init * 10 ^ n := by
  induction n generalizing init with
  | zero => exact (Nat.mul_one init).symm
  | succ n ih =>
    rw [List.replicate_succ, Nat.ofDigitChars_cons, ih, Nat.pow_succ]
    simp only [Nat.sub_self, Nat.add_zero]
    ring

theorem ne_of_isDigit {c d : Char} (h : c.isDigit) (hd : d.isDigit = false) : c ≠ d := by
  intro heq
  rw [heq, hd] at h
  exact nomatch h

/-! ## The parts of a text -/

/-- The parts of the text of a JSON number: digits before and behind a point, and an exponent. The
digits of a natural alone are no such text. -/
structure NumberText where
  whole : List Char
  fraction : List Char
  exponent : Option Int
  whole_ne_nil : whole ≠ []
  isDigit : ∀ c ∈ whole ++ fraction, c.isDigit
  marked : fraction ≠ [] ∨ exponent ≠ none

namespace NumberText

variable (t : NumberText)

/-- Digits, and a point before further ones. -/
def mantissa : List Char := t.whole ++ if t.fraction = [] then [] else '.' :: t.fraction

/-- An exponent, with its sign in any case. -/
def power : Option Int → List Char
  | none => []
  | some e => 'e' :: (if e < 0 then '-' else '+') :: Nat.toDigits 10 e.natAbs

def text : List Char := t.mantissa ++ power t.exponent

def decimal : Decimal :=
  ⟨Nat.ofDigitChars 10 (t.whole ++ t.fraction) 0, t.exponent.getD 0 - t.fraction.length⟩

theorem decimal_eq {d : Decimal}
    (hcoefficient : Nat.ofDigitChars 10 (t.whole ++ t.fraction) 0 = d.coefficient)
    (hexponent : t.exponent.getD 0 - t.fraction.length = d.exponent) : t.decimal = d := by
  rw [decimal, hcoefficient, hexponent]

theorem isDigit_of_mem_mantissa {c : Char} (h : c ∈ t.mantissa) : c.isDigit ∨ c = '.' := by
  unfold mantissa at h
  rcases List.mem_append.mp h with hwhole | hpoint
  · exact .inl (t.isDigit c (List.mem_append_left _ hwhole))
  · split at hpoint
    · exact nomatch hpoint
    · rcases List.mem_cons.mp hpoint with heq | hfraction
      · exact .inr heq
      · exact .inl (t.isDigit c (List.mem_append_right _ hfraction))

theorem text_eq_cons : ∃ c cs, t.text = c :: cs ∧ c.isDigit := by
  obtain ⟨c, cs, hwhole⟩ := List.exists_cons_of_ne_nil t.whole_ne_nil
  have hmem : c ∈ t.whole ++ t.fraction := by
    rw [hwhole]
    exact List.mem_cons_self
  rw [text, mantissa, hwhole, List.cons_append, List.cons_append]
  exact ⟨c, _, rfl, t.isDigit c hmem⟩

theorem isDigit_of_mem_power {exponent : Option Int} {c : Char} (h : c ∈ power exponent) :
    c.isDigit ∨ c ∈ ['e', '+', '-'] := by
  cases exponent with
  | none => exact nomatch h
  | some e =>
    rw [power, List.mem_cons, List.mem_cons] at h
    rcases h with heq | hsign | hdigit
    · rw [heq]
      exact .inr (by decide)
    · rw [hsign]
      split <;> exact .inr (by decide)
    · exact .inl (Nat.isDigit_of_mem_toDigits (by decide) le_rfl hdigit)

theorem isDigit_of_mem_text {c : Char} (h : c ∈ t.text) :
    c.isDigit ∨ c ∈ ['.', 'e', '+', '-'] := by
  rcases List.mem_append.mp h with hmantissa | hpower
  · rcases t.isDigit_of_mem_mantissa hmantissa with hdigit | heq
    · exact .inl hdigit
    · rw [heq]
      exact .inr List.mem_cons_self
  · exact (isDigit_of_mem_power hpower).imp_right (List.mem_cons_of_mem _)

/-- The text does not consist of digits only. -/
theorem exists_isDigit_eq_false : ∃ c ∈ t.text, c.isDigit = false := by
  rcases t.marked with hfraction | hexponent
  · refine ⟨'.', ?_, rfl⟩
    rw [text, mantissa, if_neg hfraction]
    simp
  · obtain ⟨e, he⟩ := Option.ne_none_iff_exists'.mp hexponent
    refine ⟨'e', ?_, rfl⟩
    rw [text, he, power]
    simp

end NumberText

/-! ## The reader -/

/-- The signed exponent at the end of a number's text, if there is one. -/
def readExponent : List Char → Int
  | _ :: '-' :: digits => -Nat.ofDigitChars 10 digits 0
  | _ :: _ :: digits => Nat.ofDigitChars 10 digits 0
  | _ => 0

/-- The decimal that the text of a number without a sign writes. -/
def readDecimal (text : List Char) : Decimal :=
  let mantissa := text.takeWhile (· ≠ 'e')
  let fraction := (mantissa.dropWhile (· ≠ '.')).drop 1
  ⟨Nat.ofDigitChars 10 (mantissa.erase '.') 0,
    readExponent (text.dropWhile (· ≠ 'e')) - fraction.length⟩

/-- The double nearest to what the text of a number writes. -/
def readNumber : List Char → Float
  | '-' :: text => ofRank true (readDecimal text).rank
  | text => ofRank false (readDecimal text).rank

namespace NumberText

variable (t : NumberText)

theorem readExponent_power (exponent : Option Int) :
    readExponent (power exponent) = exponent.getD 0 := by
  cases exponent with
  | none => rfl
  | some e =>
    have hdigits : Nat.ofDigitChars 10 (Nat.toDigits 10 e.natAbs) 0 = e.natAbs :=
      Nat.ofDigitChars_toDigits (by decide) le_rfl
    rw [power]
    split
    · rw [readExponent, hdigits, Option.getD_some]
      omega
    · rw [readExponent, hdigits, Option.getD_some]
      · omega
      · decide

/-- The mantissa ends where an exponent begins. -/
theorem takeWhile_text : t.text.takeWhile (· ≠ 'e') = t.mantissa ∧
    t.text.dropWhile (· ≠ 'e') = power t.exponent := by
  have hmantissa : ∀ c ∈ t.mantissa, decide (c ≠ 'e') = true := by
    intro c hc
    rcases t.isDigit_of_mem_mantissa hc with hdigit | heq
    · exact decide_eq_true (ne_of_isDigit hdigit (by decide))
    · rw [heq]
      decide
  have hpower : (power t.exponent).takeWhile (· ≠ 'e') = [] ∧
      (power t.exponent).dropWhile (· ≠ 'e') = power t.exponent := by
    cases t.exponent <;> exact ⟨rfl, rfl⟩
  rw [text, List.takeWhile_append_of_pos hmantissa, List.dropWhile_append_of_pos hmantissa,
    hpower.1, hpower.2, List.append_nil]
  exact ⟨rfl, rfl⟩

theorem fraction_mantissa : (t.mantissa.dropWhile (· ≠ '.')).drop 1 = t.fraction := by
  have hwhole : ∀ c ∈ t.whole, decide (c ≠ '.') = true := fun c hc =>
    decide_eq_true (ne_of_isDigit (t.isDigit c (List.mem_append_left _ hc)) (by decide))
  rw [mantissa, List.dropWhile_append_of_pos hwhole]
  split
  · next h => rw [h]; rfl
  · rfl

theorem erase_mantissa : t.mantissa.erase '.' = t.whole ++ t.fraction := by
  have hwhole : '.' ∉ t.whole :=
    fun hmem => absurd (t.isDigit _ (List.mem_append_left _ hmem)) (by decide)
  unfold mantissa
  split
  · next h => rw [h, List.append_nil, List.erase_of_not_mem hwhole]
  · rw [List.erase_append_right _ hwhole, List.erase_cons_head]

theorem readDecimal_text : readDecimal t.text = t.decimal := by
  obtain ⟨hmantissa, hpower⟩ := t.takeWhile_text
  rw [readDecimal, hmantissa, hpower, t.fraction_mantissa, t.erase_mantissa, readExponent_power]
  rfl

end NumberText

/-! ## The texts that are written -/

section Written

variable (d : Decimal)

/-- An integer has a zero behind its point. -/
theorem exists_integerText (h : 0 ≤ d.exponent) :
    ∃ t : NumberText, d.positional ++ ['.', '0'] = t.text ∧ t.exponent = none ∧
      t.decimal.value = d.value := by
  obtain ⟨n, hn⟩ := Int.eq_ofNat_of_zero_le h
  let t : NumberText :=
    { whole := d.digits ++ List.replicate n '0'
      fraction := ['0']
      exponent := none
      whole_ne_nil := List.append_ne_nil_of_left_ne_nil d.digits_ne_nil _
      isDigit := by
        intro c hc
        simp only [List.mem_append, List.mem_replicate, List.mem_singleton] at hc
        rcases hc with (hdigit | ⟨-, hzero⟩) | hzero
        · exact Decimal.isDigit_of_mem_digits hdigit
        · rw [hzero]
          decide
        · rw [hzero]
          decide
      marked := .inl (List.cons_ne_nil _ _) }
  refine ⟨t, ?_, rfl, ?_⟩
  · rw [Decimal.positional, if_pos h, hn]
    exact (List.append_nil _).symm
  · have hcoefficient : t.decimal.coefficient = d.coefficient * 10 ^ (n + 1) := by
      change Nat.ofDigitChars 10 (d.digits ++ List.replicate n '0' ++ List.replicate 1 '0') 0 = _
      rw [List.append_assoc, List.replicate_append_replicate, Nat.ofDigitChars_append,
        d.ofDigitChars_digits, ofDigitChars_zeros]
    have hexponent : t.decimal.exponent = -1 := rfl
    rw [Decimal.value, Decimal.value, hcoefficient, hexponent, hn, Nat.cast_mul, Nat.cast_pow,
      Nat.cast_ofNat, zpow_natCast, zpow_neg_one, mul_assoc, pow_succ,
      mul_inv_cancel_right₀ (by norm_num)]

/-- A fraction has zeros in front until there is a digit before its point. -/
theorem exists_fractionText (h : d.exponent < 0) :
    ∃ t : NumberText, d.positional = t.text ∧ t.exponent = none ∧ t.decimal = d := by
  let places := (-d.exponent).toNat
  let padded := List.replicate (places + 1 - d.digits.length) '0' ++ d.digits
  have hplaces : 0 < places := by omega
  have hlength : places < padded.length := by
    rw [List.length_append, List.length_replicate]
    omega
  let t : NumberText :=
    { whole := padded.take (padded.length - places)
      fraction := padded.drop (padded.length - places)
      exponent := none
      whole_ne_nil := by
        rw [ne_eq, ← List.length_eq_zero_iff, List.length_take]
        omega
      isDigit := by
        intro c hc
        rw [List.take_append_drop] at hc
        rcases List.mem_append.mp hc with hzero | hdigit
        · rw [List.eq_of_mem_replicate hzero]
          decide
        · exact Decimal.isDigit_of_mem_digits hdigit
      marked := by
        left
        rw [ne_eq, ← List.length_eq_zero_iff, List.length_drop]
        omega }
  have hfraction : t.fraction.length = places := by
    rw [List.length_drop]
    omega
  refine ⟨t, ?_, rfl, ?_⟩
  · have hmantissa : t.mantissa = t.whole ++ '.' :: t.fraction := by
      rw [NumberText.mantissa, if_neg (t.marked.resolve_right (fun hne => hne rfl))]
    rw [Decimal.positional, if_neg (not_le.mpr h), NumberText.text, hmantissa]
    exact (List.append_nil _).symm
  · apply t.decimal_eq
    · rw [List.take_append_drop, Nat.ofDigitChars_append, ofDigitChars_zeros, Nat.zero_mul,
        d.ofDigitChars_digits]
    · rw [hfraction, Option.getD_none]
      omega

theorem exists_scientificText :
    ∃ t : NumberText, d.scientific = t.text ∧ t.decimal = d := by
  have hpos : 0 < d.digits.length := List.length_pos_iff.mpr d.digits_ne_nil
  let t : NumberText :=
    { whole := d.digits.take 1
      fraction := d.digits.drop 1
      exponent := some d.leadingExponent
      whole_ne_nil := by
        rw [ne_eq, ← List.length_eq_zero_iff, List.length_take]
        omega
      isDigit := by
        intro c hc
        rw [List.take_append_drop] at hc
        exact Decimal.isDigit_of_mem_digits hc
      marked := .inr (Option.some_ne_none _) }
  refine ⟨t, ?_, ?_⟩
  · rw [Decimal.scientific, NumberText.text, NumberText.mantissa]
    simp only [List.isEmpty_iff]
    rfl
  · apply t.decimal_eq
    · rw [List.take_append_drop, d.ofDigitChars_digits]
    · rw [List.length_drop, Option.getD_some, Decimal.leadingExponent]
      omega

end Written

theorem ofRank_negative_rank (n : Float) : ofRank (negative n) (rank n) = n := by
  have hlt : n.toBits.toNat < 2 ^ 64 := n.toBits.toNat_lt
  have hbits : (if negative n then signBit + rank n else rank n) = n.toBits.toNat := by
    by_cases hneg : 2 ^ 63 ≤ n.toBits.toNat
    · simp only [negative, rank, signBit, Nat.pow_eq, hneg, decide_true, if_true]
      omega
    · simp only [negative, rank, signBit, Nat.pow_eq, hneg, decide_false]
      exact Nat.mod_eq_of_lt (Nat.lt_of_not_le hneg)
  rw [ofRank, hbits, UInt64.ofNat_toNat, Float.ofBits_toBits]

theorem rank_lt_of_isFinite {n : Float} (h : isFinite n) : rank n < infinityRank :=
  of_decide_eq_true h

/-- The text of a finite number is a sign and the parts of a decimal that denotes its magnitude. -/
theorem exists_numberText {n : Float} (h : isFinite n) :
    ∃ t : NumberText, (jsonText n).toList = (if negative n then ['-'] else []) ++ t.text ∧
      t.decimal.rank = rank n := by
  have hrank := (rank_lt_of_isFinite h).le
  have hshortest := Decimal.rank_shortest .even hrank
  obtain ⟨t, htext, hdecimal⟩ : ∃ t : NumberText, (jsonText n).toList =
      (if negative n then ['-'] else []) ++ t.text ∧
        t.decimal.value = (Decimal.shortest .even (rank n)).value := by
    generalize hd : Decimal.shortest .even (rank n) = d
    have hsigned (text : List Char) : (signed (negative n) (String.ofList text)).toList =
        (if negative n then ['-'] else []) ++ text := by
      unfold signed
      cases negative n <;> simp
    rw [jsonText, if_pos h, hd, hsigned]
    by_cases hplain : (-5 ≤ d.leadingExponent && decide (d.leadingExponent < 16)) = true
    · rw [if_pos hplain]
      by_cases hexponent : 0 ≤ d.exponent
      · obtain ⟨t, htext, -, hvalue⟩ := exists_integerText d hexponent
        rw [if_pos hexponent]
        exact ⟨t, congrArg _ htext, hvalue⟩
      · obtain ⟨t, htext, -, hdecimal⟩ := exists_fractionText d (lt_of_not_ge hexponent)
        rw [if_neg hexponent, List.append_nil]
        exact ⟨t, congrArg _ htext, congrArg _ hdecimal⟩
    · obtain ⟨t, htext, hdecimal⟩ := exists_scientificText d
      rw [if_neg hplain]
      exact ⟨t, congrArg _ htext, congrArg _ hdecimal⟩
  exact ⟨t, htext, (Decimal.rank_eq_of_value_eq hdecimal).trans hshortest⟩

/-- Read as decimals, the texts of finite numbers give back the numbers. -/
theorem readNumber_jsonText {n : Float} (h : isFinite n) :
    readNumber (jsonText n).toList = n := by
  obtain ⟨t, htext, hrank⟩ := exists_numberText h
  rw [htext]
  conv_rhs => rw [← ofRank_negative_rank n, ← hrank]
  cases negative n with
  | true =>
    rw [if_pos rfl, List.cons_append, List.nil_append, readNumber, t.readDecimal_text]
  | false =>
    have hsign : ∀ text, t.text ≠ '-' :: text := by
      intro text heq
      obtain ⟨c, cs, hcons, hdigit⟩ := t.text_eq_cons
      rw [hcons] at heq
      rw [List.cons.inj heq |>.1] at hdigit
      exact nomatch hdigit
    rw [if_neg Bool.false_ne_true, List.nil_append, readNumber.eq_2 _ hsign, t.readDecimal_text]

end Numeral
end LoxLang
