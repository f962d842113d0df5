import Mathlib
import LoxLang.Source.Scanner

/-!
# Bytes of characters

A character is one byte of its own number if that is below 128. Other characters have a first byte
from 192 on, and behind it bytes between 128 and 192. So a test of bytes that does not tell the
bytes from 128 on apart is a test of characters, and a place behind whole characters is a boundary.
-/
namespace LoxLang

def bytesOf (cs : List Char) : List UInt8 := cs.flatMap String.utf8EncodeChar

@[simp] theorem bytesOf_nil : bytesOf [] = [] := rfl

@[simp] theorem bytesOf_cons (c : Char) (cs : List Char) :
    bytesOf (c :: cs) = String.utf8EncodeChar c ++ bytesOf cs := rfl

@[simp] theorem bytesOf_append (cs ds : List Char) :
    bytesOf (cs ++ ds) = bytesOf cs ++ bytesOf ds := List.flatMap_append

theorem toList_data_toByteArray_ofList (cs : List Char) :
    (String.ofList cs).toByteArray.data.toList = bytesOf cs := by
  rw [String.toByteArray_ofList, List.utf8Encode, List.toList_data_toByteArray, bytesOf]

theorem utf8ByteSize_ofList (cs : List Char) :
    (String.ofList cs).utf8ByteSize = (bytesOf cs).length := by
  rw [← toList_data_toByteArray_ofList, Array.length_toList]
  rfl

theorem utf8EncodeChar_of_lt {c : Char} (h : c.toNat < 128) :
    String.utf8EncodeChar c = [c.toUInt8] := by
  have hle : c.val.toNat ≤ 127 := Nat.le_of_lt_succ h
  simp only [String.utf8EncodeChar, hle, if_true]
  rfl

theorem ofUInt8_toUInt8 {c : Char} (h : c.toNat < 128) : Char.ofUInt8 c.toUInt8 = c := by
  apply Char.ext
  apply UInt32.toNat_inj.mp
  change c.val.toUInt8.toUInt32.toNat = c.toNat
  rw [UInt8.toNat_toUInt32, UInt32.toNat_toUInt8]
  exact Nat.mod_eq_of_lt (by change c.toNat < 256; omega)

theorem toNat_ofUInt8 (b : UInt8) : (Char.ofUInt8 b).toNat = b.toNat := UInt8.toNat_toUInt32 b

theorem toNat_toUInt8 {c : Char} (h : c.toNat < 128) : c.toUInt8.toNat = c.toNat := by
  rw [← toNat_ofUInt8, ofUInt8_toUInt8 h]

theorem continuesChar_iff (b : UInt8) :
    Scanning.continuesChar b ↔ 128 ≤ b.toNat ∧ b.toNat < 192 := by
  have hall : ∀ n < 256, Scanning.continuesChar (UInt8.ofNat n) ↔ 128 ≤ n ∧ n < 192 := by
    decide +kernel
  have hb := hall b.toNat b.toNat_lt
  rwa [UInt8.ofNat_toNat] at hb

theorem utf8EncodeChar_of_le {c : Char} (h : 128 ≤ c.toNat) :
    ∃ b bs, String.utf8EncodeChar c = b :: bs ∧ 192 ≤ b.toNat ∧
      ∀ b' ∈ bs, 128 ≤ b'.toNat ∧ b'.toNat < 192 := by
  have hne : ¬c.val.toNat ≤ 127 := Nat.not_le.mpr h
  simp only [String.utf8EncodeChar, hne, if_false]
  split
  · refine ⟨_, _, rfl, ?_, ?_⟩ <;> simp <;> omega
  · split
    · refine ⟨_, _, rfl, ?_, ?_⟩ <;> simp <;> omega
    · refine ⟨_, _, rfl, ?_, ?_⟩ <;> simp <;> omega

theorem exists_cons_utf8EncodeChar (c : Char) :
    ∃ b bs, String.utf8EncodeChar c = b :: bs ∧
      (c.toNat < 128 ∧ b = c.toUInt8 ∧ bs = [] ∨ 128 ≤ c.toNat ∧ 192 ≤ b.toNat) := by
  rcases Nat.lt_or_ge c.toNat 128 with hlt | hle
  · exact ⟨_, _, utf8EncodeChar_of_lt hlt, .inl ⟨hlt, rfl, rfl⟩⟩
  · obtain ⟨b, bs, hbytes, hfirst, -⟩ := utf8EncodeChar_of_le hle
    exact ⟨b, bs, hbytes, .inr ⟨hle, hfirst⟩⟩

theorem bytesOf_cons_ne_nil (c : Char) (cs : List Char) : bytesOf (c :: cs) ≠ [] := by
  obtain ⟨b, bs, hbytes, -⟩ := exists_cons_utf8EncodeChar c
  rw [bytesOf_cons, hbytes]
  exact List.cons_ne_nil _ _

section Tests

variable {p : Char → Bool} {v : Bool} (h : ∀ c : Char, 128 ≤ c.toNat → p c = v)

include h

/-- A test that does not tell the characters from 128 on apart holds of all bytes of a character, or
of its first byte not. -/
theorem test_utf8EncodeChar (c : Char) :
    (p c = true → ∀ b ∈ String.utf8EncodeChar c, p (Char.ofUInt8 b) = true) ∧
      (p c = false → ∃ b bs, String.utf8EncodeChar c = b :: bs ∧ p (Char.ofUInt8 b) = false) := by
  have hbyte (b : UInt8) (hb : 128 ≤ b.toNat) : p (Char.ofUInt8 b) = v :=
    h _ ((toNat_ofUInt8 b).symm ▸ hb)
  rcases Nat.lt_or_ge c.toNat 128 with hlt | hle
  · rw [utf8EncodeChar_of_lt hlt]
    constructor
    · intro hc b hb
      rw [List.mem_singleton.mp hb, ofUInt8_toUInt8 hlt, hc]
    · intro hc
      exact ⟨_, _, rfl, by rw [ofUInt8_toUInt8 hlt, hc]⟩
  · obtain ⟨b, bs, hbytes, hfirst, hrest⟩ := utf8EncodeChar_of_le hle
    rw [h c hle, hbytes]
    constructor
    · intro hv d hd
      rcases List.mem_cons.mp hd with rfl | hd
      · rw [hbyte d (by omega), hv]
      · rw [hbyte d (hrest d hd).1, hv]
    · intro hv
      exact ⟨b, bs, rfl, by rw [hbyte b (by omega), hv]⟩

theorem takeWhile_bytesOf (cs : List Char) :
    (bytesOf cs).takeWhile (p ∘ Char.ofUInt8) = bytesOf (cs.takeWhile p) := by
  induction cs with
  | nil => rfl
  | cons c cs ih =>
    obtain ⟨hall, hnone⟩ := test_utf8EncodeChar h c
    cases hc : p c with
    | true =>
      rw [bytesOf_cons, List.takeWhile_append_of_pos (p := p ∘ Char.ofUInt8) (hall hc), ih,
        List.takeWhile_cons_of_pos hc, bytesOf_cons]
    | false =>
      obtain ⟨b, bs, hbytes, hb⟩ := hnone hc
      rw [List.takeWhile_cons_of_neg (by simp [hc]), bytesOf_cons, hbytes]
      exact List.takeWhile_cons_of_neg (by simp [hb])

/-- The next byte tells of the next character, and zero of the end. -/
theorem test_head_bytesOf (hzero : p '\x00' = false) (cs : List Char) :
    p (Char.ofUInt8 ((bytesOf cs)[0]?.getD 0)) = cs.head?.any p := by
  cases cs with
  | nil => exact hzero
  | cons c cs =>
    obtain ⟨b, bs, hbytes, hcases⟩ := exists_cons_utf8EncodeChar c
    have hhead : (bytesOf (c :: cs))[0]?.getD 0 = b := by
      rw [bytesOf_cons, hbytes]
      rfl
    rw [hhead, List.head?_cons, Option.any_some]
    rcases hcases with ⟨hlt, rfl, -⟩ | ⟨hle, hb⟩
    · rw [ofUInt8_toUInt8 hlt]
    · rw [h c hle, h]
      rw [toNat_ofUInt8]
      omega

end Tests

/-- Behind the first byte of a character stand all its others. -/
theorem takeWhile_continuesChar {bs : List UInt8} (h : ∀ b ∈ bs, 128 ≤ b.toNat ∧ b.toNat < 192)
    (cs : List Char) : (bs ++ bytesOf cs).takeWhile Scanning.continuesChar = bs := by
  rw [List.takeWhile_append_of_pos fun b hb => (continuesChar_iff b).mpr (h b hb)]
  have hnone : (bytesOf cs).takeWhile Scanning.continuesChar = [] := by
    cases cs with
    | nil => rfl
    | cons c cs =>
      obtain ⟨b, bs, hbytes, hcases⟩ := exists_cons_utf8EncodeChar c
      rw [bytesOf_cons, hbytes]
      apply List.takeWhile_cons_of_neg
      rw [continuesChar_iff]
      rcases hcases with ⟨hlt, rfl, -⟩ | ⟨-, hb⟩
      · rw [toNat_toUInt8 hlt]
        omega
      · omega
  rw [hnone, List.append_nil]

/-- A byte below 128 is the character that it stands for. -/
theorem eq_toUInt8_iff {b : UInt8} {c : Char} (h : c.toNat < 128) :
    b = c.toUInt8 ↔ Char.ofUInt8 b = c := by
  constructor
  · rintro rfl
    exact ofUInt8_toUInt8 h
  · intro hb
    apply UInt8.toNat_inj.mp
    rw [← toNat_ofUInt8, hb, toNat_toUInt8 h]

theorem takeWhile_ne_bytesOf {c : Char} (h : c.toNat < 128) (cs : List Char) :
    (bytesOf cs).takeWhile (· ≠ c.toUInt8) = bytesOf (cs.takeWhile (· ≠ c)) := by
  have htest : (fun b : UInt8 => decide (b ≠ c.toUInt8)) =
      (fun d : Char => decide (d ≠ c)) ∘ Char.ofUInt8 := by
    funext b
    simp only [Function.comp_apply, ne_eq, eq_toUInt8_iff h]
  rw [htest]
  apply takeWhile_bytesOf (v := true)
  intro d hd
  rw [decide_eq_true_iff]
  rintro rfl
  omega

theorem eq_of_mem_utf8EncodeChar {b : UInt8} {c : Char} (hmem : b ∈ String.utf8EncodeChar c)
    (hb : b.toNat < 128) : Char.ofUInt8 b = c := by
  rcases Nat.lt_or_ge c.toNat 128 with hlt | hle
  · rw [utf8EncodeChar_of_lt hlt] at hmem
    rw [List.mem_singleton.mp hmem, ofUInt8_toUInt8 hlt]
  · obtain ⟨first, rest, hbytes, hfirst, hrest⟩ := utf8EncodeChar_of_le hle
    rw [hbytes] at hmem
    rcases List.mem_cons.mp hmem with rfl | hmem
    · omega
    · have := hrest b hmem
      omega

theorem count_bytesOf {c : Char} (h : c.toNat < 128) (cs : List Char) :
    (bytesOf cs).count c.toUInt8 = cs.count c := by
  induction cs with
  | nil => rfl
  | cons d cs ih =>
    have hd : (String.utf8EncodeChar d).count c.toUInt8 = [d].count c := by
      by_cases heq : d = c
      · rw [heq, utf8EncodeChar_of_lt h, List.count_singleton_self, List.count_singleton_self]
      · have hbyte : c.toUInt8 ∉ String.utf8EncodeChar d := by
          intro hmem
          exact heq ((eq_of_mem_utf8EncodeChar hmem (by rwa [toNat_toUInt8 h])).symm.trans
            (ofUInt8_toUInt8 h))
        rw [List.count_eq_zero.mpr hbyte, List.count_singleton, if_neg (by simpa using heq)]
    rw [bytesOf_cons, List.count_append, ih, hd, ← List.count_append, List.singleton_append]

/-! ## Slices -/

/-- A place behind whole characters is a boundary. -/
theorem isValid_of_toList {source : String} {before behind : List Char}
    (h : source.toList = before ++ behind) :
    String.Pos.Raw.IsValid source ⟨(bytesOf before).length⟩ := by
  apply String.Pos.Raw.isValid_iff_exists_append.mpr
  refine ⟨String.ofList before, String.ofList behind, ?_, ?_⟩
  · rw [← String.ofList_append, ← h, String.ofList_toList]
  · rw [← utf8ByteSize_ofList]
    rfl

theorem slice?_eq {source : String} {before text behind : List Char}
    (h : source.toList = before ++ text ++ behind) :
    Scanner.slice? source (bytesOf before).length (bytesOf (before ++ text)).length =
      some (String.ofList text) := by
  have hfirst := isValid_of_toList (h.trans (List.append_assoc ..))
  have hlast := isValid_of_toList h
  have hle : (bytesOf before).length ≤ (bytesOf (before ++ text)).length := by
    rw [bytesOf_append, List.length_append]
    omega
  rw [Scanner.slice?, dif_pos ⟨hle, hfirst, hlast⟩]
  have hsource : source = String.ofList (before ++ text ++ behind) := by
    rw [← h, String.ofList_toList]
  apply congrArg some
  apply String.toByteArray_inj.mp
  rw [String.toByteArray_extract]
  apply ByteArray.ext
  apply Array.toList_inj.mp
  rw [ByteArray.data_extract, Array.toList_extract]
  subst hsource
  rw [toList_data_toByteArray_ofList, toList_data_toByteArray_ofList]
  simp [bytesOf_append, List.extract_eq_take_drop]

end LoxLang
