import Mathlib
import LoxLang.Proofs.Renumbering
import LoxLang.Proofs.Source.Words

/-!
# Joined sources

Two sources with a newline between them are scanned into what both are scanned into one after the
other, the second with later lines (`tokensOf_joined`). A newline ends every stretch of text
but a string without a closing quote, so the first source must have no such string.
-/
namespace LoxLang

theorem takeWhile_append_cons {p : Char → Bool} {b : Char} (hb : p b = false)
    (cs rest : List Char) : (cs ++ b :: rest).takeWhile p = cs.takeWhile p := by
  induction cs with
  | nil => simp [hb]
  | cons c cs ih => simp [List.takeWhile_cons, ih]

namespace Stretch

variable (c : Char) (cs rest : List Char) {b : Char}

theorem numberTail_append_blank (hb : isBlank b) :
    numberTail (cs ++ b :: rest) = numberTail cs := by
  obtain ⟨hdigit, -, hpoint, -⟩ := separates_of_isBlank hb
  have hle : (cs.takeWhile Char.isDigit).length ≤ cs.length := (List.takeWhile_prefix _).length_le
  unfold numberTail
  simp only [takeWhile_append_cons hdigit, List.drop_append_of_le_length hle]
  cases hdrop : cs.drop (cs.takeWhile Char.isDigit).length with
  | nil => simp [hpoint]
  | cons d ds =>
    by_cases hd : d = '.'
    · subst hd
      simp only [List.cons_append, takeWhile_append_cons hdigit]
    · simp [hd]

theorem operatorStarting_append_blank (hb : isBlank b) :
    operatorStarting c (cs ++ b :: rest) = operatorStarting c cs := by
  obtain ⟨-, -, -, hequal, -⟩ := separates_of_isBlank hb
  cases cs with
  | nil => simp [operatorStarting, hequal]
  | cons d ds => rfl

theorem stringStarting_append
    (h : (stringStarting cs).content ≠ .fault .unterminated) :
    stringStarting (cs ++ rest) = stringStarting cs := by
  by_cases hlt : (cs.takeWhile (· ≠ '"')).length < cs.length
  · have hsame : (cs ++ rest).takeWhile (· ≠ '"') = cs.takeWhile (· ≠ '"') := by
      rw [List.takeWhile_append, if_neg (Nat.ne_of_lt hlt)]
    have hlt' : (cs.takeWhile (· ≠ '"')).length < (cs ++ rest).length := by
      rw [List.length_append]
      omega
    simp only [stringStarting, hsame, hlt, hlt', if_true]
  · simp only [stringStarting, hlt, if_false, ne_eq, not_true_eq_false] at h

/-- The first stretch ends at a blank at the latest, unless it is a string without an end, or a
comment and the blank is no newline. -/
theorem starting_append_blank (hb : isBlank b)
    (hopen : (starting c cs).content ≠ .fault .unterminated)
    (hlayout : b = '\n' ∨ (starting c cs).content ≠ .layout) :
    starting c (cs ++ b :: rest) = starting c cs := by
  obtain ⟨-, hword, -, -, hslash⟩ := separates_of_isBlank hb
  have hcomment : (c = '/' && (cs ++ b :: rest).head? = some '/') =
      (c = '/' && cs.head? = some '/') := by
    cases cs <;> simp [hslash]
  unfold starting at hopen hlayout ⊢
  simp only [numberTail_append_blank _ _ hb, takeWhile_append_cons hword,
    operatorStarting_append_blank _ _ _ hb, hcomment]
  split_ifs at hopen hlayout ⊢
  · rfl
  · exact stringStarting_append cs _ hopen
  · rfl
  · rfl
  · obtain rfl : b = '\n' := hlayout.resolve_right fun hne => hne rfl
    rw [takeWhile_append_cons (by decide)]
  · rfl

end Stretch

/-- Cutting up a text stops at a newline and goes on behind it. -/
theorem stretches_append_newline (cs rest : List Char)
    (h : ∀ s ∈ stretches cs, s.content ≠ .fault .unterminated) :
    stretches (cs ++ '\n' :: rest) = stretches cs ++ ⟨'\n', [], .layout⟩ :: stretches rest := by
  induction cs using stretches.induct with
  | case1 => simp [stretches, Stretch.starting, Stretch.isBlank]
  | case2 c cs s ih =>
    rw [stretches, List.forall_mem_cons] at h
    have hle : s.more.length ≤ cs.length := (Stretch.more_starting_isPrefix c cs).length_le
    rw [List.cons_append, stretches, stretches,
      Stretch.starting_append_blank c cs rest (by decide) h.1 (.inl rfl),
      List.drop_append_of_le_length hle, ih h.2, List.cons_append]

theorem count_newline_eq_sum (cs : List Char) :
    cs.count '\n' = ((stretches cs).map Stretch.newlines).sum := by
  conv_lhs => rw [← flatMap_text_stretches cs]
  rw [List.count_flatMap]
  rfl

/-- The tokens of these stretches when `line` is the line on which they start, without the end. -/
def tokensFrom (line : Nat) : List Stretch → List Token
  | [] => []
  | s :: rest =>
    match s.content with
    | .token kind =>
      ⟨kind, String.ofList s.text, line + s.newlines⟩ :: tokensFrom (line + s.newlines) rest
    | _ => tokensFrom (line + s.newlines) rest

/-- The tokens of a source, without the end. -/
def tokensOf (source : String) : List Token := tokensFrom 1 (stretches source.toList)

theorem scannedTokens_itemsFrom (line : Nat) (ss : List Stretch) :
    scannedTokens (itemsFrom line ss) =
      tokensFrom line ss ++ [⟨.eof, "", line + (ss.map Stretch.newlines).sum⟩] := by
  induction ss generalizing line with
  | nil => rfl
  | cons s ss ih =>
    have hrest := ih (line + s.newlines)
    rw [Nat.add_assoc] at hrest
    unfold scannedTokens at hrest ⊢
    rw [List.map_cons, List.sum_cons]
    cases hcontent : s.content <;> simp [itemsFrom, tokensFrom, hcontent, hrest]

theorem scannedTokens_scan (source : String) :
    scannedTokens (scan source) = tokensOf source ++ [⟨.eof, "", 1 + newlinesIn source⟩] := by
  rw [scan_eq, scannedTokens_itemsFrom, newlinesIn, count_newline_eq_sum]
  rfl

theorem scannedFaults_itemsFrom_eq_nil (line : Nat) (ss : List Stretch) :
    scannedFaults (itemsFrom line ss) = [] ↔ ∀ s ∈ ss, ∀ cause, s.content ≠ .fault cause := by
  induction ss generalizing line with
  | nil => simp [itemsFrom, scannedFaults]
  | cons s ss ih =>
    have hrest := ih (line + s.newlines)
    unfold scannedFaults at hrest ⊢
    cases hcontent : s.content <;> simp [itemsFrom, hcontent, hrest]

theorem tokensFrom_append (line : Nat) (left right : List Stretch) :
    tokensFrom line (left ++ right) =
      tokensFrom line left ++ tokensFrom (line + (left.map Stretch.newlines).sum) right := by
  induction left generalizing line with
  | nil => rfl
  | cons s left ih =>
    rw [List.map_cons, List.sum_cons, ← Nat.add_assoc]
    cases hcontent : s.content <;> simp [tokensFrom, hcontent, ih]

theorem tokensFrom_add (line k : Nat) (ss : List Stretch) :
    tokensFrom (line + k) ss = (tokensFrom line ss).map (Token.renumber (· + k)) := by
  induction ss generalizing line with
  | nil => rfl
  | cons s ss ih =>
    have hline : line + k + s.newlines = line + s.newlines + k := by omega
    cases hcontent : s.content <;> simp [tokensFrom, hcontent, hline, ih, Token.renumber]

theorem kind_ne_eof_of_mem_tokensFrom (cs : List Char) (line : Nat) {token : Token}
    (h : token ∈ tokensFrom line (stretches cs)) : token.kind ≠ .eof := by
  induction cs using stretches.induct generalizing line with
  | case1 => simp [stretches, tokensFrom] at h
  | case2 c cs s ih =>
    rw [stretches, tokensFrom] at h
    split at h
    · next kind hkind =>
      rcases List.mem_cons.mp h with rfl | h
      · rintro rfl
        exact Stretch.content_starting_ne_eof c cs hkind
      · exact ih _ h
    · exact ih _ h

theorem kind_ne_eof_of_mem_tokensOf {source : String} {token : Token}
    (h : token ∈ tokensOf source) : token.kind ≠ .eof :=
  kind_ne_eof_of_mem_tokensFrom _ _ h

section Joined

variable {first : String} (second : String) (h : scannedFaults (scan first) = [])

include h

theorem stretches_joined :
    stretches (first ++ "\n" ++ second).toList =
      stretches first.toList ++ ⟨'\n', [], .layout⟩ :: stretches second.toList := by
  rw [scan_eq] at h
  have hfaults := (scannedFaults_itemsFrom_eq_nil 1 _).mp h
  rw [← stretches_append_newline _ _ fun s hs => hfaults s hs .unterminated]
  simp

/-- The tokens of joined sources are those of both; the second source starts on a later line. -/
theorem tokensOf_joined : tokensOf (first ++ "\n" ++ second) =
    tokensOf first ++ (tokensOf second).map (Token.renumber (· + (1 + newlinesIn first))) := by
  have hline : 1 + newlinesIn first + 1 = 1 + (1 + newlinesIn first) := by omega
  have hrest : tokensFrom (1 + newlinesIn first) (⟨'\n', [], .layout⟩ :: stretches second.toList) =
      tokensFrom (1 + newlinesIn first + 1) (stretches second.toList) := rfl
  rw [tokensOf, stretches_joined second h, tokensFrom_append, ← count_newline_eq_sum]
  rw [← newlinesIn, hrest, hline, tokensFrom_add]
  rfl

theorem scannedFaults_joined (h' : scannedFaults (scan second) = []) :
    scannedFaults (scan (first ++ "\n" ++ second)) = [] := by
  have hstretches := stretches_joined second h
  rw [scan_eq, scannedFaults_itemsFrom_eq_nil] at h h' ⊢
  rw [hstretches, List.forall_mem_append, List.forall_mem_cons]
  exact ⟨h, by simp, h'⟩

end Joined

end LoxLang
