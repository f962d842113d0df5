import LoxLang.Proofs.Source.Bytes
import LoxLang.Proofs.Source.Stretches

/-!
# The scanner cuts stretches

Each loop of the scanner passes the longest run of bytes that it is after, wherever the scanner
stands (`skipWhile_apply`, `toQuote_eq`, `find_eq`).
-/
namespace LoxLang
namespace Scanner

def ahead (s : Scanner) : List UInt8 := (bytesOf s.source.toList).drop s.place

/-- The scanner so many bytes and lines further on. -/
def move (s : Scanner) (bytes lines : Nat) : Scanner :=
  { s with place := s.place + bytes, line := s.line + lines }

theorem toList_data_toByteArray (source : String) :
    source.toByteArray.data.toList = bytesOf source.toList := by
  rw [← toList_data_toByteArray_ofList, String.ofList_toList]

theorem utf8ByteSize_eq (source : String) :
    source.utf8ByteSize = (bytesOf source.toList).length := by
  rw [← utf8ByteSize_ofList, String.ofList_toList]

theorem byte?_eq (s : Scanner) (i : Nat) : s.byte? i = (bytesOf s.source.toList)[i]? := by
  rw [← toList_data_toByteArray, Array.getElem?_toList]
  unfold byte?
  split
  · next h => exact (Array.getElem?_eq_getElem h).symm
  · next h => exact (Array.getElem?_eq_none (Nat.not_lt.mp h)).symm

theorem peek_eq (s : Scanner) (k : Nat) : s.peek k = s.ahead[k]?.getD 0 := by
  rw [peek, byte?_eq, ahead, List.getElem?_drop]

theorem isAtEnd_iff (s : Scanner) : s.isAtEnd ↔ s.ahead = [] := by
  rw [isAtEnd, decide_eq_true_eq, utf8ByteSize_eq, ahead, List.drop_eq_nil_iff]

theorem lt_size_iff (s : Scanner) : s.place < s.source.utf8ByteSize ↔ s.ahead ≠ [] := by
  rw [← not_iff_not, not_not, Nat.not_lt, ← isAtEnd_iff, isAtEnd, decide_eq_true_eq]

@[simp] theorem ahead_move (s : Scanner) (n k : Nat) : (s.move n k).ahead = s.ahead.drop n :=
  (List.drop_drop ..).symm

@[simp] theorem move_move (s : Scanner) (n k m l : Nat) :
    (s.move n k).move m l = s.move (n + m) (k + l) := by
  simp only [move, Nat.add_assoc]

theorem pass_eq (s : Scanner) : s.pass = s.move 1 0 := rfl

theorem countLine_eq (s : Scanner) : s.countLine = s.move 0 1 := rfl

theorem find_eq (s : Scanner) (b : UInt8) (i : Nat) (h : i ≤ s.source.utf8ByteSize) :
    s.find b i = i + (((bytesOf s.source.toList).drop i).takeWhile (· ≠ b)).length := by
  induction i using find.induct s b with
  | case1 i hlt heq =>
    rw [byte?_eq] at heq
    rw [find, if_pos hlt, if_pos (by rwa [byte?_eq]), List.drop_eq_getElem?_toList_append, heq]
    simp
  | case2 i hlt hne ih =>
    have hlength := hlt
    rw [utf8ByteSize_eq] at hlength
    rw [find, if_pos hlt, if_neg hne, ih hlt]
    rw [byte?_eq, List.getElem?_eq_getElem hlength, Option.some_inj] at hne
    rw [List.drop_eq_getElem_cons hlength, List.takeWhile_cons_of_pos (by simpa using hne),
      List.length_cons]
    omega
  | case3 i hge =>
    have heq : i = s.source.utf8ByteSize := Nat.le_antisymm h (Nat.not_lt.mp hge)
    rw [find, if_neg hge, heq, utf8ByteSize_eq, List.drop_length]
    simp

/-- Everything before the next quote is passed, with its lines. -/
theorem toQuote_eq (s : Scanner) :
    s.toQuote = s.move (s.ahead.takeWhile (· ≠ '"'.toUInt8)).length
      ((s.ahead.takeWhile (· ≠ '"'.toUInt8)).count '\n'.toUInt8) := by
  induction s using toQuote.induct with
  | case1 s hstop =>
    rw [toQuote, if_pos hstop]
    rw [Bool.or_eq_true, isAtEnd_iff, decide_eq_true_eq, peek_eq] at hstop
    cases hahead : s.ahead with
    | nil => rfl
    | cons b bs =>
      have hb : b = '"'.toUInt8 := by simpa [hahead] using hstop
      rw [List.takeWhile_cons_of_neg (by simp [hb])]
      rfl
  | case2 s hgo hline ih =>
    rw [toQuote, if_neg hgo, if_pos hline, ih, pass_eq, countLine_eq]
    rw [Bool.or_eq_true, isAtEnd_iff, decide_eq_true_eq, not_or] at hgo
    obtain ⟨b, bs, hahead⟩ := List.exists_cons_of_ne_nil hgo.1
    have hb : b = '\n'.toUInt8 := by simpa [peek_eq, hahead] using hline
    have hquote : '\n'.toUInt8 ≠ '"'.toUInt8 := by decide
    simp [hahead, hb, hquote, Nat.add_comm]
  | case3 s hgo hline ih =>
    rw [toQuote, if_neg hgo, if_neg hline, ih, pass_eq]
    rw [Bool.or_eq_true, isAtEnd_iff, decide_eq_true_eq, not_or, peek_eq] at hgo
    obtain ⟨b, bs, hahead⟩ := List.exists_cons_of_ne_nil hgo.1
    have hb : b ≠ '\n'.toUInt8 := by simpa [peek_eq, hahead] using hline
    have hquote : b ≠ '"'.toUInt8 := by simpa [hahead] using hgo.2
    simp [hahead, hb, hquote, Nat.add_comm]

end Scanner

namespace Scanning
open Scanner

/-- A loop that stops at zero bytes passes the longest run of bytes that it is after. -/
theorem skipWhile_apply {p : UInt8 → Bool} (hp : p 0 = false) (s : Scanner) :
    skipWhile p s = .done () (s.move (s.ahead.takeWhile p).length 0) := by
  induction s using skipWhile.induct p with
  | case1 s hpeek hlt ih =>
    rw [skipWhile, if_pos hpeek, if_pos hlt, ih, pass_eq]
    obtain ⟨b, bs, hahead⟩ := List.exists_cons_of_ne_nil ((lt_size_iff s).mp hlt)
    have hb : p b := by simpa [peek_eq, hahead] using hpeek
    simp [hahead, hb, Nat.add_comm]
  | case2 s hpeek hge =>
    rw [lt_size_iff, not_not] at hge
    rw [peek_eq, hge] at hpeek
    exact absurd hpeek (by simp [hp])
  | case3 s hpeek =>
    rw [skipWhile, if_neg hpeek]
    cases hahead : s.ahead with
    | nil => rfl
    | cons b bs =>
      have hb : ¬p b := by simpa [peek_eq, hahead] using hpeek
      rw [List.takeWhile_cons_of_neg hb]
      rfl

end Scanning

/-! ## Between characters -/

namespace Scanner

/-- The scanner behind a text. -/
def past (s : Scanner) (text : List Char) : Scanner :=
  s.move (bytesOf text).length (text.count '\n')

theorem past_append (s : Scanner) (text more : List Char) :
    s.past (text ++ more) = (s.past text).past more := by
  simp only [past, move_move, bytesOf_append, List.length_append, List.count_append]

theorem past_cons (s : Scanner) (c : Char) (cs : List Char) :
    s.past (c :: cs) = (s.past [c]).past cs := past_append s [c] cs

/-- The lexeme `text` has been read so far, between the text `before` and the text `behind`. -/
structure Reading (s : Scanner) (before text behind : List Char) : Prop where
  source : s.source.toList = before ++ text ++ behind
  start : s.start = (bytesOf before).length
  place : s.place = (bytesOf (before ++ text)).length

theorem reading_begin (source : String) : (begin source).Reading [] [] source.toList :=
  ⟨rfl, rfl, rfl⟩

namespace Reading

variable {s : Scanner} {before text behind : List Char}

theorem restart (h : s.Reading before text behind) :
    Reading { s with start := s.place } (before ++ text) [] behind :=
  ⟨by simp [h.source], h.place, by simp [h.place]⟩

theorem past (more : List Char) (h : s.Reading before text (more ++ behind)) :
    (s.past more).Reading before (text ++ more) behind := by
  refine ⟨?_, h.start, ?_⟩
  · change s.source.toList = _
    simp [h.source]
  · change s.place + _ = _
    simp [h.place, Nat.add_assoc]

theorem ahead (h : s.Reading before text behind) : s.ahead = bytesOf behind := by
  rw [Scanner.ahead, h.source, bytesOf_append, h.place, List.drop_left]

/-- What has been read of a lexeme can be cut out. -/
theorem cut (h : s.Reading before text behind) :
    Scanning.cut 0 s = .done (String.ofList text) s := by
  rw [Scanning.cut, Nat.add_zero, Nat.sub_zero, h.start, h.place, slice?_eq h.source]

theorem cut_quoted (h : s.Reading before ('"' :: text ++ ['"']) behind) :
    Scanning.cut 1 s = .done (String.ofList text) s := by
  have hsource : s.source.toList = before ++ ['"'] ++ text ++ ('"' :: behind) := by
    simp [h.source]
  have hstart : s.start + 1 = (bytesOf (before ++ ['"'])).length := by
    rw [h.start, bytesOf_append, List.length_append]
    rfl
  have hplace : s.place - 1 = (bytesOf (before ++ ['"'] ++ text)).length := by
    have hquote : (bytesOf ['"']).length = 1 := rfl
    rw [h.place, List.cons_append, ← List.singleton_append]
    simp only [bytesOf_append, List.length_append, hquote]
    omega
  rw [Scanning.cut, hstart, hplace, slice?_eq hsource]

theorem test_peek (h : s.Reading before text behind) {p : Char → Bool}
    (hhigh : ∀ c : Char, 128 ≤ c.toNat → p c = false) (hzero : p '\x00' = false) :
    p (Char.ofUInt8 (s.peek 0)) = behind.head?.any p := by
  rw [peek_eq, h.ahead, test_head_bytesOf hhigh hzero]

theorem peek_eq_iff (h : s.Reading before text behind) {c : Char} (hc : c.toNat < 128)
    (hzero : c ≠ '\x00') : s.peek 0 = c.toUInt8 ↔ behind.head? = some c := by
  have hhigh (d : Char) (hd : 128 ≤ d.toNat) : decide (d = c) = false := by
    rw [decide_eq_false_iff_not]
    rintro rfl
    omega
  have htest := h.test_peek hhigh (by simpa using hzero.symm)
  rw [eq_toUInt8_iff hc]
  simpa [Option.any_eq_true] using congrArg (· = true) htest

/-- The loops of the scanner pass the longest runs of characters. -/
theorem skipWhile (h : s.Reading before text behind) {p : Char → Bool}
    (hhigh : ∀ c : Char, 128 ≤ c.toNat → p c = false) (hzero : p '\x00' = false)
    (hline : p '\n' = false) :
    Scanning.skipWhile (p ∘ Char.ofUInt8) s = .done () (s.past (behind.takeWhile p)) := by
  have hlines : (behind.takeWhile p).count '\n' = 0 := by
    apply List.count_eq_zero.mpr
    intro hmem
    rw [List.mem_takeWhile_imp hmem] at hline
    cases hline
  rw [Scanning.skipWhile_apply hzero, h.ahead, takeWhile_bytesOf hhigh, Scanner.past, hlines]

theorem skipLine (h : s.Reading before text behind) :
    Scanning.skipLine s = .done () (s.past (behind.takeWhile (· ≠ '\n'))) := by
  have hlines : (behind.takeWhile (· ≠ '\n')).count '\n' = 0 := by
    apply List.count_eq_zero.mpr
    intro hmem
    simpa using List.mem_takeWhile_imp hmem
  have hle : s.place ≤ s.source.utf8ByteSize := by
    rw [utf8ByteSize_eq, h.source, h.place, bytesOf_append _ behind, List.length_append]
    omega
  have hrun : (bytesOf s.source.toList).drop s.place = bytesOf behind := h.ahead
  rw [Scanning.skipLine, if_pos hle, find_eq s _ _ hle, hrun, takeWhile_ne_bytesOf (by decide),
    Scanner.past, hlines]
  rfl

theorem toQuote (h : s.Reading before text behind) :
    s.toQuote = s.past (behind.takeWhile (· ≠ '"')) := by
  rw [toQuote_eq, h.ahead, takeWhile_ne_bytesOf (by decide), count_bytesOf (by decide),
    Scanner.past]

end Reading
end Scanner

/-! ## Lexemes -/

namespace Scanning
open Scanner Stretch

theorem toNat_lt_of_isDigit {c : Char} (h : c.isDigit) : c.toNat < 128 := by
  simp only [Char.isDigit, Bool.and_eq_true, decide_eq_true_eq] at h
  exact Nat.lt_of_le_of_lt (UInt32.le_iff_toNat_le.mp h.2) (by decide)

theorem toNat_lt_of_continuesWord {c : Char} (h : continuesWord c) : c.toNat < 128 := by
  simp only [continuesWord, Char.isAlphanum, Char.isAlpha, Char.isUpper, Char.isLower,
    Bool.or_eq_true, Bool.and_eq_true, decide_eq_true_eq] at h
  rcases h with (((h | h) | h) | rfl)
  · exact Nat.lt_of_le_of_lt (UInt32.le_iff_toNat_le.mp h.2) (by decide)
  · exact Nat.lt_of_le_of_lt (UInt32.le_iff_toNat_le.mp h.2) (by decide)
  · exact toNat_lt_of_isDigit h
  · decide

theorem isDigit_eq_false (c : Char) (h : 128 ≤ c.toNat) : c.isDigit = false := by
  rw [Bool.eq_false_iff]
  exact fun hdigit => absurd (toNat_lt_of_isDigit hdigit) (Nat.not_lt.mpr h)

theorem continuesWord_eq_false (c : Char) (h : 128 ≤ c.toNat) : continuesWord c = false := by
  rw [Bool.eq_false_iff]
  exact fun hword => absurd (toNat_lt_of_continuesWord hword) (Nat.not_lt.mpr h)

theorem startsWord_eq_false (c : Char) (h : 128 ≤ c.toNat) : startsWord c = false := by
  have hword := continuesWord_eq_false c h
  simp only [continuesWord, Char.isAlphanum, Bool.or_eq_false_iff] at hword
  simp [startsWord, hword]

section Lexemes

variable {s : Scanner} {before cs : List Char} {c : Char}

theorem skipWhile_isDigit {text : List Char} (h : s.Reading before text cs) :
    skipWhile Scanning.isDigit s = .done () (s.past (cs.takeWhile Char.isDigit)) :=
  h.skipWhile isDigit_eq_false rfl rfl

/-- A point belongs to a number only before a digit. -/
theorem point_and_digit {text : List Char} (h : s.Reading before text cs) :
    (decide (s.peek 0 = '.'.toUInt8) && Scanning.isDigit (s.peek 1)) =
      (cs.head? = some '.' && cs.tail.head?.any Char.isDigit) := by
  by_cases hpoint : cs.head? = some '.'
  · obtain ⟨tail, rfl⟩ := List.head?_eq_some_iff.mp hpoint
    have hpassed : (s.past ['.']).Reading before (text ++ ['.']) tail := Reading.past ['.'] h
    have hdigit : Scanning.isDigit (s.peek 1) = tail.head?.any Char.isDigit :=
      hpassed.test_peek isDigit_eq_false rfl
    have hpeek := (h.peek_eq_iff (c := '.') (by decide) (by decide)).mpr rfl
    rw [hpeek, hdigit]
    rfl
  · have hpeek := mt (h.peek_eq_iff (c := '.') (by decide) (by decide)).mp hpoint
    simp [hpoint, hpeek]

theorem numberTail_eq {whole rest : List Char} (hwhole : cs.takeWhile Char.isDigit = whole)
    (hrest : cs.drop whole.length = rest) :
    numberTail cs = if rest.head? = some '.' && rest.tail.head?.any Char.isDigit then
      whole ++ '.' :: rest.tail.takeWhile Char.isDigit else whole := by
  unfold numberTail
  simp only [hwhole, hrest]
  split
  · next tail =>
    cases tail with
    | nil => rfl
    | cons d tail => cases hd : d.isDigit <;> simp [hd]
  · next hpoint =>
    have hhead : rest.head? ≠ some '.' := by
      intro hhead
      obtain ⟨tail, rfl⟩ := List.head?_eq_some_iff.mp hhead
      exact hpoint tail rfl
    simp [hhead]

theorem number_apply (h : s.Reading before [c] cs) :
    number s = .done (numberKind (c :: numberTail cs)) (s.past (numberTail cs)) := by
  obtain ⟨whole, hwhole⟩ : ∃ whole, cs.takeWhile Char.isDigit = whole := ⟨_, rfl⟩
  obtain ⟨rest, hrest⟩ : ∃ rest, cs.drop whole.length = rest := ⟨_, rfl⟩
  have hsplit : whole ++ rest = cs := by
    rw [← hwhole] at hrest ⊢
    rw [← hrest]
    exact List.prefix_iff_eq_append.mp (List.takeWhile_prefix _)
  have hread : (s.past whole).Reading before (c :: whole) rest :=
    Reading.past whole (hsplit ▸ h)
  rw [number, Action.bind_apply, skipWhile_isDigit h, hwhole]
  simp only [Action.bind_apply, peek, Action.view, point_and_digit hread]
  rw [numberTail_eq hwhole hrest]
  split
  · next hpoint =>
    simp only [Bool.and_eq_true, decide_eq_true_eq] at hpoint
    obtain ⟨tail, rfl⟩ := List.head?_eq_some_iff.mp hpoint.1
    have hpassed : ((s.past whole).past ['.']).Reading before (c :: whole ++ ['.']) tail :=
      Reading.past ['.'] hread
    have htail := List.prefix_iff_eq_append.mp (List.takeWhile_prefix (l := tail) Char.isDigit)
    have hread' : (((s.past whole).past ['.']).past (tail.takeWhile Char.isDigit)).Reading before
        (c :: whole ++ ['.'] ++ tail.takeWhile Char.isDigit) _ :=
      Reading.past _ (htail.symm ▸ hpassed)
    have hpass : pass (s.past whole) = .done () ((s.past whole).past ['.']) := rfl
    rw [Action.bind_apply, hpass]
    simp only [Action.bind_apply, skipWhile_isDigit hpassed, hread'.cut]
    rw [← past_append, ← past_append]
    simp [Action.pure_apply]
  · rw [Action.bind_apply, hread.cut]
    simp [Action.pure_apply]

theorem identifier_apply (h : s.Reading before [c] cs) :
    identifier s = .done (wordKind (c :: cs.takeWhile continuesWord))
      (s.past (cs.takeWhile continuesWord)) := by
  have hsplit := List.prefix_iff_eq_append.mp (List.takeWhile_prefix (l := cs) continuesWord)
  have hread : (s.past (cs.takeWhile continuesWord)).Reading before
      (c :: cs.takeWhile continuesWord) _ := Reading.past _ (hsplit.symm ▸ h)
  rw [identifier, Action.bind_apply, h.skipWhile continuesWord_eq_false rfl rfl]
  simp only [Action.bind_apply, hread.cut]
  rfl

theorem string_apply (h : s.Reading before ['"'] cs) :
    string s = .done (stringStarting cs).content (s.past (stringStarting cs).more) := by
  have hsplit : cs.takeWhile (· ≠ '"') ++ cs.dropWhile (· ≠ '"') = cs :=
    List.takeWhile_append_dropWhile
  have hread : (s.past (cs.takeWhile (· ≠ '"'))).Reading before
      ('"' :: cs.takeWhile (· ≠ '"')) (cs.dropWhile (· ≠ '"')) := Reading.past _ (hsplit.symm ▸ h)
  rw [string]
  simp only [Action.bind_apply, Action.change, Action.view, h.toQuote, stringStarting]
  cases hrest : cs.dropWhile (· ≠ '"') with
  | nil =>
    rw [hrest] at hread hsplit
    have hend : (s.past (cs.takeWhile (· ≠ '"'))).isAtEnd := (isAtEnd_iff _).mpr hread.ahead
    rw [List.append_nil] at hsplit
    rw [if_pos hend, if_neg (by rw [hsplit]; exact Nat.lt_irrefl _), hsplit]
    rfl
  | cons d tail =>
    have hquote : d = '"' := by
      have hstop := List.head?_dropWhile_not (· ≠ '"') cs
      rw [hrest] at hstop
      simpa using hstop
    subst hquote
    rw [hrest] at hread hsplit
    have hmore : ¬(s.past (cs.takeWhile (· ≠ '"'))).isAtEnd := by
      rw [isAtEnd_iff, hread.ahead]
      exact List.cons_ne_nil _ _
    have hlt : (cs.takeWhile (· ≠ '"')).length < cs.length := by
      have hlength := congrArg List.length hsplit
      rw [List.length_append, List.length_cons] at hlength
      omega
    have hpass : pass (s.past (cs.takeWhile (· ≠ '"'))) =
        .done () (s.past (cs.takeWhile (· ≠ '"') ++ ['"'])) := by
      rw [past_append]
      rfl
    have hclosed : (s.past (cs.takeWhile (· ≠ '"') ++ ['"'])).Reading before
        ('"' :: cs.takeWhile (· ≠ '"') ++ ['"']) tail := by
      rw [past_append]
      exact Reading.past ['"'] hread
    rw [if_neg hmore, if_pos hlt, Action.bind_apply, hpass]
    simp only [Action.bind_apply, hclosed.cut_quoted]
    rfl

theorem oneOrTwo_apply (h : s.Reading before [c] cs) {alone withEqual : Kind}
    (halone : operator? c = some alone) (hwithEqual : withEqual? c = some withEqual) :
    oneOrTwo alone withEqual s =
      .done (operatorStarting c cs).content (s.past (operatorStarting c cs).more) := by
  rw [oneOrTwo]
  simp only [Action.bind_apply, peek, Action.view, h.peek_eq_iff (c := '=') (by decide) (by decide)]
  unfold operatorStarting
  rw [hwithEqual, halone]
  split
  · next hequal =>
    rw [hequal]
    rfl
  · next hequal =>
    split
    · next heq _ => exact absurd heq hequal
    · rfl

/-- An operator that no longer one starts with. -/
theorem starting_eq_of_alone {kind : Kind} (hkind : operator? c = some kind)
    (halone : withEqual? c = none) (hslash : c ≠ '/') :
    starting c cs = ⟨c, [], .token kind⟩ := by
  have hcomment : (c = '/' && cs.head? = some '/') = false := by simp [hslash]
  rw [starting_of_operator? _ hkind, hcomment, operatorStarting, halone, hkind]
  simp

theorem slash_apply (h : s.Reading before ['/'] cs) :
    startingWith '/' s = .done (starting '/' cs).content (s.past (starting '/' cs).more) := by
  rw [startingWith]
  simp only [Action.bind_apply, peek, Action.view, h.peek_eq_iff (c := '/') (by decide) (by decide)]
  split
  · next hslash =>
    obtain ⟨tail, rfl⟩ := List.head?_eq_some_iff.mp hslash
    rw [Action.bind_apply, h.skipLine]
    rfl
  · next hslash =>
    have hoperator : operator? '/' = some .slash := rfl
    rw [starting_of_operator? cs hoperator]
    simp [hslash, operatorStarting, withEqual?, operator?]
    rfl

theorem starting_unexpected (hblank : ¬isBlank c) (hquote : c ≠ '"') (hdigit : ¬c.isDigit)
    (hword : ¬startsWord c) (hoperator : operator? c = none) :
    starting c cs = ⟨c, [], .fault (.unexpected (String.singleton c))⟩ := by
  have hslash : c ≠ '/' := by
    rintro rfl
    cases hoperator
  have hequal : withEqual? c = none := by
    cases hequal : withEqual? c with
    | none => rfl
    | some kind =>
      obtain ⟨-, kind', hkind⟩ := operator?_of_withEqual? hequal
      rw [hoperator] at hkind
      cases hkind
  simp [starting, hblank, hquote, hdigit, hword, hslash, operatorStarting, hoperator, hequal]

theorem unexpected_apply {bs : List UInt8} (hbs : ∀ b ∈ bs, 128 ≤ b.toNat ∧ b.toNat < 192)
    (hahead : s.ahead = bs ++ bytesOf cs) (h : (s.move bs.length 0).Reading before [c] cs) :
    (do skipWhile continuesChar; return .fault (.unexpected (← cut 0)) : Scanning Content) s =
      .done (.fault (.unexpected (String.singleton c))) (s.move bs.length 0) := by
  rw [Action.bind_apply, skipWhile_apply rfl, hahead, takeWhile_continuesChar hbs]
  simp only [Action.bind_apply, h.cut]
  rfl

theorem startingWith_apply (h : s.Reading before [c] cs) (hlt : c.toNat < 128) (hc : c ≠ '\n') :
    startingWith c s = .done (starting c cs).content (s.past (starting c cs).more) := by
  have halone {kind : Kind} (hkind : operator? c = some kind) (hnone : withEqual? c = none)
      (hslash : c ≠ '/') : (pure (.token kind) : Scanning Content) s =
        .done (starting c cs).content (s.past (starting c cs).more) := by
    rw [starting_eq_of_alone hkind hnone hslash]
    rfl
  unfold startingWith
  split
  · exact halone rfl rfl (by decide)
  · exact halone rfl rfl (by decide)
  · exact halone rfl rfl (by decide)
  · exact halone rfl rfl (by decide)
  · exact halone rfl rfl (by decide)
  · exact halone rfl rfl (by decide)
  · exact halone rfl rfl (by decide)
  · exact halone rfl rfl (by decide)
  · exact halone rfl rfl (by decide)
  · exact halone rfl rfl (by decide)
  · exact oneOrTwo_apply h rfl rfl
  · exact oneOrTwo_apply h rfl rfl
  · exact oneOrTwo_apply h rfl rfl
  · exact oneOrTwo_apply h rfl rfl
  · exact slash_apply h
  · rfl
  · rfl
  · rfl
  · exact absurd rfl hc
  · exact string_apply h
  · split
    · next hdigit =>
      rw [Action.bind_apply, number_apply h, starting_of_isDigit _ hdigit]
      rfl
    split
    · next hword =>
      rw [Action.bind_apply, identifier_apply h, starting_of_startsWord _ hword]
      rfl
    · next hdigit hword =>
      have hoperator : operator? c = none := by
        unfold operator?
        split <;> simp_all
      have hblank : ¬isBlank c := by
        simp_all [isBlank]
      rw [starting_unexpected hblank ‹_› hdigit hword hoperator]
      exact unexpected_apply (List.forall_mem_nil _) h.ahead h

theorem startingWith_of_le (hle : 128 ≤ c.toNat) :
    startingWith c = do
      skipWhile continuesChar
      return .fault (.unexpected (← cut 0)) := by
  have hdigit := isDigit_eq_false c hle
  have hword := startsWord_eq_false c hle
  unfold startingWith
  split
  case h_21 =>
    rw [hdigit, hword]
    rfl
  all_goals exact absurd hle (by decide)

theorem starting_of_le (hle : 128 ≤ c.toNat) :
    starting c cs = ⟨c, [], .fault (.unexpected (String.singleton c))⟩ := by
  have hne {d : Char} (hd : d.toNat < 128) : c ≠ d := by
    rintro rfl
    omega
  have hblank : ¬isBlank c := by
    simp [isBlank, hne (d := ' ') (by decide), hne (d := '\r') (by decide),
      hne (d := '\t') (by decide), hne (d := '\n') (by decide)]
  have hoperator : operator? c = none := by
    unfold operator?
    split
    case h_16 => rfl
    all_goals exact absurd hle (by decide)
  exact starting_unexpected hblank (hne (by decide)) (by simp [isDigit_eq_false c hle])
    (by simp [startsWord_eq_false c hle]) hoperator

theorem advance_apply {b : UInt8} {bs : List UInt8} (h : s.ahead = b :: bs) :
    advance s = .done b (s.move 1 0) := by
  have hbyte : s.byte? s.place = some b := by
    rw [byte?_eq, ← Nat.add_zero s.place, ← List.getElem?_drop]
    exact congrArg (·[0]?) h
  rw [advance, hbyte]
  rfl

/-- The scanner takes the first stretch of what is ahead, and passes its whole text. -/
theorem lexeme_apply {text : List Char} (h : s.Reading before text (c :: cs)) :
    lexeme s = .done (starting c cs).content
      (Scanner.past { s with start := s.place } (starting c cs).text) := by
  obtain ⟨t, ht⟩ : ∃ t, t = { s with start := s.place } := ⟨_, rfl⟩
  have hread : t.Reading (before ++ text) [] (c :: cs) := ht ▸ h.restart
  rw [lexeme, Action.bind_apply, Action.change, ← ht]
  simp only [Action.bind_apply]
  rw [Stretch.text, first_starting, past_cons]
  have hpassed : (t.past [c]).Reading (before ++ text) [c] cs := Reading.past [c] hread
  rcases Nat.lt_or_ge c.toNat 128 with hlt | hle
  · have hahead : t.ahead = c.toUInt8 :: bytesOf cs := by
      rw [hread.ahead, bytesOf_cons, utf8EncodeChar_of_lt hlt, List.singleton_append]
    simp only [advance_apply hahead, ofUInt8_toUInt8 hlt]
    by_cases hline : c = '\n'
    · subst hline
      rfl
    · have hmove : t.move 1 0 = t.past [c] := by
        rw [past, bytesOf_cons, utf8EncodeChar_of_lt hlt, List.count_singleton,
          if_neg (by simpa using hline)]
        rfl
      rw [hmove, startingWith_apply hpassed hlt hline]
  · obtain ⟨b, bs, hbytes, hb, hbs⟩ := utf8EncodeChar_of_le hle
    have hahead : t.ahead = b :: (bs ++ bytesOf cs) := by
      rw [hread.ahead, bytesOf_cons, hbytes, List.cons_append]
    have hline : [c].count '\n' = 0 := by
      rw [List.count_singleton, if_neg]
      rw [beq_iff_eq]
      rintro rfl
      exact absurd hle (by decide)
    have hmove : (t.move 1 0).move bs.length 0 = t.past [c] := by
      rw [past, bytesOf_cons, hbytes, hline, move_move]
      simp [Nat.add_comm]
    simp only [advance_apply hahead]
    rw [startingWith_of_le (by rw [toNat_ofUInt8]; omega), starting_of_le hle,
      unexpected_apply hbs (by rw [ahead_move, hahead]; rfl) (hmove ▸ hpassed), hmove]
    rfl

end Lexemes
end Scanning
end LoxLang
