import LoxLang.Proofs.Numeral.Nearest
import LoxLang.Proofs.Source.Partition

/-!
# Longest matches

The lexemes of the language, listed kind by kind, and the reference reading of a source: at each
position the longest lexeme is taken; where there is none, the character there is a fault, or the
whole rest if that character is a quote. The scanner looks one or two characters ahead instead and
comes to the same items (`scan_eq_iff_lexed`).
-/
namespace LoxLang
open Stretch

def operators : List (String × Kind) :=
  [("(", .leftParen), (")", .rightParen), ("\x7b", .leftBrace), ("\x7d", .rightBrace),
    (",", .comma), (".", .dot), ("-", .minus), ("+", .plus), (";", .semicolon), ("*", .star),
    ("/", .slash),
    ("!", .bang), ("=", .equal), ("<", .less), (">", .greater),
    ("!=", .bangEqual), ("==", .equalEqual), ("<=", .lessEqual), (">=", .greaterEqual)]

def keywords : List (String × Kind) :=
  [("and", .andKw), ("class", .classKw), ("else", .elseKw), ("false", .falseKw), ("fun", .funKw),
    ("for", .forKw), ("if", .ifKw), ("nil", .nilKw), ("or", .orKw), ("print", .printKw),
    ("return", .returnKw), ("super", .superKw), ("this", .thisKw), ("true", .trueKw),
    ("var", .varKw), ("while", .whileKw)]

def IsDigits (cs : List Char) : Prop := cs ≠ [] ∧ ∀ c ∈ cs, c.isDigit

/-- A letter or an underscore, and any number of letters, digits and underscores. -/
def IsWord : List Char → Prop
  | [] => False
  | c :: cs => (c.isAlpha ∨ c = '_') ∧ ∀ d ∈ cs, d.isAlphanum ∨ d = '_'

/-- The number that digits before and behind a point write. -/
def numeralValue (whole fraction : List Char) : ℚ :=
  Nat.ofDigitChars 10 (whole ++ fraction) 0 / 10 ^ fraction.length

/-- The texts that are read as a whole, with what they are. -/
inductive Lexeme : List Char → Content → Prop
  | operator {text : String} {kind : Kind} : (text, kind) ∈ operators →
    Lexeme text.toList (.token kind)
  | string {contents : List Char} : '"' ∉ contents →
    Lexeme ('"' :: contents ++ ['"']) (.token (.string (String.ofList contents)))
  | integer {whole : List Char} {value : Float} : IsDigits whole →
    Numeral.Nearest (numeralValue whole []) value → Lexeme whole (.token (.number value))
  | fraction {whole fraction : List Char} {value : Float} : IsDigits whole → IsDigits fraction →
    Numeral.Nearest (numeralValue whole fraction) value →
    Lexeme (whole ++ '.' :: fraction) (.token (.number value))
  | keyword {word : String} {kind : Kind} : (word, kind) ∈ keywords →
    Lexeme word.toList (.token kind)
  | identifier {word : List Char} : IsWord word → (∀ kind, (String.ofList word, kind) ∉ keywords) →
    Lexeme word (.token .identifier)
  | comment {body : List Char} : '\n' ∉ body → Lexeme ('/' :: '/' :: body) .layout
  | blank {c : Char} : c ∈ [' ', '\r', '\t', '\n'] → Lexeme [c] .layout

/-- No lexeme in front of `cs` is longer than `text`, which is one. -/
def Longest (cs text : List Char) (content : Content) : Prop :=
  text <+: cs ∧ Lexeme text content ∧
    ∀ other content', other <+: cs → Lexeme other content' → other.length ≤ text.length

/-- There is no lexeme in front of `cs`. -/
def Unmatched (cs : List Char) : Prop := ∀ text content, text <+: cs → ¬Lexeme text content

/-- The items of a text that starts on `line`, lexeme by lexeme. -/
inductive Lexed : (line : Nat) → List Char → List ScanItem → Prop
  | done {line : Nat} : Lexed line [] [.ok ⟨.eof, "", line⟩]
  | token {line : Nat} {text rest : List Char} {kind : Kind} {items : List ScanItem} :
    Longest (text ++ rest) text (.token kind) → Lexed (line + text.count '\n') rest items →
    Lexed line (text ++ rest) (.ok ⟨kind, String.ofList text, line + text.count '\n'⟩ :: items)
  | layout {line : Nat} {text rest : List Char} {items : List ScanItem} :
    Longest (text ++ rest) text .layout → Lexed (line + text.count '\n') rest items →
    Lexed line (text ++ rest) items
  | unexpected {line : Nat} {c : Char} {rest : List Char} {items : List ScanItem} :
    Unmatched (c :: rest) → c ≠ '"' → Lexed line rest items →
    Lexed line (c :: rest) (.error ⟨line, .unexpected (String.singleton c)⟩ :: items)
  | unterminated {line : Nat} {rest : List Char} : Unmatched ('"' :: rest) →
    Lexed line ('"' :: rest)
      [.error ⟨line + rest.count '\n', .unterminated⟩, .ok ⟨.eof, "", line + rest.count '\n'⟩]

/-! ## The tables -/

theorem operator?_of_mem_operators {text : String} {kind : Kind} (h : (text, kind) ∈ operators) :
    (∃ c, text.toList = [c] ∧ operator? c = some kind) ∨
      ∃ c, text.toList = [c, '='] ∧ withEqual? c = some kind := by
  simp only [operators, List.mem_cons, Prod.mk.injEq, List.not_mem_nil, or_false] at h
  casesm* _ ∨ _, _ ∧ _ <;> subst_vars <;> simp [operator?, withEqual?]

theorem mem_operators_of_operator? {c : Char} {kind : Kind} (h : operator? c = some kind) :
    (String.ofList [c], kind) ∈ operators := by
  unfold operator? at h
  split at h <;> simp_all [operators]

theorem mem_operators_of_withEqual? {c : Char} {kind : Kind} (h : withEqual? c = some kind) :
    (String.ofList [c, '='], kind) ∈ operators := by
  unfold withEqual? at h
  split at h <;> simp_all [operators]

theorem keyword?_eq_some_iff {word : String} {kind : Kind} :
    keyword? word = some kind ↔ (word, kind) ∈ keywords := by
  constructor
  · intro h
    unfold keyword? at h
    split at h <;> simp_all [keywords]
  · intro h
    simp only [keywords, List.mem_cons, Prod.mk.injEq, List.not_mem_nil, or_false] at h
    casesm* _ ∨ _, _ ∧ _ <;> subst_vars <;> rfl

theorem isWord_of_mem_keywords {word : String} {kind : Kind} (h : (word, kind) ∈ keywords) :
    IsWord word.toList := by
  simp only [keywords, List.mem_cons, Prod.mk.injEq, List.not_mem_nil, or_false] at h
  casesm* _ ∨ _, _ ∧ _ <;> subst_vars <;> simp [IsWord]

/-! ## Numbers -/

theorem takeWhile_eq_of_forall {p : Char → Bool} {cs : List Char} (h : ∀ c ∈ cs, p c) :
    cs.takeWhile p = cs := List.takeWhile_eq_self_iff.mpr h

theorem numberTail_of_digits {cs : List Char} (h : ∀ c ∈ cs, c.isDigit) : numberTail cs = cs := by
  simp [numberTail, takeWhile_eq_of_forall h]

theorem takeWhile_isDigit_point {whole rest : List Char} (h : ∀ c ∈ whole, c.isDigit) :
    (whole ++ '.' :: rest).takeWhile Char.isDigit = whole := by
  rw [List.takeWhile_append_of_pos h]
  simp

theorem numberTail_point {whole rest : List Char} (h : ∀ c ∈ whole, c.isDigit) :
    numberTail (whole ++ '.' :: rest) =
      if (rest.takeWhile Char.isDigit).isEmpty then whole
      else whole ++ '.' :: rest.takeWhile Char.isDigit := by
  rw [numberTail, takeWhile_isDigit_point h, List.drop_left]
  rfl

theorem length_takeWhile_le_numberTail (cs : List Char) :
    (cs.takeWhile Char.isDigit).length ≤ (numberTail cs).length := by
  unfold numberTail
  simp only
  split
  · split
    · rfl
    · simp
  · rfl

/-- The rest of a number is made of digits, or of digits around a point. -/
theorem numberTail_cases (cs : List Char) :
    (∀ c ∈ numberTail cs, c.isDigit) ∨ ∃ whole fraction,
      numberTail cs = whole ++ '.' :: fraction ∧ (∀ c ∈ whole, c.isDigit) ∧ IsDigits fraction := by
  have hdigits (ds : List Char) : ∀ c ∈ ds.takeWhile Char.isDigit, c.isDigit :=
    fun c hc => List.mem_takeWhile_imp hc
  unfold numberTail
  simp only
  split
  · next rest hrest =>
    split
    · exact .inl (hdigits cs)
    · next hne =>
      exact .inr ⟨_, _, rfl, hdigits cs, by simpa using hne, hdigits rest⟩
  · exact .inl (hdigits cs)

theorem value_decimal_integer {whole : List Char} (h : ∀ c ∈ whole, c.isDigit) :
    (decimal whole).value = numeralValue whole [] := by
  have hfraction : whole.drop (whole.length + 1) = [] := List.drop_eq_nil_of_le (by omega)
  simp [decimal, takeWhile_eq_of_forall h, hfraction, Decimal.value, numeralValue]

theorem value_decimal_fraction {whole fraction : List Char} (h : ∀ c ∈ whole, c.isDigit) :
    (decimal (whole ++ '.' :: fraction)).value = numeralValue whole fraction := by
  have hfraction : (whole ++ '.' :: fraction).drop (whole.length + 1) = fraction := by
    simp [List.drop_append]
  rw [decimal, takeWhile_isDigit_point h, hfraction, Decimal.value, numeralValue, zpow_neg,
    zpow_natCast, div_eq_mul_inv]

/-! ## What is taken is a lexeme -/

theorem lexeme_number {c : Char} (cs : List Char) (h : c.isDigit) :
    Lexeme (c :: numberTail cs) (.token (numberKind (c :: numberTail cs))) := by
  have hnearest := Decimal.nearest_toFloat (decimal (c :: numberTail cs))
  rcases numberTail_cases cs with hdigits | ⟨whole, fraction, heq, hwhole, hfraction⟩
  · have hall : ∀ d ∈ c :: numberTail cs, d.isDigit := List.forall_mem_cons.mpr ⟨h, hdigits⟩
    rw [value_decimal_integer hall] at hnearest
    exact .integer ⟨List.cons_ne_nil _ _, hall⟩ hnearest
  · have hall : ∀ d ∈ c :: whole, d.isDigit := List.forall_mem_cons.mpr ⟨h, hwhole⟩
    rw [heq, ← List.cons_append] at hnearest ⊢
    rw [value_decimal_fraction hall] at hnearest
    exact .fraction ⟨List.cons_ne_nil _ _, hall⟩ hfraction hnearest

theorem lexeme_word {word : List Char} (h : IsWord word) :
    Lexeme word (.token (wordKind word)) := by
  unfold wordKind
  cases hkeyword : keyword? (String.ofList word) with
  | some kind =>
    have hlexeme := Lexeme.keyword (keyword?_eq_some_iff.mp hkeyword)
    rwa [String.toList_ofList] at hlexeme
  | none =>
    refine .identifier h fun kind hmem => ?_
    rw [keyword?_eq_some_iff.mpr hmem] at hkeyword
    cases hkeyword

theorem isWord_takeWhile {c : Char} (cs : List Char) (h : startsWord c) :
    IsWord (c :: cs.takeWhile continuesWord) := by
  refine ⟨by simpa [startsWord] using h, fun d hd => ?_⟩
  simpa [continuesWord] using List.mem_takeWhile_imp hd

theorem lexeme_operator {c : Char} {cs : List Char}
    (h : ∀ cause, (operatorStarting c cs).content ≠ .fault cause) :
    Lexeme (operatorStarting c cs).text (operatorStarting c cs).content := by
  unfold operatorStarting at h ⊢
  split
  · next hkind =>
    have hlexeme := Lexeme.operator (mem_operators_of_withEqual? hkind)
    rwa [String.toList_ofList] at hlexeme
  · split
    · next hkind =>
      have hlexeme := Lexeme.operator (mem_operators_of_operator? hkind)
      rwa [String.toList_ofList] at hlexeme
    · next hnone => simp [hnone] at h

theorem lexeme_string {cs : List Char} (h : ∀ cause, (stringStarting cs).content ≠ .fault cause) :
    Lexeme (stringStarting cs).text (stringStarting cs).content := by
  simp only [stringStarting] at h ⊢
  split at h
  · next hclosed =>
    rw [if_pos hclosed]
    exact .string fun hmem => by simpa using List.mem_takeWhile_imp hmem
  · exact absurd rfl (h .unterminated)

theorem lexeme_comment {cs : List Char} (h : cs.head? = some '/') :
    Lexeme ('/' :: cs.takeWhile (· ≠ '\n')) .layout := by
  obtain ⟨body, rfl⟩ := List.head?_eq_some_iff.mp h
  have hfirst : ('/' :: body).takeWhile (· ≠ '\n') = '/' :: body.takeWhile (· ≠ '\n') := rfl
  rw [hfirst]
  exact .comment fun hmem => by simpa using List.mem_takeWhile_imp hmem

/-- What the scanner takes from the front of a text is a lexeme, if it is no fault. -/
theorem lexeme_starting {c : Char} {cs : List Char}
    (h : ∀ cause, (starting c cs).content ≠ .fault cause) :
    Lexeme (starting c cs).text (starting c cs).content := by
  unfold starting at h ⊢
  split_ifs at h ⊢ with hblank hquote hdigit hword hcomment
  · exact .blank (isBlank_iff_mem_blanks.mp hblank)
  · exact lexeme_string h
  · exact lexeme_number cs hdigit
  · exact lexeme_word (isWord_takeWhile cs hword)
  · simp only [Bool.and_eq_true, decide_eq_true_eq] at hcomment
    obtain ⟨rfl, hhead⟩ := hcomment
    exact lexeme_comment hhead
  · exact lexeme_operator h

/-! ## Lexemes are taken as a whole -/

/-- The scanner takes `c :: more` as a whole, and no less where more text follows. -/
structure Takes (c : Char) (more : List Char) (content : Content) : Prop where
  whole : starting c more = ⟨c, more, content⟩
  noLess (rest : List Char) : more.length ≤ (starting c (more ++ rest)).more.length
  noFault (rest : List Char) (cause : LexicalCause) :
    (starting c (more ++ rest)).content ≠ .fault cause

theorem Content.token_ne_fault (kind : Kind) (cause : LexicalCause) :
    Content.token kind ≠ .fault cause := by
  intro h
  cases h

theorem Content.layout_ne_fault (cause : LexicalCause) : Content.layout ≠ .fault cause := by
  intro h
  cases h

theorem takes_operator {c : Char} {kind : Kind} (h : operator? c = some kind) :
    Takes c [] (.token kind) := by
  refine ⟨?_, fun rest => Nat.zero_le _, fun rest cause => ?_⟩
  · simp [starting_of_operator? _ h, operatorStarting, h]
  · rw [List.nil_append, starting_of_operator? _ h]
    split
    · exact Content.layout_ne_fault _
    · unfold operatorStarting
      split
      · exact Content.token_ne_fault _ _
      · rw [h]
        exact Content.token_ne_fault _ _

theorem takes_withEqual {c : Char} {kind : Kind} (h : withEqual? c = some kind) :
    Takes c ['='] (.token kind) := by
  obtain ⟨hslash, kind', hkind'⟩ := operator?_of_withEqual? h
  have hstarting (rest : List Char) : starting c ('=' :: rest) = ⟨c, ['='], .token kind⟩ := by
    simp [starting_of_operator? _ hkind', hslash, operatorStarting, h]
  refine ⟨hstarting [], fun rest => ?_, fun rest cause => ?_⟩
  · rw [List.singleton_append, hstarting]
  · rw [List.singleton_append, hstarting]
    exact Content.token_ne_fault _ _

theorem takes_string {contents : List Char} (h : '"' ∉ contents) :
    Takes '"' (contents ++ ['"']) (.token (.string (String.ofList contents))) := by
  have hall : ∀ c ∈ contents, decide (c ≠ '"') = true := by
    intro c hc
    simpa using ne_of_mem_of_not_mem hc h
  have hstarting (rest : List Char) : starting '"' (contents ++ ['"'] ++ rest) =
      ⟨'"', contents ++ ['"'], .token (.string (String.ofList contents))⟩ := by
    have hcontents : (contents ++ ['"'] ++ rest).takeWhile (· ≠ '"') = contents := by
      rw [List.append_assoc, List.takeWhile_append_of_pos hall]
      simp
    have hlt : contents.length < (contents ++ ['"'] ++ rest).length := by
      simp only [List.length_append, List.length_singleton]
      omega
    change stringStarting _ = _
    simp only [stringStarting, hcontents, hlt, if_true]
  refine ⟨by simpa using hstarting [], fun rest => ?_, fun rest cause => ?_⟩
  · rw [hstarting]
  · rw [hstarting]
    exact Content.token_ne_fault _ _

theorem takes_integer {c : Char} {cs : List Char} {value : Float} (h : IsDigits (c :: cs))
    (hvalue : Numeral.Nearest (numeralValue (c :: cs) []) value) :
    Takes c cs (.token (.number value)) := by
  obtain ⟨hc, hcs⟩ := List.forall_mem_cons.mp h.2
  have hnearest := Decimal.nearest_toFloat (decimal (c :: cs))
  rw [value_decimal_integer h.2] at hnearest
  refine ⟨?_, fun rest => ?_, fun rest cause => ?_⟩
  · rw [starting_of_isDigit _ hc, numberTail_of_digits hcs, numberKind, hnearest.unique hvalue]
  · rw [starting_of_isDigit _ hc]
    calc
      cs.length ≤ ((cs ++ rest).takeWhile Char.isDigit).length := by
        rw [List.takeWhile_append_of_pos hcs, List.length_append]
        omega
      _ ≤ (numberTail (cs ++ rest)).length := length_takeWhile_le_numberTail _
  · rw [starting_of_isDigit _ hc]
    exact Content.token_ne_fault _ _

theorem takes_fraction {c : Char} {cs fraction : List Char} {value : Float}
    (h : IsDigits (c :: cs)) (hfraction : IsDigits fraction)
    (hvalue : Numeral.Nearest (numeralValue (c :: cs) fraction) value) :
    Takes c (cs ++ '.' :: fraction) (.token (.number value)) := by
  obtain ⟨hc, hcs⟩ := List.forall_mem_cons.mp h.2
  have hnearest := Decimal.nearest_toFloat (decimal (c :: cs ++ '.' :: fraction))
  rw [value_decimal_fraction h.2] at hnearest
  have htail (rest : List Char) : numberTail (cs ++ '.' :: fraction ++ rest) =
      cs ++ '.' :: fraction ++ rest.takeWhile Char.isDigit := by
    have hdigits : (fraction ++ rest).takeWhile Char.isDigit =
        fraction ++ rest.takeWhile Char.isDigit := List.takeWhile_append_of_pos hfraction.2
    have hne : ¬(fraction ++ rest.takeWhile Char.isDigit).isEmpty := by
      simp [hfraction.1]
    rw [List.append_assoc, List.cons_append, numberTail_point hcs, hdigits, if_neg hne,
      List.append_assoc, List.cons_append]
  refine ⟨?_, fun rest => ?_, fun rest cause => ?_⟩
  · have hwhole := htail []
    simp only [List.append_nil, List.takeWhile_nil] at hwhole
    rw [starting_of_isDigit _ hc, hwhole, numberKind, ← List.cons_append, hnearest.unique hvalue]
  · rw [starting_of_isDigit _ hc, htail]
    exact (List.prefix_append _ _).length_le
  · rw [starting_of_isDigit _ hc]
    exact Content.token_ne_fault _ _

theorem takes_word {c : Char} {cs : List Char} (h : IsWord (c :: cs)) :
    Takes c cs (.token (wordKind (c :: cs))) := by
  have hc : startsWord c := by simpa [startsWord] using h.1
  have hcs : ∀ d ∈ cs, continuesWord d := fun d hd => by simpa [continuesWord] using h.2 d hd
  refine ⟨?_, fun rest => ?_, fun rest cause => ?_⟩
  · rw [starting_of_startsWord _ hc, takeWhile_eq_of_forall hcs]
  · rw [starting_of_startsWord _ hc, List.takeWhile_append_of_pos hcs, List.length_append]
    omega
  · rw [starting_of_startsWord _ hc]
    exact Content.token_ne_fault _ _

theorem takes_comment {body : List Char} (h : '\n' ∉ body) : Takes '/' ('/' :: body) .layout := by
  have hstarting (rest : List Char) : starting '/' ('/' :: body ++ rest) =
      ⟨'/', '/' :: body ++ rest.takeWhile (· ≠ '\n'), .layout⟩ := by
    have hall : ∀ c ∈ '/' :: body, decide (c ≠ '\n') = true := by
      intro c hc
      rcases List.mem_cons.mp hc with rfl | hc
      · rfl
      · simpa using ne_of_mem_of_not_mem hc h
    rw [← List.takeWhile_append_of_pos hall]
    rfl
  refine ⟨by simpa using hstarting [], fun rest => ?_, fun rest cause => ?_⟩
  · rw [hstarting, List.length_append]
    omega
  · rw [hstarting]
    exact Content.layout_ne_fault _

theorem takes_blank {c : Char} (h : c ∈ [' ', '\r', '\t', '\n']) : Takes c [] .layout := by
  have hblank := isBlank_iff_mem_blanks.mpr h
  refine ⟨starting_of_isBlank _ hblank, fun rest => Nat.zero_le _, fun rest cause => ?_⟩
  rw [starting_of_isBlank _ hblank]
  exact Content.layout_ne_fault _

/-- The scanner takes every lexeme as a whole. -/
theorem takes_of_lexeme {text : List Char} {content : Content} (h : Lexeme text content) :
    ∃ c more, text = c :: more ∧ Takes c more content := by
  cases h with
  | operator hmem =>
    rcases operator?_of_mem_operators hmem with ⟨c, htext, hkind⟩ | ⟨c, htext, hkind⟩
    · exact ⟨c, [], htext, takes_operator hkind⟩
    · exact ⟨c, ['='], htext, takes_withEqual hkind⟩
  | string hcontents => exact ⟨_, _, rfl, takes_string hcontents⟩
  | integer hwhole hvalue =>
    obtain ⟨c, more, rfl⟩ := List.exists_cons_of_ne_nil hwhole.1
    exact ⟨c, more, rfl, takes_integer hwhole hvalue⟩
  | @fraction whole fraction value hwhole hfraction hvalue =>
    obtain ⟨c, more, rfl⟩ := List.exists_cons_of_ne_nil hwhole.1
    exact ⟨c, more ++ '.' :: fraction, rfl, takes_fraction hwhole hfraction hvalue⟩
  | @keyword word kind hmem =>
    have hword := isWord_of_mem_keywords hmem
    have hkind : wordKind word.toList = kind := by
      rw [wordKind, String.ofList_toList, keyword?_eq_some_iff.mpr hmem, Option.getD_some]
    obtain ⟨c, more, htext⟩ := List.exists_cons_of_ne_nil (l := word.toList) <| by
      intro hnil
      rw [hnil] at hword
      exact hword
    rw [htext] at hword hkind
    exact ⟨c, more, htext, hkind ▸ takes_word hword⟩
  | identifier hword hname =>
    have hkind : wordKind text = .identifier := by
      cases hkeyword : keyword? (String.ofList text) with
      | none => rw [wordKind, hkeyword, Option.getD_none]
      | some kind => exact absurd (keyword?_eq_some_iff.mp hkeyword) (hname kind)
    cases text with
    | nil => exact hword.elim
    | cons c more => exact ⟨c, more, rfl, hkind ▸ takes_word hword⟩
  | comment hbody => exact ⟨_, _, rfl, takes_comment hbody⟩
  | blank hc => exact ⟨_, _, rfl, takes_blank hc⟩

theorem Lexeme.unique {text : List Char} {content content' : Content} (h : Lexeme text content)
    (h' : Lexeme text content') : content = content' := by
  obtain ⟨c, more, rfl, htakes⟩ := takes_of_lexeme h
  obtain ⟨d, more', heq, htakes'⟩ := takes_of_lexeme h'
  cases heq
  exact congrArg Stretch.content (htakes.whole.symm.trans htakes'.whole)

/-! ## The items -/

/-- The first stretch is the longest lexeme, if it is no fault. -/
theorem longest_starting {c : Char} {cs : List Char}
    (h : ∀ cause, (starting c cs).content ≠ .fault cause) :
    Longest (c :: cs) (starting c cs).text (starting c cs).content := by
  refine ⟨text_starting_isPrefix c cs, lexeme_starting h, fun other content' hprefix hother => ?_⟩
  obtain ⟨d, more, rfl, htakes⟩ := takes_of_lexeme hother
  obtain ⟨rest, hrest⟩ := hprefix
  cases hrest
  exact Nat.succ_le_succ (htakes.noLess rest)

/-- A fault is found only where there is no lexeme. -/
theorem unmatched_of_fault {c : Char} {cs : List Char} {cause : LexicalCause}
    (h : (starting c cs).content = .fault cause) : Unmatched (c :: cs) := by
  intro other content' hprefix hother
  obtain ⟨d, more, rfl, htakes⟩ := takes_of_lexeme hother
  obtain ⟨rest, hrest⟩ := hprefix
  cases hrest
  exact htakes.noFault rest cause h

theorem Longest.unique {cs text text' : List Char} {content content' : Content}
    (h : Longest cs text content) (h' : Longest cs text' content') :
    text = text' ∧ content = content' := by
  have hlength := Nat.le_antisymm (h'.2.2 _ _ h.1 h.2.1) (h.2.2 _ _ h'.1 h'.2.1)
  have htext : text = text' :=
    (List.prefix_of_prefix_length_le h.1 h'.1 hlength.le).eq_of_length hlength
  subst htext
  exact ⟨rfl, h.2.1.unique h'.2.1⟩

theorem starting_of_fault {c : Char} {cs : List Char} {cause : LexicalCause}
    (h : (starting c cs).content = .fault cause) :
    c = '"' ∧ starting c cs = ⟨c, cs, .fault .unterminated⟩ ∨
      c ≠ '"' ∧ starting c cs = ⟨c, [], .fault (.unexpected (String.singleton c))⟩ := by
  unfold starting at h ⊢
  split_ifs at h ⊢ with hblank hquote hdigit hword hcomment
  · refine .inl ⟨hquote, ?_⟩
    simp only [stringStarting] at h ⊢
    split at h
    · cases h
    · next hopen => rw [if_neg hopen, hquote]
  · refine .inr ⟨hquote, ?_⟩
    unfold operatorStarting at h ⊢
    split at h
    · cases h
    · split at h
      · cases h
      · rfl

theorem count_newline_of_unmatched {c : Char} {cs : List Char} (h : Unmatched (c :: cs)) :
    [c].count '\n' = 0 := by
  have hne : c ≠ '\n' := by
    rintro rfl
    exact h ['\n'] .layout ⟨cs, rfl⟩ (.blank (by simp))
  simp [hne]

theorem exists_fault_of_unmatched {c : Char} {cs : List Char} (h : Unmatched (c :: cs)) :
    ∃ cause, (starting c cs).content = .fault cause := by
  by_contra hnone
  have hlongest := longest_starting (not_exists.mp hnone)
  exact h _ _ hlongest.1 hlongest.2.1

/-- Cutting up a text goes on behind its longest lexeme. -/
theorem Longest.stretches_eq {text rest : List Char} {content : Content}
    (h : Longest (text ++ rest) text content) :
    ∃ s : Stretch, s.text = text ∧ s.content = content ∧
      stretches (text ++ rest) = s :: stretches rest := by
  obtain ⟨c, more, rfl, htakes⟩ := takes_of_lexeme h.2.1
  obtain ⟨htext, hcontent⟩ := h.unique (longest_starting (htakes.noFault rest))
  refine ⟨starting c (more ++ rest), htext.symm, hcontent.symm, ?_⟩
  have hmore : (starting c (more ++ rest)).more = more := (List.cons.inj htext).2.symm
  rw [List.cons_append, stretches, hmore, List.drop_left]

theorem lexed_itemsFrom (line : Nat) (cs : List Char) :
    Lexed line cs (itemsFrom line (stretches cs)) := by
  induction cs using stretches.induct generalizing line with
  | case1 =>
    rw [stretches]
    exact .done
  | case2 c cs s ih =>
    have hwhole : s.text ++ cs.drop s.more.length = c :: cs :=
      List.prefix_iff_eq_append.mp (text_starting_isPrefix c cs)
    have hlongest : (∀ cause, s.content ≠ .fault cause) →
        Longest (s.text ++ cs.drop s.more.length) s.text s.content := hwhole ▸ longest_starting
    rw [stretches]
    simp only [itemsFrom]
    split
    · next hcontent =>
      have hlexeme := hlongest (hcontent ▸ Content.layout_ne_fault)
      rw [← hwhole]
      exact .layout (hcontent ▸ hlexeme) (ih _)
    · next kind hcontent =>
      have hlexeme := hlongest (hcontent ▸ Content.token_ne_fault _)
      rw [← hwhole]
      exact .token (hcontent ▸ hlexeme) (ih _)
    · next cause hcontent =>
      have hunmatched := unmatched_of_fault hcontent
      rcases starting_of_fault hcontent with ⟨rfl, hs⟩ | ⟨hquote, hs⟩
      · rw [hs] at hcontent ⊢
        cases hcontent
        simpa [Stretch.newlines, Stretch.text, stretches, itemsFrom] using
          @Lexed.unterminated line _ hunmatched
      · have hnewline := count_newline_of_unmatched hunmatched
        have hrest := ih line
        simp only [s, hs, List.length_nil, List.drop_zero] at hrest
        rw [hs] at hcontent ⊢
        cases hcontent
        simp only [Stretch.newlines, Stretch.text, hnewline, Nat.add_zero, List.length_nil,
          List.drop_zero]
        exact .unexpected hunmatched hquote hrest

theorem itemsFrom_eq_of_lexed {line : Nat} {cs : List Char} {items : List ScanItem}
    (h : Lexed line cs items) : itemsFrom line (stretches cs) = items := by
  induction h with
  | done => rw [stretches, itemsFrom]
  | token hlongest _ ih =>
    obtain ⟨s, rfl, hcontent, hstretches⟩ := hlongest.stretches_eq
    rw [hstretches, itemsFrom]
    simp only [hcontent, Stretch.newlines, ih]
  | layout hlongest _ ih =>
    obtain ⟨s, rfl, hcontent, hstretches⟩ := hlongest.stretches_eq
    rw [hstretches, itemsFrom]
    simp only [hcontent, Stretch.newlines, ih]
  | @unexpected line c rest items hunmatched hquote _ ih =>
    have hnewline := count_newline_of_unmatched hunmatched
    obtain ⟨cause, hcause⟩ := exists_fault_of_unmatched hunmatched
    obtain ⟨-, hs⟩ := (starting_of_fault hcause).resolve_left fun h => hquote h.1
    rw [stretches, hs, itemsFrom]
    simp only [Stretch.newlines, Stretch.text, hnewline, Nat.add_zero, List.length_nil,
      List.drop_zero, ih]
  | @unterminated line rest hunmatched =>
    obtain ⟨cause, hcause⟩ := exists_fault_of_unmatched hunmatched
    obtain ⟨-, hs⟩ := (starting_of_fault hcause).resolve_right fun h => h.1 rfl
    rw [stretches, hs, itemsFrom]
    simp [Stretch.newlines, Stretch.text, stretches, itemsFrom]

/-- Maximal munch. The items of a source are those that the reference reading comes to, which takes
the longest lexeme at each position. -/
theorem scan_eq_iff_lexed (source : String) (items : List ScanItem) :
    scan source = items ↔ Lexed 1 source.toList items := by
  rw [scan_eq]
  constructor
  · rintro rfl
    exact lexed_itemsFrom 1 source.toList
  · exact itemsFrom_eq_of_lexed

end LoxLang
