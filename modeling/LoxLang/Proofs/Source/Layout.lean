import LoxLang.Proofs.Source.LongestMatch

/-!
# Other layouts

The tokens of a source can be written again with other blanks and comments between them. As long as
each two of them are kept apart by a blank, the scanner finds the same tokens, whatever they are
(`scan_laidOut`): a blank ends every token, and what is skipped behind it leaves nothing but
newlines.
-/
namespace LoxLang
open Stretch

/-- What can be skipped: blanks, and comments with the newline that ends them. -/
inductive IsFiller : List Char → Prop
  | nil : IsFiller []
  | blank {c : Char} {cs : List Char} : c ∈ [' ', '\r', '\t', '\n'] → IsFiller cs →
    IsFiller (c :: cs)
  | comment {body cs : List Char} : '\n' ∉ body → IsFiller cs →
    IsFiller ('/' :: '/' :: body ++ '\n' :: cs)

/-- What can be skipped and begins with a blank. -/
structure IsSeparator (cs : List Char) : Prop where
  filler : IsFiller cs
  begins : ∃ c ∈ [' ', '\r', '\t', '\n'], cs.head? = some c

/-- The tokens as they are written, with a separator between each two of them, and perhaps one
behind the last. -/
inductive LaidOut (separator : List Char → Prop) : List Token → List Char → Prop
  | nil : LaidOut separator [] []
  | last {t : Token} : LaidOut separator [t] t.lexeme.toList
  | cons {t : Token} {ts : List Token} {between text : List Char} : separator between →
    LaidOut separator ts text → LaidOut separator (t :: ts) (t.lexeme.toList ++ (between ++ text))

namespace Token

/-- What a token is and how it is written, wherever it stands. -/
def unplaced (t : Token) : Kind × String := (t.kind, t.lexeme)

/-- The newlines in a string; other tokens have none. -/
def newlines (t : Token) : Nat :=
  match t.kind with
  | .string _ => t.lexeme.toList.count '\n'
  | _ => 0

end Token

def newlinesInStrings (ts : List Token) : Nat := (ts.map Token.newlines).sum

/-! ## Lexemes and what is behind them -/

theorem newline_not_mem_of_isDigit {cs : List Char} (h : ∀ c ∈ cs, c.isDigit) : '\n' ∉ cs :=
  fun hmem => absurd (h _ hmem) (by decide)

theorem newline_not_mem_of_isWord {cs : List Char} (h : IsWord cs) : '\n' ∉ cs := by
  cases cs with
  | nil => exact List.not_mem_nil
  | cons c cs =>
    rintro (_ | ⟨_, hmem⟩)
    · exact absurd h.1 (by decide)
    · exact absurd (h.2 _ hmem) (by decide)

theorem newline_not_mem_of_lexeme {text : List Char} {kind : Kind} (h : Lexeme text (.token kind))
    (hkind : ∀ contents, kind ≠ .string contents) : '\n' ∉ text := by
  cases h with
  | operator hmem =>
    simp only [operators, List.mem_cons, Prod.mk.injEq, List.not_mem_nil, or_false] at hmem
    casesm* _ ∨ _, _ ∧ _ <;> subst_vars <;> decide
  | string _ => exact absurd rfl (hkind _)
  | integer hwhole _ => exact newline_not_mem_of_isDigit hwhole.2
  | fraction hwhole hfraction _ =>
    intro hmem
    rcases List.mem_append.mp hmem with hmem | _ | ⟨_, hmem⟩
    · exact newline_not_mem_of_isDigit hwhole.2 hmem
    · exact newline_not_mem_of_isDigit hfraction.2 hmem
  | keyword hmem => exact newline_not_mem_of_isWord (isWord_of_mem_keywords hmem)
  | identifier hword _ => exact newline_not_mem_of_isWord hword

theorem Token.count_newline {t : Token} (h : Lexeme t.lexeme.toList (.token t.kind)) :
    t.lexeme.toList.count '\n' = t.newlines := by
  unfold newlines
  split
  · rfl
  · next hkind => exact List.count_eq_zero.mpr (newline_not_mem_of_lexeme h hkind)

/-- A token ends where the text ends or a blank follows. -/
theorem itemsFrom_lexeme_append {text behind : List Char} {kind : Kind}
    (h : Lexeme text (.token kind)) (hbehind : ∀ b ∈ behind.head?, isBlank b) (line : Nat) :
    itemsFrom line (stretches (text ++ behind)) =
      .ok ⟨kind, String.ofList text, line + text.count '\n'⟩ ::
        itemsFrom (line + text.count '\n') (stretches behind) := by
  obtain ⟨c, more, rfl, htakes⟩ := takes_of_lexeme h
  have hwhole := htakes.whole
  have hstarting : starting c (more ++ behind) = ⟨c, more, .token kind⟩ := by
    cases behind with
    | nil => rw [List.append_nil, hwhole]
    | cons b rest =>
      have hb : isBlank b := hbehind b rfl
      rw [starting_append_blank c more rest hb, hwhole]
      · rw [hwhole]
        exact Content.token_ne_fault _ _
      · rw [hwhole]
        exact .inr nofun
  rw [List.cons_append, stretches, hstarting, itemsFrom]
  simp only [List.drop_left]
  rfl

theorem itemsFrom_lexeme {text : List Char} {kind : Kind} (h : Lexeme text (.token kind))
    (line : Nat) : itemsFrom line (stretches text) =
      [.ok ⟨kind, String.ofList text, line + text.count '\n'⟩,
        .ok ⟨.eof, "", line + text.count '\n'⟩] := by
  have hnone : ∀ b ∈ ([] : List Char).head?, isBlank b := nofun
  have hitems := itemsFrom_lexeme_append h hnone line
  rwa [List.append_nil, stretches] at hitems

theorem itemsFrom_blank {c : Char} (h : c ∈ [' ', '\r', '\t', '\n']) (rest : List Char)
    (line : Nat) : itemsFrom line (stretches (c :: rest)) =
      itemsFrom (line + [c].count '\n') (stretches rest) := by
  rw [stretches, starting_of_isBlank rest (isBlank_iff_mem_blanks.mpr h), itemsFrom]
  rfl

theorem itemsFrom_comment {body : List Char} (h : '\n' ∉ body) (rest : List Char) (line : Nat) :
    itemsFrom line (stretches ('/' :: '/' :: body ++ '\n' :: rest)) =
      itemsFrom (line + 1) (stretches rest) := by
  have hwhole := (takes_comment h).whole
  have hstarting : starting '/' ('/' :: body ++ '\n' :: rest) = ⟨'/', '/' :: body, .layout⟩ := by
    rw [starting_append_blank '/' ('/' :: body) rest (by decide), hwhole]
    · rw [hwhole]
      exact Content.layout_ne_fault _
    · exact .inl rfl
  have hnewlines : (⟨'/', '/' :: body, .layout⟩ : Stretch).newlines = 0 := by
    simpa [Stretch.newlines, Stretch.text, List.count_eq_zero] using h
  rw [List.cons_append, stretches, hstarting, itemsFrom]
  simp only [List.drop_left, hnewlines]
  exact itemsFrom_blank (by simp) rest line

theorem itemsFrom_filler_append {filler : List Char} (h : IsFiller filler) (rest : List Char)
    (line : Nat) : itemsFrom line (stretches (filler ++ rest)) =
      itemsFrom (line + filler.count '\n') (stretches rest) := by
  induction h generalizing line with
  | nil => rfl
  | @blank c cs hc _ ih =>
    have hcount : ([c] ++ cs).count '\n' = [c].count '\n' + cs.count '\n' := List.count_append
    rw [List.singleton_append] at hcount
    rw [List.cons_append, itemsFrom_blank hc, ih, hcount, Nat.add_assoc]
  | @comment body cs hbody _ ih =>
    have hcount : ('/' :: '/' :: body ++ '\n' :: cs).count '\n' = 1 + cs.count '\n' := by
      have hnone : body.count '\n' = 0 := List.count_eq_zero.mpr hbody
      simp [hnone, Nat.add_comm]
    have hrest : '/' :: '/' :: body ++ '\n' :: cs ++ rest =
        '/' :: '/' :: body ++ '\n' :: (cs ++ rest) := by simp
    rw [hrest, itemsFrom_comment hbody, ih, hcount, Nat.add_assoc]

/-! ## Tokens that are laid out -/

/-- A token and a separator behind it give the token, and what comes next starts on a later line. -/
theorem itemsFrom_token_append {t : Token} {between rest : List Char}
    (ht : Lexeme t.lexeme.toList (.token t.kind)) (hbetween : IsSeparator between) (line : Nat) :
    itemsFrom line (stretches (t.lexeme.toList ++ (between ++ rest))) =
      .ok { t with line := line + t.newlines } ::
        itemsFrom (line + t.newlines + between.count '\n') (stretches rest) := by
  obtain ⟨hfiller, c, hc, hhead⟩ := hbetween
  have hbehind : ∀ b ∈ (between ++ rest).head?, isBlank b := by
    obtain ⟨cs, rfl⟩ := List.head?_eq_some_iff.mp hhead
    rintro b ⟨⟩
    exact isBlank_iff_mem_blanks.mpr hc
  rw [itemsFrom_lexeme_append ht hbehind, itemsFrom_filler_append hfiller,
    Token.count_newline ht, String.ofList_toList]

/-- From this line on, nothing but the strings leads to later lines. -/
def OnLines (line : Nat) (tokens : List Token) : Prop :=
  ∀ before token after, tokens = before ++ token :: after →
    token.line = line + newlinesInStrings (before ++ [token])

theorem OnLines.cons {t : Token} {ts : List Token} {line : Nat} (ht : t.line = line + t.newlines)
    (hts : OnLines (line + t.newlines) ts) : OnLines line (t :: ts) := by
  intro before token after heq
  cases before with
  | nil =>
    cases heq
    exact ht
  | cons first before =>
    obtain ⟨rfl, hrest⟩ := List.cons.inj heq
    rw [hts before token after hrest, Nat.add_assoc]
    rfl

theorem onLines_eof (line : Nat) : OnLines line [⟨.eof, "", line⟩] :=
  .cons rfl fun before token after heq => absurd heq (by simp)

/-- Tokens that are laid out are what is scanned, with an end token behind them. -/
theorem LaidOut.exists_items {separator : List Char → Prop}
    (hseparator : ∀ cs, separator cs → IsSeparator cs) {ts : List Token} {text : List Char}
    (h : LaidOut separator ts text) (hts : ∀ t ∈ ts, Lexeme t.lexeme.toList (.token t.kind))
    (line : Nat) : ∃ tokens, itemsFrom line (stretches text) = tokens.map .ok ∧
      tokens.map Token.unplaced = ts.map Token.unplaced ++ [(.eof, "")] ∧
      ((∀ cs, separator cs → '\n' ∉ cs) → OnLines line tokens) := by
  induction h generalizing line with
  | nil =>
    refine ⟨[⟨.eof, "", line⟩], ?_, rfl, fun _ => onLines_eof line⟩
    rw [stretches]
    rfl
  | @last t =>
    have ht := hts t List.mem_cons_self
    refine ⟨[{ t with line := line + t.newlines }, ⟨.eof, "", line + t.newlines⟩], ?_, rfl,
      fun _ => .cons rfl (onLines_eof _)⟩
    rw [itemsFrom_lexeme ht, Token.count_newline ht, String.ofList_toList]
    rfl
  | @cons t ts between text hbetween _ ih =>
    rw [List.forall_mem_cons] at hts
    obtain ⟨tokens, hitems, hsame, hlines⟩ := ih hts.2 (line + t.newlines + between.count '\n')
    refine ⟨{ t with line := line + t.newlines } :: tokens, ?_, ?_, fun hnone => .cons rfl ?_⟩
    · rw [itemsFrom_token_append hts.1 (hseparator _ hbetween), hitems]
      rfl
    · rw [List.map_cons, hsame]
      rfl
    · have hcount : between.count '\n' = 0 := List.count_eq_zero.mpr (hnone _ hbetween)
      have hrest := hlines hnone
      rwa [hcount, Nat.add_zero] at hrest

/-- What a token of a source is written as is a lexeme of its kind. -/
theorem lexeme_of_mem_tokensFrom (cs : List Char) (line : Nat) {token : Token}
    (h : token ∈ tokensFrom line (stretches cs)) :
    Lexeme token.lexeme.toList (.token token.kind) := by
  induction cs using stretches.induct generalizing line with
  | case1 => simp [stretches, tokensFrom] at h
  | case2 c cs s ih =>
    rw [stretches, tokensFrom] at h
    split at h
    · next kind hkind =>
      rcases List.mem_cons.mp h with rfl | h
      · have hlexeme : Lexeme s.text s.content :=
          lexeme_starting fun cause => hkind ▸ Content.token_ne_fault kind cause
        rw [hkind] at hlexeme
        rwa [String.toList_ofList]
      · exact ih _ h
    · exact ih _ h

/-- Scanning does not depend on the layout. The tokens of a source are written with any separators
between them, and perhaps one behind the last. Then there is no fault in the new text, and its
tokens are the same but for their lines. With separators on one line, a token stands on the first
line, or as many lines later as there are newlines in the strings up to it. -/
theorem scan_laidOut {source text : String}
    (h : LaidOut IsSeparator (tokensOf source) text.toList) :
    ∃ tokens : List Token, scan text = tokens.map .ok ∧
      tokens.map Token.unplaced = (scannedTokens (scan source)).map Token.unplaced ∧
      (LaidOut (fun cs => IsSeparator cs ∧ '\n' ∉ cs) (tokensOf source) text.toList →
        ∀ before token after, tokens = before ++ token :: after →
          token.line = 1 + newlinesInStrings (before ++ [token])) := by
  have hlexemes : ∀ t ∈ tokensOf source, Lexeme t.lexeme.toList (.token t.kind) :=
    fun t => lexeme_of_mem_tokensFrom source.toList 1
  obtain ⟨tokens, hitems, hsame, -⟩ := h.exists_items (fun _ => id) hlexemes 1
  refine ⟨tokens, (scan_eq text).trans hitems, ?_, fun hline => ?_⟩
  · rw [hsame, scannedTokens_scan, List.map_append]
    rfl
  · obtain ⟨tokens', hitems', -, hlines⟩ := hline.exists_items (fun _ => And.left) hlexemes 1
    have heq : tokens = tokens' :=
      List.map_injective_iff.mpr (fun _ _ => Except.ok.inj) (hitems.symm.trans hitems')
    rw [heq]
    exact hlines fun _ => And.right

/-- A string with a newline and what would be a comment elsewhere, in front of an operator of two
characters. -/
def crowded : String := "print\"a\n//b\"!=1.5;"

theorem tokensOf_crowded : tokensOf crowded =
    [⟨.printKw, "print", 1⟩, ⟨.string "a\n//b", "\"a\n//b\"", 2⟩, ⟨.bangEqual, "!=", 2⟩,
      ⟨.number 1.5, "1.5", 2⟩, ⟨.semicolon, ";", 2⟩] := by
  decide +kernel

def loosened : String := "print\t\"a\n//b\" // \"\n!= 1.5\r\n;\n"

def spaced : String := "print \"a\n//b\" != 1.5 ;"

theorem isSeparator_of_blank {c : Char} (h : c ∈ [' ', '\r', '\t', '\n']) : IsSeparator [c] :=
  ⟨.blank h .nil, c, h, rfl⟩

theorem laidOut_loosened : LaidOut IsSeparator (tokensOf crowded) loosened.toList := by
  have hcomment : IsSeparator (' ' :: ('/' :: '/' :: " \"".toList ++ '\n' :: [])) :=
    ⟨.blank (by decide) (.comment (by decide) .nil), ' ', by decide, rfl⟩
  have hnewline : IsSeparator ['\r', '\n'] :=
    ⟨.blank (by decide) (.blank (by decide) .nil), '\r', by decide, rfl⟩
  rw [tokensOf_crowded]
  exact .cons (isSeparator_of_blank (c := '\t') (by decide)) (.cons hcomment
    (.cons (isSeparator_of_blank (c := ' ') (by decide)) (.cons hnewline
      (.cons (isSeparator_of_blank (c := '\n') (by decide)) .nil))))

theorem laidOut_spaced {separator : List Char → Prop} (h : separator [' ']) :
    LaidOut separator (tokensOf crowded) spaced.toList := by
  rw [tokensOf_crowded]
  exact .cons h (.cons h (.cons h (.cons h .last)))

theorem scan_laidOut_crowded :
    (∃ tokens : List Token, scan loosened = tokens.map .ok ∧
      tokens.map Token.unplaced = (scannedTokens (scan crowded)).map Token.unplaced) ∧
    ∃ tokens : List Token, scan spaced = tokens.map .ok ∧
      ∀ before token after, tokens = before ++ token :: after →
        token.line = 1 + newlinesInStrings (before ++ [token]) := by
  have hspace : IsSeparator [' '] := isSeparator_of_blank (by decide)
  obtain ⟨tokens, hitems, hsame, -⟩ := scan_laidOut laidOut_loosened
  obtain ⟨tokens', hitems', -, hlines⟩ := scan_laidOut (laidOut_spaced hspace)
  exact ⟨⟨tokens, hitems, hsame⟩, tokens', hitems',
    hlines (laidOut_spaced ⟨hspace, by decide⟩)⟩

end LoxLang
