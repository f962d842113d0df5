import Mathlib
import LoxLang.Source.Scan

/-!
# Stretches of source text

A source splits into stretches: tokens, layout (one blank or one comment), and text that is neither.
`Stretch.starting` takes the longest one from the front of a text. A stretch is never empty, so
repeating this cuts the whole text up, and nothing is lost.
-/
namespace LoxLang

structure Stretch where
  first : Char
  more : List Char
  content : Content
deriving DecidableEq

namespace Stretch

def text (s : Stretch) : List Char := s.first :: s.more

def newlines (s : Stretch) : Nat := s.text.count '\n'

/-- Blanks between tokens; a newline also ends the line. -/
def isBlank (c : Char) : Bool := c = ' ' || c = '\r' || c = '\t' || c = '\n'

/-- The kind of a whole word. -/
def wordKind (word : List Char) : Kind := (keyword? (String.ofList word)).getD .identifier

def operator? : Char → Option Kind
  | '(' => some .leftParen
  | ')' => some .rightParen
  | '{' => some .leftBrace
  | '}' => some .rightBrace
  | ',' => some .comma
  | '.' => some .dot
  | '-' => some .minus
  | '+' => some .plus
  | ';' => some .semicolon
  | '*' => some .star
  | '/' => some .slash
  | '!' => some .bang
  | '=' => some .equal
  | '<' => some .less
  | '>' => some .greater
  | _ => none

def withEqual? : Char → Option Kind
  | '!' => some .bangEqual
  | '=' => some .equalEqual
  | '<' => some .lessEqual
  | '>' => some .greaterEqual
  | _ => none

/-- The rest of a number after its first digit: digits, and a point only before another digit. -/
def numberTail (cs : List Char) : List Char :=
  let whole := cs.takeWhile Char.isDigit
  match cs.drop whole.length with
  | '.' :: rest =>
    let fraction := rest.takeWhile Char.isDigit
    if fraction.isEmpty then whole else whole ++ '.' :: fraction
  | _ => whole

def stringStarting (cs : List Char) : Stretch :=
  let contents := cs.takeWhile (· ≠ '"')
  if contents.length < cs.length then
    ⟨'"', contents ++ ['"'], .token (.string (String.ofList contents))⟩
  else ⟨'"', cs, .fault .unterminated⟩

def operatorStarting (c : Char) (cs : List Char) : Stretch :=
  match cs.head?, withEqual? c with
  | some '=', some kind => ⟨c, ['='], .token kind⟩
  | _, _ =>
    match operator? c with
    | some kind => ⟨c, [], .token kind⟩
    | none => ⟨c, [], .fault (.unexpected (String.singleton c))⟩

/-- The first stretch of the text `c :: cs`. -/
def starting (c : Char) (cs : List Char) : Stretch :=
  if isBlank c then ⟨c, [], .layout⟩
  else if c = '"' then stringStarting cs
  else if c.isDigit then
    let more := numberTail cs
    ⟨c, more, .token (numberKind (c :: more))⟩
  else if startsWord c then
    let more := cs.takeWhile continuesWord
    ⟨c, more, .token (wordKind (c :: more))⟩
  else if c = '/' && cs.head? = some '/' then ⟨c, cs.takeWhile (· ≠ '\n'), .layout⟩
  else operatorStarting c cs

theorem numberTail_isPrefix (cs : List Char) : numberTail cs <+: cs := by
  obtain ⟨rest, hrest⟩ := List.takeWhile_prefix (l := cs) Char.isDigit
  have hdrop : cs.drop (cs.takeWhile Char.isDigit).length = rest :=
    List.append_cancel_left ((List.prefix_iff_eq_append.mp ⟨rest, hrest⟩).trans hrest.symm)
  unfold numberTail
  simp only [hdrop]
  split
  · next tail =>
    split
    · exact List.takeWhile_prefix _
    · obtain ⟨u, hu⟩ := List.takeWhile_prefix (l := tail) Char.isDigit
      exact ⟨u, by rw [List.append_assoc, List.cons_append, hu, hrest]⟩
  · exact List.takeWhile_prefix _

theorem takeWhile_quote_isPrefix {cs : List Char}
    (h : (cs.takeWhile (· ≠ '"')).length < cs.length) :
    cs.takeWhile (· ≠ '"') ++ ['"'] <+: cs := by
  induction cs with
  | nil => simp at h
  | cons c cs ih =>
    by_cases hc : c = '"'
    · simp [hc]
    · simp only [ne_eq, hc, not_false_eq_true, decide_true, List.takeWhile_cons_of_pos,
        List.length_cons, Nat.add_lt_add_iff_right] at h ⊢
      exact (List.prefix_cons_inj c).mpr (ih h)

theorem more_stringStarting_isPrefix (cs : List Char) : (stringStarting cs).more <+: cs := by
  simp only [stringStarting]
  split
  · next h => exact takeWhile_quote_isPrefix h
  · exact List.prefix_rfl

theorem more_operatorStarting_isPrefix (c : Char) (cs : List Char) :
    (operatorStarting c cs).more <+: cs := by
  unfold operatorStarting
  split
  · next h _ =>
    obtain ⟨rest, rfl⟩ := List.head?_eq_some_iff.mp h
    exact ⟨rest, rfl⟩
  · split <;> exact List.nil_prefix

/-- The first stretch is a front part of the text. -/
theorem more_starting_isPrefix (c : Char) (cs : List Char) : (starting c cs).more <+: cs := by
  unfold starting
  split
  · exact List.nil_prefix
  split
  · exact more_stringStarting_isPrefix cs
  split
  · exact numberTail_isPrefix cs
  split
  · exact List.takeWhile_prefix _
  split
  · exact List.takeWhile_prefix _
  · exact more_operatorStarting_isPrefix c cs

theorem first_stringStarting (cs : List Char) : (stringStarting cs).first = '"' := by
  simp only [stringStarting]
  split <;> rfl

theorem first_operatorStarting (c : Char) (cs : List Char) :
    (operatorStarting c cs).first = c := by
  unfold operatorStarting
  split
  · rfl
  · split <;> rfl

theorem first_starting (c : Char) (cs : List Char) : (starting c cs).first = c := by
  unfold starting
  split
  · rfl
  split
  · next h => rw [first_stringStarting, h]
  split
  · rfl
  split
  · rfl
  split
  · rfl
  · exact first_operatorStarting c cs

theorem text_starting_isPrefix (c : Char) (cs : List Char) : (starting c cs).text <+: c :: cs := by
  rw [Stretch.text, first_starting]
  exact (List.prefix_cons_inj c).mpr (more_starting_isPrefix c cs)

/-- Blanks belong to no number, no word and no operator. -/
theorem separates_of_isBlank {b : Char} (h : isBlank b) : b.isDigit = false ∧
    continuesWord b = false ∧ b ≠ '.' ∧ b ≠ '=' ∧ b ≠ '/' := by
  simp only [isBlank, Bool.or_eq_true, decide_eq_true_eq] at h
  rcases h with ((rfl | rfl) | rfl) | rfl <;> decide

theorem operator?_of_withEqual? {c : Char} {kind : Kind} (h : withEqual? c = some kind) :
    c ≠ '/' ∧ ∃ kind', operator? c = some kind' := by
  unfold withEqual? at h
  split at h <;> first | exact ⟨by decide, _, rfl⟩ | cases h

section First

variable {c : Char} (cs : List Char)

theorem starting_of_isBlank (h : isBlank c) : starting c cs = ⟨c, [], .layout⟩ := by
  rw [starting, if_pos h]

theorem starting_of_isDigit (h : c.isDigit) :
    starting c cs = ⟨c, numberTail cs, .token (numberKind (c :: numberTail cs))⟩ := by
  have hblank : ¬isBlank c := by
    intro hblank
    rw [(separates_of_isBlank hblank).1] at h
    cases h
  have hquote : c ≠ '"' := by
    rintro rfl
    cases h
  rw [starting, if_neg hblank, if_neg hquote, if_pos h]

theorem not_isDigit_of_startsWord (h : startsWord c) : ¬c.isDigit := by
  intro hdigit
  simp only [startsWord, Char.isAlpha, Char.isUpper, Char.isLower, Char.isDigit, Bool.or_eq_true,
    Bool.and_eq_true, decide_eq_true_eq] at h hdigit
  rcases h with (h | h) | rfl
  · exact absurd (UInt32.le_trans h.1 hdigit.2) (by decide)
  · exact absurd (UInt32.le_trans h.1 hdigit.2) (by decide)
  · exact absurd hdigit (by decide)

theorem starting_of_startsWord (h : startsWord c) :
    starting c cs = ⟨c, cs.takeWhile continuesWord,
      .token (wordKind (c :: cs.takeWhile continuesWord))⟩ := by
  have hblank : ¬isBlank c := by
    intro hblank
    simp only [isBlank, Bool.or_eq_true, decide_eq_true_eq] at hblank
    rcases hblank with ((rfl | rfl) | rfl) | rfl <;> cases h
  have hquote : c ≠ '"' := by
    rintro rfl
    cases h
  rw [starting, if_neg hblank, if_neg hquote, if_neg (not_isDigit_of_startsWord h), if_pos h]

end First

theorem starting_of_operator? {c : Char} {kind : Kind} (cs : List Char)
    (h : operator? c = some kind) : starting c cs =
      if c = '/' && cs.head? = some '/' then ⟨c, cs.takeWhile (· ≠ '\n'), .layout⟩
      else operatorStarting c cs := by
  unfold operator? at h
  split at h <;> first | rfl | cases h

end Stretch

def stretches : List Char → List Stretch
  | [] => []
  | c :: cs =>
    let s := Stretch.starting c cs
    s :: stretches (cs.drop s.more.length)
termination_by cs => cs.length
decreasing_by
  simp only [List.length_drop, List.length_cons]
  omega

/-- Nothing of a text is lost. -/
theorem flatMap_text_stretches (cs : List Char) : (stretches cs).flatMap Stretch.text = cs := by
  induction cs using stretches.induct with
  | case1 => simp [stretches]
  | case2 c cs s ih =>
    rw [stretches, List.flatMap_cons, ih, Stretch.text, Stretch.first_starting, List.cons_append]
    exact congrArg (c :: ·) (List.prefix_iff_eq_append.mp (Stretch.more_starting_isPrefix c cs))

def newlinesIn (source : String) : Nat := source.toList.count '\n'

/-- The items of these stretches when `line` is the line on which they start. -/
def itemsFrom (line : Nat) : List Stretch → List ScanItem
  | [] => [.ok ⟨.eof, "", line⟩]
  | s :: rest =>
    let last := line + s.newlines
    match s.content with
    | .layout => itemsFrom last rest
    | .token kind => .ok ⟨kind, String.ofList s.text, last⟩ :: itemsFrom last rest
    | .fault cause => .error ⟨last, cause⟩ :: itemsFrom last rest

end LoxLang
