import LoxLang.Proofs.Source.Joining

/-!
# The partition of a source

Scanning cuts a source up without a loss. The rounds of the scanner, from the first byte to the
last, cut pieces out of the source that lie one behind the other. Each of them begins and ends
between two characters, covers what it should, and leaves the scanner on the line on which it ends.
The items of the source are those of the pieces, with one end token behind them (`scan_partition`).
-/
namespace LoxLang
open Scanner Scanning

/-- What is skipped: one blank, or a comment up to the end of its line. -/
inductive IsLayout : (text behind : List Char) → Prop
  | blank {c : Char} {behind : List Char} : c ∈ [' ', '\r', '\t', '\n'] → IsLayout [c] behind
  | comment {body behind : List Char} : '\n' ∉ body → behind.head?.all (· = '\n') →
    IsLayout ('/' :: '/' :: body) behind

/-- What a piece of text is in front of the text `behind`. Tokens are never the end token, an
unexpected character is all that its fault covers, and a string without an end is the last piece. -/
def Content.Covers (content : Content) (text behind : List Char) : Prop :=
  match content with
  | .layout => IsLayout text behind
  | .token kind => kind ≠ .eof
  | .fault (.unexpected shown) => ∃ c, text = [c] ∧ shown = String.singleton c
  | .fault .unterminated => behind = []
  | .fault (.other _) => False

/-- The cut lies in the source between `before` and `behind`, and ends on its line. -/
structure Cut.Lies (cut : Cut) (source before behind : String) : Prop where
  whole : source = before ++ cut.text ++ behind
  text_ne : cut.text ≠ ""
  start : cut.start = before.utf8ByteSize
  stop : cut.stop = (before ++ cut.text).utf8ByteSize
  boundaries : String.Pos.Raw.IsValid source ⟨cut.start⟩ ∧ String.Pos.Raw.IsValid source ⟨cut.stop⟩
  slice : slice? source cut.start cut.stop = some cut.text
  line : cut.line = 1 + newlinesIn (before ++ cut.text)
  covers : cut.content.Covers cut.text.toList behind.toList

/-- The cuts lie one behind the other from `before` to the end of the source. -/
inductive Tiles (source : String) : (before : String) → List Cut → Prop
  | done : Tiles source source []
  | cut {before behind : String} {cut : Cut} {cuts : List Cut} : cut.Lies source before behind →
    Tiles source (before ++ cut.text) cuts → Tiles source before (cut :: cuts)

theorem Tiles.join_text {source before : String} {cuts : List Cut} (h : Tiles source before cuts) :
    before ++ String.join (cuts.map Cut.text) = source := by
  induction h with
  | done => simp
  | cut hcut hcuts ih =>
    rw [List.map_cons, String.join_cons, ← String.append_assoc, ih]

namespace Stretch

theorem isBlank_iff_mem_blanks {c : Char} : isBlank c ↔ c ∈ [' ', '\r', '\t', '\n'] := by
  simp [isBlank, or_assoc]

theorem head?_drop_takeWhile (cs : List Char) :
    (cs.drop (cs.takeWhile (· ≠ '\n')).length).head?.all (· = '\n') := by
  induction cs with
  | nil => rfl
  | cons c cs ih =>
    by_cases hc : c = '\n'
    · simp [hc]
    · simpa [hc] using ih

theorem covers_comment {cs : List Char} (h : cs.head? = some '/') :
    Content.layout.Covers ('/' :: cs.takeWhile (· ≠ '\n'))
      (cs.drop (cs.takeWhile (· ≠ '\n')).length) := by
  have hbehind := head?_drop_takeWhile cs
  obtain ⟨body, rfl⟩ := List.head?_eq_some_iff.mp h
  have hfirst : ('/' :: body).takeWhile (· ≠ '\n') = '/' :: body.takeWhile (· ≠ '\n') := rfl
  rw [hfirst] at hbehind ⊢
  refine .comment (fun hmem => ?_) hbehind
  simpa using List.mem_takeWhile_imp hmem

theorem covers_stringStarting (cs : List Char) :
    (stringStarting cs).content.Covers (stringStarting cs).text
      (cs.drop (stringStarting cs).more.length) := by
  simp only [stringStarting]
  split
  · intro h
    cases h
  · simp [Content.Covers]

theorem covers_operatorStarting (c : Char) (cs behind : List Char) :
    (operatorStarting c cs).content.Covers (operatorStarting c cs).text behind := by
  unfold operatorStarting
  split
  · next hkind => exact (withEqual?_ne_word hkind).2.2
  · split
    · next hkind => exact (operator?_ne_word hkind).2.2
    · exact ⟨c, rfl, rfl⟩

theorem covers_starting (c : Char) (cs : List Char) :
    (starting c cs).content.Covers (starting c cs).text
      (cs.drop (starting c cs).more.length) := by
  have heof := content_starting_ne_eof c cs
  unfold starting at heof ⊢
  split_ifs at heof ⊢ with hblank hquote hdigit hword hcomment
  · exact .blank (isBlank_iff_mem_blanks.mp hblank)
  · exact covers_stringStarting cs
  · exact nofun
  · exact fun h => heof (congrArg Content.token h)
  · simp only [Bool.and_eq_true, decide_eq_true_eq] at hcomment
    obtain ⟨rfl, hhead⟩ := hcomment
    exact covers_comment hhead
  · exact covers_operatorStarting c cs _

end Stretch

/-- A stretch lies where it is cut. -/
theorem Cut.lies_of_stretch {source : String} {before behind : List Char} {s : Stretch}
    (h : source.toList = before ++ s.text ++ behind) (hcovers : s.content.Covers s.text behind) :
    Cut.Lies ⟨(bytesOf before).length, (bytesOf (before ++ s.text)).length,
      1 + (before ++ s.text).count '\n', String.ofList s.text, s.content⟩
      source (String.ofList before) (String.ofList behind) where
  whole := by rw [← String.ofList_append, ← String.ofList_append, ← h, String.ofList_toList]
  text_ne := by
    rw [ne_eq, String.ofList_eq_empty_iff]
    exact List.cons_ne_nil _ _
  start := (utf8ByteSize_ofList before).symm
  stop := by rw [← String.ofList_append, utf8ByteSize_ofList]
  boundaries := ⟨isValid_of_toList (h.trans (List.append_assoc ..)), isValid_of_toList h⟩
  slice := slice?_eq h
  line := by rw [newlinesIn, ← String.ofList_append, String.toList_ofList]
  covers := by simpa using hcovers

theorem tiles_cutsFrom {source : String} {before behind : List Char}
    (h : source.toList = before ++ behind) :
    Tiles source (String.ofList before) (cutsFrom before (stretches behind)) := by
  induction behind using stretches.induct generalizing before with
  | case1 =>
    rw [List.append_nil] at h
    rw [stretches, cutsFrom, ← h, String.ofList_toList]
    exact .done
  | @case2 c cs s ih =>
    have hwhole : s.text ++ cs.drop s.more.length = c :: cs :=
      List.prefix_iff_eq_append.mp (Stretch.text_starting_isPrefix c cs)
    rw [← hwhole, ← List.append_assoc] at h
    have hrest := ih h
    rw [String.ofList_append] at hrest
    rw [stretches, cutsFrom]
    exact .cut (Cut.lies_of_stretch h (Stretch.covers_starting c cs)) hrest

/-- Scanning is a lossless partition with exact lines. The rounds of the scanner go from the first
byte of a source to its end. What they cut out makes up the source: the cuts lie one behind the
other, each between two characters, with text, and on the line on which it ends, and each covers
what it should. No byte is taken past the end and no text is cut off a boundary, so with fuel for
the rounds the scanner comes to its items, and there is none behind them. The items are those of the
cuts that are no layout, and one end token on the last line. -/
theorem scan_partition (source : String) :
    ∃ cuts last, Rounds (.begin source) cuts last ∧
      String.join (cuts.map Cut.text) = source ∧ Tiles source "" cuts ∧
      (∀ fuel, source.utf8ByteSize + 2 ≤ fuel →
        items fuel (.begin source) = .done (scan source) last.finish) ∧
      (∀ fuel, next (fuel + 1) last.finish = .done none last.finish) ∧
      scan source = cuts.filterMap Cut.item? ++ [.ok ⟨.eof, "", 1 + newlinesIn source⟩] := by
  obtain ⟨last, hrounds, hitems⟩ := exists_rounds source
  have htiles : Tiles source "" (cutsFrom [] (stretches source.toList)) := tiles_cutsFrom rfl
  refine ⟨_, last, hrounds, ?_, htiles, ?_, next_finish hrounds.isAtEnd, scan_eq_cuts source⟩
  · have hjoin := htiles.join_text
    rwa [String.empty_append] at hjoin
  · intro fuel hfuel
    rw [hitems fuel hfuel, scan_eq_cuts]

end LoxLang
