import LoxLang.Proofs.Source.Scanner

/-!
# Rounds of the scanner

A source is scanned in rounds, and each of them cuts a piece out of it. The rounds determine the
items (`items_of_rounds`). From the beginning of a source they cut its stretches, so the scanner
gives out their items (`scan_eq`).
-/
namespace LoxLang

/-- What one round cuts out of a source: the bytes from `start` to `stop`, with the line on which
the scanner is then. -/
structure Cut where
  start : Nat
  stop : Nat
  line : Nat
  text : String
  content : Content

def Cut.item? (cut : Cut) : Option ScanItem :=
  match cut.content with
  | .layout => none
  | .token kind => some (.ok ⟨kind, cut.text, cut.line⟩)
  | .fault cause => some (.error ⟨cut.line, cause⟩)

open Scanner Scanning Stretch

/-- All rounds from one state to another at the end of the source. -/
inductive Rounds : Scanner → List Cut → Scanner → Prop
  | done {s : Scanner} : s.isAtEnd → Rounds s [] s
  | round {s t u : Scanner} {content : Content} {text : String} {cuts : List Cut} :
    ¬s.isAtEnd → lexeme s = .done content t → cut 0 t = .done text t → Rounds t cuts u →
    Rounds s (⟨t.start, t.place, t.line, text, content⟩ :: cuts) u

/-- The state in which the end token has been given out. -/
def Scanner.finish (s : Scanner) : Scanner := { s with ended := true }

theorem next_finish {s : Scanner} (h : s.isAtEnd) (fuel : Nat) :
    next (fuel + 1) s.finish = .done none s.finish := by
  have hend : s.finish.isAtEnd := h
  rw [next, Action.bind_apply]
  simp only [Action.view, hend, if_true, Action.bind_apply]
  rfl

theorem next_of_isAtEnd {s : Scanner} (h : s.isAtEnd) (hended : s.ended = false) (fuel : Nat) :
    next (fuel + 1) s = .done (some (.ok ⟨.eof, "", s.line⟩)) s.finish := by
  rw [next, Action.bind_apply]
  simp only [Action.view, h, if_true, Action.bind_apply, hended]
  rfl

theorem next_round {s t : Scanner} {content : Content} {text : String} (h : ¬s.isAtEnd)
    (hlexeme : lexeme s = .done content t) (hcut : cut 0 t = .done text t) (fuel : Nat) :
    next (fuel + 1) s =
      match (⟨t.start, t.place, t.line, text, content⟩ : Cut).item? with
      | none => next fuel t
      | some item => .done (some item) t := by
  rw [next, Action.bind_apply]
  simp only [Action.view]
  rw [if_neg h, Action.bind_apply, hlexeme]
  cases content with
  | layout => rfl
  | token kind =>
    simp only [Action.bind_apply, hcut]
    rfl
  | fault cause => rfl

theorem Rounds.isAtEnd {s u : Scanner} {cuts : List Cut} (h : Rounds s cuts u) : u.isAtEnd := by
  induction h with
  | done hend => exact hend
  | round _ _ _ _ ih => exact ih

/-- The rounds determine the items. A round without an item takes fuel of `next` only, so there are
two amounts of fuel here. -/
theorem collect_of_rounds {s u : Scanner} {cuts : List Cut} (h : Rounds s cuts u)
    (hended : u.ended = false) {fuel more : Nat} (hfuel : cuts.length < fuel)
    (hmore : cuts.length < more) :
    (next fuel >>= collect (items more)) s =
      .done (cuts.filterMap Cut.item? ++ [.ok ⟨.eof, "", u.line⟩]) u.finish := by
  induction h generalizing fuel more with
  | @done s hend =>
    obtain ⟨fuel, rfl⟩ := Nat.exists_eq_succ_of_ne_zero (Nat.ne_zero_of_lt hfuel)
    obtain ⟨more, rfl⟩ := Nat.exists_eq_succ_of_ne_zero (Nat.ne_zero_of_lt hmore)
    have hbehind : items (more + 1) s.finish = .done [] s.finish := by
      rw [items, Action.bind_apply, next_finish hend]
      rfl
    rw [Action.bind_apply, next_of_isAtEnd hend hended]
    simp only [collect]
    rw [Action.bind_apply, hbehind]
    rfl
  | @round s t u content text cuts hend hlexeme hcut hrounds ih =>
    obtain ⟨fuel, rfl⟩ := Nat.exists_eq_succ_of_ne_zero (Nat.ne_zero_of_lt hfuel)
    obtain ⟨more, rfl⟩ := Nat.exists_eq_succ_of_ne_zero (Nat.ne_zero_of_lt hmore)
    rw [List.length_cons, Nat.succ_lt_succ_iff] at hfuel hmore
    rw [Action.bind_apply, next_round hend hlexeme hcut, List.filterMap_cons]
    cases Cut.item? ⟨t.start, t.place, t.line, text, content⟩ with
    | none => exact ih hended hfuel (Nat.lt_succ_of_lt hmore)
    | some item =>
      have hrest := ih hended (Nat.lt_succ_of_lt hmore) hmore
      simp only [collect, items]
      rw [Action.bind_apply, hrest]
      rfl

theorem items_of_rounds {s u : Scanner} {cuts : List Cut} (h : Rounds s cuts u)
    (hended : u.ended = false) {fuel : Nat} (hfuel : cuts.length + 2 ≤ fuel) :
    items fuel s = .done (cuts.filterMap Cut.item? ++ [.ok ⟨.eof, "", u.line⟩]) u.finish := by
  obtain ⟨fuel, rfl⟩ := Nat.exists_eq_succ_of_ne_zero (Nat.ne_zero_of_lt hfuel)
  exact collect_of_rounds h hended (by omega) (by omega)

/-! ## Cutting stretches -/

/-- The cuts of these stretches behind the text `before`. -/
def cutsFrom (before : List Char) : List Stretch → List Cut
  | [] => []
  | s :: rest =>
    ⟨(bytesOf before).length, (bytesOf (before ++ s.text)).length,
      1 + (before ++ s.text).count '\n', String.ofList s.text, s.content⟩ ::
        cutsFrom (before ++ s.text) rest

/-- From where it stands, the scanner cuts the stretches ahead. -/
theorem rounds_cutsFrom {s : Scanner} {before text behind : List Char}
    (h : s.Reading before text behind) (hline : s.line = 1 + (before ++ text).count '\n') :
    ∃ u, Rounds s (cutsFrom (before ++ text) (stretches behind)) u ∧ u.ended = s.ended ∧
      u.line = 1 + newlinesIn s.source := by
  induction behind using stretches.induct generalizing s before text with
  | case1 =>
    have hend : s.isAtEnd := (isAtEnd_iff s).mpr h.ahead
    refine ⟨s, ?_, rfl, ?_⟩
    · rw [stretches, cutsFrom]
      exact .done hend
    · rw [hline, newlinesIn, h.source, List.append_nil]
  | @case2 c cs stretch ih =>
    have hmore : ¬s.isAtEnd := by
      rw [isAtEnd_iff, h.ahead]
      exact bytesOf_cons_ne_nil c cs
    have hwhole : (starting c cs).text ++ cs.drop (starting c cs).more.length = c :: cs :=
      List.prefix_iff_eq_append.mp (text_starting_isPrefix c cs)
    obtain ⟨t, ht⟩ : ∃ t, t = Scanner.past { s with start := s.place } (starting c cs).text :=
      ⟨_, rfl⟩
    have hread : t.Reading (before ++ text) (starting c cs).text
        (cs.drop (starting c cs).more.length) := by
      rw [ht]
      exact Reading.past _ (hwhole ▸ h.restart)
    have hline' : t.line = 1 + (before ++ text ++ (starting c cs).text).count '\n' := by
      rw [List.count_append, ← Nat.add_assoc, ← hline, ht]
      rfl
    obtain ⟨u, hrounds, hended, hlast⟩ := ih hread hline'
    refine ⟨u, ?_, ?_, ?_⟩
    · have hround := Rounds.round hmore (ht ▸ lexeme_apply h) hread.cut hrounds
      rw [hread.start, hread.place, hline'] at hround
      rwa [stretches, cutsFrom]
    · rw [hended, ht]
      rfl
    · rw [hlast, ht]
      rfl

theorem length_cutsFrom_le (before cs : List Char) :
    (cutsFrom before (stretches cs)).length ≤ (bytesOf cs).length := by
  induction cs using stretches.induct generalizing before with
  | case1 =>
    rw [stretches]
    exact Nat.zero_le _
  | case2 c cs stretch ih =>
    have hwhole : stretch.text ++ cs.drop stretch.more.length = c :: cs :=
      List.prefix_iff_eq_append.mp (text_starting_isPrefix c cs)
    have hlength : (bytesOf (c :: cs)).length =
        (bytesOf stretch.text).length + (bytesOf (cs.drop stretch.more.length)).length := by
      rw [← hwhole, bytesOf_append, List.length_append]
    have hbytes : 0 < (bytesOf stretch.text).length :=
      List.length_pos_iff.mpr (bytesOf_cons_ne_nil _ _)
    have hrest := ih (before ++ stretch.text)
    rw [stretches, cutsFrom, List.length_cons, hlength]
    simp only [stretch] at hbytes hrest ⊢
    omega

theorem filterMap_item?_cutsFrom (before : List Char) (ss : List Stretch) :
    (cutsFrom before ss).filterMap Cut.item? ++
        [.ok ⟨.eof, "", 1 + (before ++ ss.flatMap Stretch.text).count '\n'⟩] =
      itemsFrom (1 + before.count '\n') ss := by
  induction ss generalizing before with
  | nil => simp [itemsFrom, cutsFrom]
  | cons s ss ih =>
    have hline : 1 + before.count '\n' + s.newlines = 1 + (before ++ s.text).count '\n' := by
      rw [List.count_append, Stretch.newlines, Nat.add_assoc]
    have hrest := ih (before ++ s.text)
    rw [List.append_assoc, ← List.flatMap_cons] at hrest
    rw [itemsFrom, cutsFrom]
    simp only [hline, ← hrest]
    rw [List.filterMap_cons]
    cases hcontent : s.content <;> rfl

theorem exists_rounds (source : String) :
    ∃ last, Rounds (.begin source) (cutsFrom [] (stretches source.toList)) last ∧
      ∀ fuel, source.utf8ByteSize + 2 ≤ fuel → items fuel (.begin source) =
        .done ((cutsFrom [] (stretches source.toList)).filterMap Cut.item? ++
          [.ok ⟨.eof, "", 1 + newlinesIn source⟩]) last.finish := by
  obtain ⟨last, hrounds, hended, hline⟩ := rounds_cutsFrom (reading_begin source) rfl
  refine ⟨last, hrounds, fun fuel hfuel => ?_⟩
  have hcuts : (cutsFrom [] (stretches source.toList)).length ≤ source.utf8ByteSize := by
    rw [utf8ByteSize_eq]
    exact length_cutsFrom_le [] _
  have hitems := items_of_rounds hrounds hended (Nat.le_trans (Nat.add_le_add_right hcuts 2) hfuel)
  rwa [hline] at hitems

theorem scan_eq_cuts (source : String) :
    scan source = (cutsFrom [] (stretches source.toList)).filterMap Cut.item? ++
      [.ok ⟨.eof, "", 1 + newlinesIn source⟩] := by
  obtain ⟨last, -, hitems⟩ := exists_rounds source
  rw [scan, hitems _ (Nat.le_refl _)]

/-- The scanner gives out the items of the stretches. -/
theorem scan_eq (source : String) : scan source = itemsFrom 1 (stretches source.toList) := by
  have hitems := filterMap_item?_cutsFrom [] (stretches source.toList)
  rw [List.nil_append, flatMap_text_stretches] at hitems
  exact (scan_eq_cuts source).trans hitems

end LoxLang
