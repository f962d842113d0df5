import LoxLang.Grammar.Cursor

/-!
# What is ahead of a cursor

Ahead of a cursor are the tokens of its buffer from its place up to the first end token, and this
end token ends them. Each step of a cursor is a step over these tokens: it looks at the first one,
drops it, or drops all up to a likely statement boundary. What lies before the place or behind the
end token plays no part.
-/
namespace LoxLang
namespace Cursor

/-- The tokens that are still to be read. -/
def ahead (c : Cursor) : List Token :=
  (c.tokens.toList.drop c.place).takeWhile (·.kind ≠ .eof)

/-- The end token behind them. -/
def ending (c : Cursor) : Token :=
  ((c.tokens.toList.drop c.place).find? (·.kind = .eof)).getD ⟨.eof, "", 1⟩

theorem kind_ending (c : Cursor) : c.ending.kind = .eof := by
  unfold ending
  cases hfind : (c.tokens.toList.drop c.place).find? (·.kind = .eof) with
  | none => rfl
  | some token => simpa using List.find?_some hfind

theorem tokenAt_eq (c : Cursor) (k : Nat) :
    c.tokenAt (c.place + k) = (c.tokens.toList.drop c.place)[k]?.getD ⟨.eof, "", 1⟩ := by
  rw [tokenAt, List.getElem?_drop, Array.getElem?_toList]

theorem peek_eq (c : Cursor) : c.peek = c.ahead.head?.getD c.ending := by
  rw [peek, ← Nat.add_zero c.place, tokenAt_eq, ahead, ending]
  cases c.tokens.toList.drop c.place with
  | nil => rfl
  | cons token rest => by_cases hkind : token.kind = .eof <;> simp [hkind]

theorem isAtEnd_iff (c : Cursor) : c.isAtEnd ↔ c.ahead = [] := by
  rw [isAtEnd, decide_eq_true_eq, peek, ← Nat.add_zero c.place, tokenAt_eq, ahead]
  cases c.tokens.toList.drop c.place with
  | nil => simp
  | cons token rest => by_cases hkind : token.kind = .eof <;> simp [hkind]

theorem isAtEnd_eq (c : Cursor) : c.isAtEnd = c.ahead.isEmpty := by
  rw [Bool.eq_iff_iff, isAtEnd_iff, List.isEmpty_iff]

theorem kind_ne_eof_of_mem_takeWhile {tokens : List Token} {token : Token}
    (h : token ∈ tokens.takeWhile (·.kind ≠ .eof)) : token.kind ≠ .eof := by
  simpa using List.all_eq_true.mp List.all_takeWhile token h

theorem kind_ne_eof_of_mem_ahead {c : Cursor} {token : Token} (h : token ∈ c.ahead) :
    token.kind ≠ .eof :=
  kind_ne_eof_of_mem_takeWhile h

theorem kind_peek_ne_eof {c : Cursor} (h : c.ahead ≠ []) : c.peek.kind ≠ .eof := by
  simpa [isAtEnd] using mt (isAtEnd_iff c).mp h

theorem drop_advance {c : Cursor} (h : ¬c.isAtEnd) :
    c.advance.tokens.toList.drop c.advance.place = (c.tokens.toList.drop c.place).drop 1 := by
  rw [advance, if_neg h, List.drop_drop]

@[simp] theorem ahead_advance (c : Cursor) : c.advance.ahead = c.ahead.drop 1 := by
  by_cases h : c.isAtEnd
  · rw [advance, if_pos h, (isAtEnd_iff c).mp h, List.drop_nil]
  · have hahead := mt (isAtEnd_iff c).mpr h
    rw [ahead, drop_advance h]
    rw [ahead] at hahead ⊢
    cases hdrop : c.tokens.toList.drop c.place with
    | nil => rfl
    | cons token rest =>
      rw [hdrop] at hahead
      by_cases hkind : token.kind = .eof
      · simp [hkind] at hahead
      · simp [hkind]

@[simp] theorem ending_advance (c : Cursor) : c.advance.ending = c.ending := by
  by_cases h : c.isAtEnd
  · rw [advance, if_pos h]
  · have hahead := mt (isAtEnd_iff c).mpr h
    rw [ending, drop_advance h, ending]
    rw [ahead] at hahead
    cases hdrop : c.tokens.toList.drop c.place with
    | nil => rfl
    | cons token rest =>
      rw [hdrop] at hahead
      by_cases hkind : token.kind = .eof
      · simp [hkind] at hahead
      · simp [hkind]

@[simp] theorem nextId_advance (c : Cursor) : c.advance.nextId = c.nextId := by
  unfold advance
  split <;> rfl

@[simp] theorem faults_advance (c : Cursor) : c.advance.faults = c.faults := by
  unfold advance
  split <;> rfl

/-- Behind a token that was passed, it is the previous one. -/
theorem previous_advance {c : Cursor} (h : ¬c.isAtEnd) : c.advance.previous = c.peek := by
  rw [previous, advance, if_neg h]
  rfl

/-! ## Skipping -/

/-- What is left after skipping at least one token up to a likely statement boundary: behind a
semicolon, or before a keyword that starts a statement. -/
def resume : List Token → List Token
  | [] => []
  | skipped :: rest =>
    if skipped.kind = .semicolon then rest
    else if rest.head?.any (startsStatement ·.kind) then rest
    else resume rest

/-- Settling goes on skipping behind the previous token. -/
theorem ahead_settle (c : Cursor) : c.settle.ahead = resume (c.previous :: c.ahead) := by
  induction c using settle.induct with
  | case1 c hend =>
    rw [settle, if_pos hend, (isAtEnd_iff c).mp hend]
    simp [resume]
  | case2 c hend hsemicolon =>
    rw [settle, if_neg hend, if_pos hsemicolon, resume, if_pos hsemicolon]
  | case3 c hend hsemicolon hstart =>
    obtain ⟨token, rest, hahead⟩ := List.exists_cons_of_ne_nil (mt (isAtEnd_iff c).mpr hend)
    rw [peek_eq, hahead] at hstart
    rw [settle, if_neg hend, if_neg hsemicolon, if_pos (by rwa [peek_eq, hahead]), hahead]
    simp_all [resume]
  | case4 c hend hsemicolon hstart ih =>
    obtain ⟨token, rest, hahead⟩ := List.exists_cons_of_ne_nil (mt (isAtEnd_iff c).mpr hend)
    rw [settle, if_neg hend, if_neg hsemicolon, if_neg hstart, ih, previous_advance hend,
      ahead_advance, hahead, List.drop_one, List.tail_cons]
    rw [peek_eq, hahead] at hstart ⊢
    rw [resume.eq_2 _ (token :: rest), if_neg hsemicolon, if_neg (by simpa using hstart)]
    rfl

@[simp] theorem ahead_synchronize (c : Cursor) : c.synchronize.ahead = resume c.ahead := by
  rw [synchronize, ahead_settle, ahead_advance]
  by_cases h : c.isAtEnd
  · rw [(isAtEnd_iff c).mp h]
    simp [resume]
  · obtain ⟨token, rest, hahead⟩ := List.exists_cons_of_ne_nil (mt (isAtEnd_iff c).mpr h)
    rw [previous_advance h, peek_eq, hahead]
    rfl

/-- Skipping keeps what passing a token keeps. -/
theorem synchronize_keeps {P : Cursor → Prop} (hadvance : ∀ c, P c → P c.advance) {c : Cursor}
    (h : P c) : P c.synchronize := by
  have hsettle (c : Cursor) : P c → P c.settle := by
    induction c using settle.induct with
    | case1 c hend => rw [settle, if_pos hend]; exact id
    | case2 c hend hsemicolon => rw [settle, if_neg hend, if_pos hsemicolon]; exact id
    | case3 c hend hsemicolon hstart =>
      rw [settle, if_neg hend, if_neg hsemicolon, if_pos hstart]
      exact id
    | case4 c hend hsemicolon hstart ih =>
      rw [settle, if_neg hend, if_neg hsemicolon, if_neg hstart]
      exact fun h => ih (hadvance c h)
  exact hsettle _ (hadvance c h)

@[simp] theorem ending_synchronize (c : Cursor) : c.synchronize.ending = c.ending :=
  synchronize_keeps (P := (·.ending = c.ending)) (fun d h => (ending_advance d).trans h) rfl

@[simp] theorem nextId_synchronize (c : Cursor) : c.synchronize.nextId = c.nextId :=
  synchronize_keeps (P := (·.nextId = c.nextId)) (fun d h => (nextId_advance d).trans h) rfl

@[simp] theorem faults_synchronize (c : Cursor) : c.synchronize.faults = c.faults :=
  synchronize_keeps (P := (·.faults = c.faults)) (fun d h => (faults_advance d).trans h) rfl

@[simp] theorem ahead_report (fault : GrammarFault) (c : Cursor) :
    (c.report fault).ahead = c.ahead := rfl

@[simp] theorem ending_report (fault : GrammarFault) (c : Cursor) :
    (c.report fault).ending = c.ending := rfl

@[simp] theorem nextId_report (fault : GrammarFault) (c : Cursor) :
    (c.report fault).nextId = c.nextId := rfl

@[simp] theorem faults_report (fault : GrammarFault) (c : Cursor) :
    (c.report fault).faults = c.faults.push fault := rfl

/-! ## The first cursor -/

/-- The end token of a list: the first one in it, or one on the line of the last token. -/
def endingOf (tokens : List Token) : Token :=
  (tokens.find? (·.kind = .eof)).getD ⟨.eof, "", (tokens.getLast?.map Token.line).getD 1⟩

theorem find?_buffer (tokens : List Token) :
    (buffer tokens).find? (·.kind = .eof) = some (endingOf tokens) := by
  unfold buffer endingOf
  split
  · next hlast =>
    obtain ⟨last, hmem, hkind⟩ := (Option.any_eq_true ..).mp hlast
    cases hfind : tokens.find? (·.kind = .eof) with
    | some token => rfl
    | none =>
      have hnone := List.find?_eq_none.mp hfind last (List.mem_of_getLast? hmem)
      exact absurd hkind hnone
  · rw [List.find?_append]
    cases tokens.find? (·.kind = .eof) with
    | some token => rfl
    | none => simp

theorem takeWhile_buffer (tokens : List Token) :
    (buffer tokens).takeWhile (·.kind ≠ .eof) = tokens.takeWhile (·.kind ≠ .eof) := by
  unfold buffer
  split
  · rfl
  · rw [List.takeWhile_append]
    split
    · next hall =>
      have hprefix := List.takeWhile_prefix (l := tokens) fun token => decide (token.kind ≠ .eof)
      rw [List.takeWhile_cons_of_neg (by simp), List.append_nil, hprefix.eq_of_length hall]
    · rfl

@[simp] theorem ahead_start (tokens : List Token) (firstId : Nat) :
    (start tokens firstId).ahead = tokens.takeWhile (·.kind ≠ .eof) := takeWhile_buffer tokens

@[simp] theorem ending_start (tokens : List Token) (firstId : Nat) :
    (start tokens firstId).ending = endingOf tokens := by
  change ((buffer tokens).find? (·.kind = .eof)).getD _ = _
  rw [find?_buffer, Option.getD_some]

end Cursor

namespace Reading

theorem takeIf_of_head {p : Kind → Bool} {c : Cursor} {token : Token} {rest : List Token}
    (hahead : c.ahead = token :: rest) (hp : p token.kind = true) :
    takeIf p c = .done (some token) c.advance := by
  have hmore : ¬c.isAtEnd := by simp [Cursor.isAtEnd_iff, hahead]
  have hpeek : c.peek = token := by rw [Cursor.peek_eq, hahead]; rfl
  have hprevious : c.advance.previous = token := (Cursor.previous_advance hmore).trans hpeek
  simp [takeIf, Action.update, Cursor.check, hmore, hpeek, hprevious, hp]

theorem takeIf_of_forall {p : Kind → Bool} {c : Cursor}
    (hp : ∀ token ∈ c.ahead.head?, p token.kind = false) : takeIf p c = .done none c := by
  have hcheck : c.check p = false := by
    rw [Cursor.check, Cursor.isAtEnd_eq, Cursor.peek_eq]
    cases hahead : c.ahead with
    | nil => rfl
    | cons token rest => exact hp token (by simp [hahead])
  simp [takeIf, Action.update, hcheck]

theorem takeIf_cases (p : Kind → Bool) (c : Cursor) :
    (∃ token rest, c.ahead = token :: rest ∧ p token.kind = true ∧
      takeIf p c = .done (some token) c.advance) ∨
    (∀ token ∈ c.ahead.head?, p token.kind = false) ∧ takeIf p c = .done none c := by
  cases hahead : c.ahead with
  | nil => exact .inr ⟨by simp, takeIf_of_forall (by simp [hahead])⟩
  | cons token rest =>
    cases hp : p token.kind with
    | true => exact .inl ⟨token, rest, rfl, hp, takeIf_of_head hahead hp⟩
    | false => exact .inr ⟨by simpa using hp, takeIf_of_forall (by simpa [hahead] using hp)⟩

end Reading
end LoxLang
