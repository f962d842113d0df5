import LoxLang.Proofs.Reading.Joining
import LoxLang.Proofs.Reading.Locality

/-!
# Reading stays in its buffer

A cursor always stands at a place of its buffer, no later than the first end token. Every step keeps
it there and never moves it back; what was read takes up a place at least, and so does what was
skipped after a failure. So a program is read to the first end token and no further, however the
rest of the buffer looks.
-/
namespace LoxLang

namespace Cursor

/-- The place of the first end token. -/
def firstEnd (tokens : List Token) : Nat := (buffer tokens).findIdx (·.kind = .eof)

/-- The cursor stands at this place of the buffer. -/
structure StandsAt (tokens : List Token) (place : Nat) (c : Cursor) : Prop where
  tokens_eq : c.tokens = (buffer tokens).toArray
  place_eq : c.place = place
  place_le : place ≤ firstEnd tokens

section Buffer

variable (tokens : List Token)

theorem exists_end_mem_buffer : ∃ token ∈ buffer tokens, token.kind = .eof := by
  have hfind := find?_buffer tokens
  exact ⟨endingOf tokens, List.mem_of_find?_eq_some hfind, by simpa using List.find?_some hfind⟩

theorem firstEnd_lt : firstEnd tokens < (buffer tokens).length := by
  apply List.findIdx_lt_length_of_exists
  simpa using exists_end_mem_buffer tokens

theorem getElem?_firstEnd : (buffer tokens)[firstEnd tokens]? = some (endingOf tokens) := by
  rw [firstEnd, ← List.find?_eq_getElem?_findIdx, find?_buffer]

theorem take_firstEnd :
    (buffer tokens).take (firstEnd tokens) = tokens.takeWhile (·.kind ≠ .eof) := by
  rw [← takeWhile_buffer, List.takeWhile_eq_take_findIdx_not, firstEnd]
  simp

theorem firstEnd_le_length : firstEnd tokens ≤ tokens.length := by
  have hlength := List.length_take_of_le (Nat.le_of_lt (firstEnd_lt tokens))
  rw [take_firstEnd] at hlength
  exact hlength ▸ (List.takeWhile_prefix _).length_le

theorem standsAt_start (firstId : Nat) : (start tokens firstId).StandsAt tokens 0 :=
  ⟨rfl, rfl, Nat.zero_le _⟩

end Buffer

theorem takeWhile_drop {p : Token → Bool} {tokens : List Token} {place : Nat}
    (h : place ≤ (tokens.takeWhile p).length) :
    (tokens.drop place).takeWhile p = (tokens.takeWhile p).drop place := by
  induction place generalizing tokens with
  | zero => rfl
  | succ place ih =>
    cases tokens with
    | nil => rfl
    | cons token tokens =>
      cases hp : p token with
      | true =>
        rw [List.takeWhile_cons_of_pos hp, List.length_cons] at h
        rw [List.takeWhile_cons_of_pos hp]
        exact ih (by omega)
      | false => simp [hp] at h

namespace StandsAt

variable {tokens : List Token} {place place' : Nat} {c c' : Cursor}

theorem ahead_eq (h : c.StandsAt tokens place) :
    c.ahead = (tokens.takeWhile (·.kind ≠ .eof)).drop place := by
  have hlength := List.length_take_of_le (Nat.le_of_lt (firstEnd_lt tokens))
  rw [take_firstEnd, ← takeWhile_buffer] at hlength
  rw [ahead, h.tokens_eq, h.place_eq, takeWhile_drop (hlength ▸ h.place_le), takeWhile_buffer]

theorem place_add_length (h : c.StandsAt tokens place) :
    place + c.ahead.length = firstEnd tokens := by
  have hle := h.place_le
  rw [h.ahead_eq, ← take_firstEnd, List.length_drop,
    List.length_take_of_le (Nat.le_of_lt (firstEnd_lt tokens))]
  omega

theorem ahead_ne_nil (h : c.StandsAt tokens place) (hlt : place < firstEnd tokens) :
    c.ahead ≠ [] := by
  intro hnil
  have hlength := h.place_add_length
  rw [hnil, List.length_nil] at hlength
  omega

theorem getElem?_eq (h : c.StandsAt tokens place) {index : Nat} (hle : index ≤ place) :
    (buffer tokens)[index]? = some (c.tokenAt index) := by
  have hlt := firstEnd_lt tokens
  have hplace := h.place_le
  rw [tokenAt, h.tokens_eq, List.getElem?_toArray, List.getElem?_eq_getElem (by omega),
    Option.getD_some]

theorem advance (h : c.StandsAt tokens place) :
    ∃ place', place ≤ place' ∧ c.advance.StandsAt tokens place' := by
  by_cases hend : c.isAtEnd
  · exact ⟨place, Nat.le_refl _, by rwa [Cursor.advance, if_pos hend]⟩
  · have hlength := h.place_add_length
    have hpos := List.length_pos_iff.mpr (mt (isAtEnd_iff c).mpr hend)
    rw [Cursor.advance, if_neg hend]
    exact ⟨place + 1, Nat.le_succ _, h.tokens_eq, congrArg (· + 1) h.place_eq, by omega⟩

theorem synchronize (h : c.StandsAt tokens place) :
    ∃ place', place ≤ place' ∧ c.synchronize.StandsAt tokens place' := by
  apply synchronize_keeps (P := fun c' => ∃ place', place ≤ place' ∧ c'.StandsAt tokens place')
  · rintro c₁ ⟨place₁, hle₁, h₁⟩
    obtain ⟨place₂, hle₂, h₂⟩ := h₁.advance
    exact ⟨place₂, Nat.le_trans hle₁ hle₂, h₂⟩
  · exact ⟨place, Nat.le_refl _, h⟩

end StandsAt
end Cursor

namespace Reading

variable {α : Type} {tokens : List Token} {place : Nat} {c : Cursor}

/-- From a place of the buffer, the reading comes to a place that is no earlier, done or failed. -/
def StaysWithin (tokens : List Token) (x : Reading α) (c : Cursor) : Prop :=
  ∀ place, c.StandsAt tokens place →
    x.Ensures c (fun _ c' => ∃ place', place ≤ place' ∧ c'.StandsAt tokens place')
      fun _ c' => ∃ place', place ≤ place' ∧ c'.StandsAt tokens place'

/-- From a place of the buffer, what is read takes up that place at least. -/
def Consumes (tokens : List Token) (x : Reading α) (c : Cursor) : Prop :=
  ∀ place, c.StandsAt tokens place → ∀ a c', x c = .done a c' →
    ∃ place', place < place' ∧ c'.StandsAt tokens place'

/-- The rules that stand for a part of a program; the others are for lists and for what is
optional. -/
structure EveryProduction (P : ∀ {α : Type}, (Nat → Reading α) → Prop) : Prop where
  expression : P Reading.expression
  operation : ∀ level, P (operation · level)
  primary : P primary
  arguments : ∀ count, P (arguments · count)
  varDeclaration : P varDeclaration
  expressionStatement : P expressionStatement
  printStatement : P printStatement
  returnStatement : ∀ keyword, P (returnStatement · keyword)
  condition : ∀ opening closing, P (condition · opening closing)
  forClauses : P forClauses
  declared : P declared
  routine : ∀ kind, P (routine · kind)
  block : P block
  statement : P statement

section Within

theorem StaysWithin.view {β : Type} (g : Cursor → β) (c : Cursor) :
    StaysWithin tokens (Action.view g : Reading β) c :=
  fun place hc => ⟨place, Nat.le_refl _, hc⟩

theorem StaysWithin.bind {β : Type} {x : Reading α} {f : α → Reading β}
    (hx : StaysWithin tokens x c)
    (hf : ∀ a c₁, x c = .done a c₁ → StaysWithin tokens (f a) c₁) :
    StaysWithin tokens (x >>= f) c := by
  intro place hc
  have hfirst := hx place hc
  rw [Action.ensures_bind]
  unfold Action.Ensures at hfirst ⊢
  cases hresult : x c with
  | done a c₁ =>
    rw [hresult] at hfirst
    obtain ⟨place₁, hle, hc₁⟩ := hfirst
    apply (hf a c₁ hresult place₁ hc₁).mono
    · rintro _ c₂ ⟨place₂, hle₂, hc₂⟩
      exact ⟨place₂, Nat.le_trans hle hle₂, hc₂⟩
    · rintro _ c₂ ⟨place₂, hle₂, hc₂⟩
      exact ⟨place₂, Nat.le_trans hle hle₂, hc₂⟩
  | failed fault c₁ =>
    rw [hresult] at hfirst
    exact hfirst
  | exhausted => trivial

theorem StaysWithin.attempt {x : Reading α} (hx : StaysWithin tokens x c) :
    StaysWithin tokens x.attempt c := by
  intro place hc
  rw [Action.ensures_attempt]
  exact hx place hc

theorem StaysWithin.takeIf (p : Kind → Bool) (c : Cursor) :
    StaysWithin tokens (takeIf p) c := by
  intro place hc
  unfold Action.Ensures
  rcases takeIf_cases p c with ⟨_, _, -, -, htake⟩ | ⟨-, htake⟩
  · rw [htake]
    exact hc.advance
  · rw [htake]
    exact ⟨place, Nat.le_refl _, hc⟩

theorem law_staysWithin (tokens : List Token) : Law fun x _ c => StaysWithin tokens x c where
  pure _ _ place hc := ⟨place, Nat.le_refl _, hc⟩
  exhausted _ _ _ _ := trivial
  bind := StaysWithin.bind
  attempt := StaysWithin.attempt
  fail _ _ _ place hc := ⟨place, Nat.le_refl _, hc⟩
  peek := StaysWithin.view _
  isAtEnd := StaysWithin.view _
  nextKind := StaysWithin.view _
  advance _ _ hc := hc.advance
  takeIf := StaysWithin.takeIf
  note _ _ place hc := ⟨place, Nat.le_refl _, hc.tokens_eq, hc.place_eq, hc.place_le⟩
  node _ _ place hc := ⟨place, Nat.le_refl _, hc.tokens_eq, hc.place_eq, hc.place_le⟩
  resume _ _ hc := hc.synchronize

theorem Consumes.of_ends {short : Prop} {x : Reading α} (hx : StaysWithin tokens x c)
    (hends : Ends short 1 x c) : Consumes tokens x c := by
  intro place hc a c' hdone
  obtain ⟨place', -, hc'⟩ := (hx place hc).of_done hdone
  unfold Ends at hends
  rw [hdone] at hends
  have hlt := hends.length_le
  have hlength := hc.place_add_length
  have hlength' := hc'.place_add_length
  exact ⟨place', by omega, hc'⟩

theorem everyProduction_consumes (tokens : List Token) (fuel : Nat) :
    EveryProduction fun rule => ∀ c, Consumes tokens (rule fuel) c := by
  have stays := (law_staysWithin tokens).everyRule (Nat.le_refl fuel)
  have expressions := expressionsEnd fuel
  have statements := statementsEnd fuel
  constructor
  · exact fun c => .of_ends (stays.expression c) (expressions.expression c)
  · exact fun level c => .of_ends (stays.operation level c) (expressions.operation c level)
  · exact fun c => .of_ends (stays.primary c) (expressions.primary c)
  · exact fun count c => .of_ends (stays.arguments count c) (expressions.arguments c count)
  · exact fun c => .of_ends (stays.varDeclaration c) (ends_varDeclaration fuel (.refl c))
  · exact fun c => .of_ends (stays.expressionStatement c) (ends_expressionStatement fuel (.refl c))
  · exact fun c => .of_ends (stays.printStatement c) (ends_printStatement fuel (.refl c))
  · exact fun keyword c =>
      .of_ends (stays.returnStatement keyword c) (ends_returnStatement fuel (.refl c) keyword)
  · exact fun opening closing c =>
      .of_ends (stays.condition opening closing c) (ends_condition fuel (.refl c) opening closing)
  · exact fun c => .of_ends (stays.forClauses c) (ends_forClauses fuel (.refl c))
  · exact fun c => .of_ends (stays.declared c) (statements.declared c)
  · exact fun kind c => .of_ends (stays.routine kind c) (statements.routine c kind)
  · exact fun c => .of_ends (stays.block c) (statements.block c)
  · exact fun c => .of_ends (stays.statement c) (statements.statement c)

end Within

section Termination

variable {fuel fuel' : Nat}

/-- What is read with some fuel is read with more. -/
theorem law_steady : Law fun x y c => x c ≠ .exhausted → y c = x c where
  pure _ _ _ := rfl
  exhausted _ _ h := absurd rfl h
  bind := by
    intro α β x y f g c hx hf hdone
    rw [Action.bind_apply] at hdone ⊢
    rw [Action.bind_apply]
    cases hresult : x c with
    | done a c' =>
      rw [hresult] at hdone
      rw [hx (by simp [hresult]), hresult]
      exact hf a c' hresult hdone
    | failed fault c' => rw [hx (by simp [hresult]), hresult]
    | exhausted =>
      rw [hresult] at hdone
      exact absurd rfl hdone
  attempt := by
    intro α x y c hx hdone
    have hne : x c ≠ .exhausted := by
      intro hresult
      simp [Action.attempt, hresult] at hdone
    simp only [Action.attempt, hx hne]
  fail _ _ _ _ := rfl
  peek _ _ := rfl
  isAtEnd _ _ := rfl
  nextKind _ _ := rfl
  advance _ _ := rfl
  takeIf _ _ _ := rfl
  note _ _ _ := rfl
  node _ _ _ := rfl
  resume _ _ := rfl

theorem declaration_of_done {stmt : Stmt} {c₁ : Cursor} (h : declared fuel c = .done stmt c₁) :
    declaration (fuel + 1) c = .done (some stmt) c₁ := by
  rw [declaration, Action.bind_apply, Action.attempt, h]
  rfl

/-- A failure of a declaration is reported, and reading goes on behind what is skipped. -/
theorem declaration_of_failed {fault : GrammarFault} {c₁ : Cursor}
    (h : declared fuel c = .failed fault c₁) :
    declaration (fuel + 1) c = .done none (c₁.report fault).synchronize := by
  rw [declaration, Action.bind_apply, Action.attempt, h]
  rfl

theorem declaration_ne_failed (fuel : Nat) (c : Cursor) (fault : GrammarFault) (c' : Cursor) :
    declaration fuel c ≠ .failed fault c' := by
  intro hfailed
  cases fuel with
  | zero => cases hfailed
  | succ fuel =>
    rw [declaration, Action.bind_apply, Action.attempt] at hfailed
    cases hresult : declared fuel c <;> rw [hresult] at hfailed <;> cases hfailed

theorem declarations_ne_failed (fuel : Nat) (stop : Kind) (c : Cursor) (fault : GrammarFault)
    (c' : Cursor) : declarations fuel stop c ≠ .failed fault c' := by
  induction fuel generalizing c with
  | zero => exact fun hfailed => nomatch hfailed
  | succ fuel ih =>
    intro hfailed
    rw [declarations] at hfailed
    change (if _ then _ else _ : Reading (List Stmt)) c = _ at hfailed
    split at hfailed
    · cases hfailed
    · rcases Action.bind_eq_failed_iff.mp hfailed with hfirst | ⟨stmt, c₁, -, hrest⟩
      · exact declaration_ne_failed fuel c fault c' hfirst
      · rcases Action.bind_eq_failed_iff.mp hrest with hlater | ⟨stmts, c₂, -, hpure⟩
        · exact ih c₁ hlater
        · cases hpure

theorem declarations_eof_ahead {stmts : List Stmt} {c₁ : Cursor}
    (hdone : declarations fuel .eof c = .done stmts c₁) : c₁.ahead = [] := by
  induction fuel generalizing c stmts with
  | zero => cases hdone
  | succ fuel ih =>
    rcases declarations_cases hdone with ⟨hahead, -, rfl⟩ | ⟨stmt, c₂, stmts', -, -, hrest, -⟩
    · exact hahead
    · exact ih hrest

/-- A declaration is read or reported, and it takes up a token. -/
theorem exists_declaration (hahead : c.ahead ≠ []) :
    ∃ found c', c.Passes 1 c' ∧
      ∀ fuel, 32 * c.ahead.length + 12 ≤ fuel → declaration fuel c = .done found c' := by
  have hends := (statementsEnd (32 * c.ahead.length + 12)).declaration c hahead
  unfold Ends at hends
  cases hresult : declaration (32 * c.ahead.length + 12) c with
  | done found c' =>
    rw [hresult] at hends
    refine ⟨found, c', hends, fun fuel hle => ?_⟩
    exact ((law_steady.everyRule hle).declaration c (by simp [hresult])).trans hresult
  | failed fault c' => exact absurd hresult (declaration_ne_failed _ c fault c')
  | exhausted =>
    rw [hresult] at hends
    exact absurd hends (Nat.lt_irrefl _)

theorem exists_declarations (c : Cursor) :
    ∃ stmts c', c'.ahead = [] ∧
      ∀ fuel, 32 * c.ahead.length + 13 ≤ fuel → declarations fuel .eof c = .done stmts c' := by
  have hends := (statementsEnd (32 * c.ahead.length + 13)).declarations c .eof
  unfold Ends at hends
  cases hresult : declarations (32 * c.ahead.length + 13) .eof c with
  | done stmts c' =>
    refine ⟨stmts, c', declarations_eof_ahead hresult, fun fuel hle => ?_⟩
    exact ((law_steady.everyRule hle).declarations .eof c (by simp [hresult])).trans hresult
  | failed fault c' => exact absurd hresult (declarations_ne_failed _ .eof c fault c')
  | exhausted =>
    rw [hresult] at hends
    exact absurd hends (Nat.lt_irrefl _)

end Termination

end Reading

namespace Program

variable {tokens : List Token} {firstId : Nat}

/-- Reading a program ends with the end token ahead, and more fuel changes nothing. -/
theorem exists_read (tokens : List Token) (firstId : Nat) :
    ∃ c, c.ahead = [] ∧ c.faults.toList = (ofTokens tokens firstId).faults ∧
      c.nextId = (ofTokens tokens firstId).nextId ∧
      ∀ fuel, 32 * (Cursor.start tokens firstId).ahead.length + 13 ≤ fuel →
        Reading.declarations fuel .eof (Cursor.start tokens firstId) =
          .done (ofTokens tokens firstId).statements c := by
  obtain ⟨stmts, c, hahead, hread⟩ :=
    Reading.exists_declarations (Cursor.start tokens firstId)
  have hlength : (tokens.takeWhile (·.kind ≠ .eof)).length ≤ tokens.length :=
    (List.takeWhile_prefix _).length_le
  have hfuel : 32 * (Cursor.start tokens firstId).ahead.length + 13 ≤ fuelFor tokens.length := by
    rw [Cursor.ahead_start, fuelFor]
    omega
  have hprogram : ofTokens tokens firstId = ⟨stmts, c.faults.toList, c.nextId⟩ := by
    rw [ofTokens, hread _ hfuel]
  exact ⟨c, hahead, by rw [hprogram], by rw [hprogram], by rwa [hprogram]⟩

theorem ofTokens_eq_of_done {fuel : Nat} {stmts : List Stmt} {c : Cursor}
    (hfuel : 32 * (Cursor.start tokens firstId).ahead.length + 13 ≤ fuel)
    (hdone : Reading.declarations fuel .eof (Cursor.start tokens firstId) = .done stmts c) :
    ofTokens tokens firstId = ⟨stmts, c.faults.toList, c.nextId⟩ := by
  obtain ⟨c', -, hfaults, hnext, hread⟩ := exists_read tokens firstId
  have heq := (hread fuel hfuel).symm.trans hdone
  cases heq
  rw [hfaults, hnext]

theorem declarations_of_amid {earlier : Array GrammarFault} {c : Cursor} (fuel : Nat)
    (hc : (Cursor.start tokens firstId).Amid earlier [] True c)
    (hfuel : 32 * c.ahead.length + 13 ≤ fuel) :
    ∃ c', Reading.declarations fuel .eof c = .done (ofTokens tokens firstId).statements c' ∧
      c'.faults.toList = earlier.toList ++ (ofTokens tokens firstId).faults ∧
      c'.nextId = (ofTokens tokens firstId).nextId := by
  obtain ⟨c₀, -, hfaults, hnext, hread⟩ := exists_read tokens firstId
  rw [hc.ahead, List.append_nil] at hfuel
  have hpersists := ((Reading.everyRule_persists (Nat.le_refl fuel) earlier [] True).declarations
    .eof (Cursor.start tokens firstId)).2
  obtain ⟨c', hdone, hc'⟩ := hpersists.of_done (hread fuel hfuel) (fun _ => trivial) c hc
  exact ⟨c', hdone, by rw [hc'.faults, Array.toList_append, hfaults], by rw [hc'.nextId, hnext]⟩

/-- Only what is ahead of the first cursor matters, and the end token behind it. -/
theorem ofTokens_congr {tokens' : List Token}
    (hahead : tokens'.takeWhile (·.kind ≠ .eof) = tokens.takeWhile (·.kind ≠ .eof))
    (hending : Cursor.endingOf tokens' = Cursor.endingOf tokens) :
    ofTokens tokens' firstId = ofTokens tokens firstId := by
  have hsame : (Cursor.start tokens firstId).Amid #[] [] True (Cursor.start tokens' firstId) := by
    refine ⟨?_, fun _ => ⟨rfl, ?_⟩, rfl, rfl⟩
    · rw [Cursor.ahead_start, Cursor.ahead_start, hahead, List.append_nil]
    · rw [Cursor.ending_start, Cursor.ending_start, hending]
  obtain ⟨c, hread, hfaults, hnext⟩ := declarations_of_amid _ hsame (Nat.le_refl _)
  rw [ofTokens_eq_of_done (Nat.le_refl _) hread, hfaults, hnext]
  rfl

open Cursor Reading in
/-- How a program is read within the buffer of its tokens. -/
structure ReadWithin (tokens : List Token) (firstId : Nat) : Prop where
  /-- Reading ends with the first end token ahead; more fuel would not change it. -/
  terminates : ∃ c : Cursor, c.StandsAt tokens (firstEnd tokens) ∧
    ofTokens tokens firstId = ⟨(ofTokens tokens firstId).statements, c.faults.toList, c.nextId⟩ ∧
    ∀ fuel, fuelFor tokens.length ≤ fuel →
      declarations fuel .eof (start tokens firstId) =
        .done (ofTokens tokens firstId).statements c
  starts : (start tokens firstId).StandsAt tokens 0
  /-- Where the cursor stands there is a token, and it is the one to look at. The previous one is in
  the buffer too. -/
  inBounds : ∀ place (c : Cursor), c.StandsAt tokens place →
    place < (buffer tokens).length ∧ (buffer tokens)[place]? = some c.peek ∧
      (buffer tokens)[place - 1]? = some c.previous
  /-- No step moves the cursor back or behind the first end token. -/
  steps : Law fun x _ c => StaysWithin tokens x c
  rules : ∀ fuel, EveryRule fun rule => ∀ c, StaysWithin tokens (rule fuel) c
  /-- What was read has tokens. -/
  productions : ∀ fuel, EveryProduction fun rule => ∀ c, Consumes tokens (rule fuel) c
  /-- A declaration before the end comes to an end further on, read or reported. -/
  declarations : ∀ place (c : Cursor), c.StandsAt tokens place → place < firstEnd tokens →
    ∃ found c' place', place < place' ∧ c'.StandsAt tokens place' ∧
      ∀ fuel, fuelFor tokens.length ≤ fuel → declaration fuel c = .done found c'
  /-- Tokens behind the first end token make no difference. -/
  upToEnd : ∀ tokens' : List Token,
    (buffer tokens').take (firstEnd tokens' + 1) = (buffer tokens).take (firstEnd tokens + 1) →
      ofTokens tokens' firstId = ofTokens tokens firstId

open Cursor

/-- Buffers that agree up to the first end token are read alike. -/
theorem ofTokens_eq_of_take_eq {tokens' : List Token}
    (h : (buffer tokens').take (firstEnd tokens' + 1) =
      (buffer tokens).take (firstEnd tokens + 1)) :
    ofTokens tokens' firstId = ofTokens tokens firstId := by
  have hsplit (tokens : List Token) : (buffer tokens).take (firstEnd tokens + 1) =
      tokens.takeWhile (·.kind ≠ .eof) ++ [endingOf tokens] := by
    rw [List.take_add_one, take_firstEnd, getElem?_firstEnd]
    rfl
  rw [hsplit, hsplit] at h
  obtain ⟨htokens, hending⟩ := List.append_inj' h rfl
  exact ofTokens_congr htokens (List.singleton_inj.mp hending)

/-- Every list of tokens is read within its buffer. -/
theorem readWithin (tokens : List Token) (firstId : Nat) : ReadWithin tokens firstId where
  terminates := by
    obtain ⟨c, hahead, hfaults, hnext, hread⟩ := exists_read tokens firstId
    have hstart := standsAt_start tokens firstId
    have hlength := hstart.place_add_length
    have hle := firstEnd_le_length tokens
    have hread' (fuel : Nat) (hfuel : fuelFor tokens.length ≤ fuel) :=
      hread fuel (by unfold fuelFor at hfuel; omega)
    obtain ⟨place, -, hc⟩ := ((Reading.law_staysWithin tokens).everyRule
      (Nat.le_refl _)).declarations .eof _ 0 hstart |>.of_done (hread' _ (Nat.le_refl _))
    have hplace := hc.place_add_length
    rw [hahead, List.length_nil, Nat.add_zero] at hplace
    exact ⟨c, hplace ▸ hc, by rw [hfaults, hnext], hread'⟩
  starts := standsAt_start tokens firstId
  inBounds := by
    intro place c hc
    refine ⟨Nat.lt_of_le_of_lt hc.place_le (firstEnd_lt tokens), ?_, ?_⟩
    · rw [hc.getElem?_eq (Nat.le_refl place), peek, hc.place_eq]
    · rw [hc.getElem?_eq (Nat.sub_le place 1), previous, hc.place_eq]
  steps := Reading.law_staysWithin tokens
  rules _ := (Reading.law_staysWithin tokens).everyRule (Nat.le_refl _)
  productions := Reading.everyProduction_consumes tokens
  declarations := by
    intro place c hc hlt
    obtain ⟨found, c', hpass, hread⟩ := Reading.exists_declaration (hc.ahead_ne_nil hlt)
    have hlength := hc.place_add_length
    have hle := firstEnd_le_length tokens
    have hread' (fuel : Nat) (hfuel : fuelFor tokens.length ≤ fuel) :=
      hread fuel (by unfold fuelFor at hfuel; omega)
    obtain ⟨place', -, hc'⟩ := ((Reading.law_staysWithin tokens).everyRule
      (Nat.le_refl _)).declaration c place hc |>.of_done (hread' _ (Nat.le_refl _))
    have hlength' := hc'.place_add_length
    have hfewer := hpass.length_le
    exact ⟨found, c', place', by omega, hc', hread'⟩
  upToEnd _ := ofTokens_eq_of_take_eq

end Program
end LoxLang
