import Mathlib.Tactic.SplitIfs
import LoxLang.Proofs.Reading.Form

/-!
# Reading comes to an end

A reader passes tokens and never goes back, and the faults that it notes stay. Between two tokens
that are passed, rules nest at most thirteen deep, so the fuel for a list of tokens is enough for
whatever it holds (`Program.declarations_ne_exhausted`).
-/
namespace LoxLang

/-- From one cursor to another by reading, over `count` tokens or more. -/
structure Cursor.Passes (count : Nat) (c c' : Cursor) : Prop where
  length_le : c'.ahead.length + count ≤ c.ahead.length
  ending : c'.ending = c.ending
  faults : c.faults.size ≤ c'.faults.size

theorem Cursor.Passes.trans {m n : Nat} {c c' c'' : Cursor} (h : c.Passes m c')
    (h' : c'.Passes n c'') : c.Passes (m + n) c'' where
  length_le := by
    have hfirst := h.length_le
    have hsecond := h'.length_le
    omega
  ending := h'.ending.trans h.ending
  faults := Nat.le_trans h.faults h'.faults

theorem Cursor.Passes.mono {m n : Nat} {c c' : Cursor} (h : c.Passes m c') (hle : n ≤ m) :
    c.Passes n c' where
  length_le := by
    have hlength := h.length_le
    omega
  ending := h.ending
  faults := h.faults

theorem Cursor.Passes.refl (c : Cursor) : c.Passes 0 c := ⟨Nat.le_refl _, rfl, Nat.le_refl _⟩

theorem Cursor.exists_ahead {c : Cursor} (hkind : c.peek.kind ≠ .eof) :
    ∃ token rest, c.ahead = token :: rest := by
  rw [peek_eq] at hkind
  cases hahead : c.ahead with
  | nil => simp [hahead, c.kind_ending] at hkind
  | cons token rest => exact ⟨token, rest, rfl⟩

theorem Cursor.Passes.advance (c : Cursor) : c.Passes 0 c.advance :=
  ⟨by simp, c.ending_advance, by simp⟩

theorem Cursor.Passes.ofCons {c : Cursor} {token : Token} {rest : List Token}
    (hahead : c.ahead = token :: rest) : c.Passes 1 c.advance :=
  ⟨by simp [hahead], c.ending_advance, by simp⟩

/-- Skipping passes at least one token if there is one. -/
theorem Cursor.length_resume_le (tokens : List Token) :
    (resume tokens).length ≤ tokens.length - 1 := by
  induction tokens with
  | nil => exact Nat.le_refl _
  | cons skipped rest ih =>
    rw [List.length_cons]
    unfold resume
    split
    · omega
    split <;> omega

theorem Cursor.Passes.skip (fault : GrammarFault) (c : Cursor) :
    c.Passes 0 (c.report fault).synchronize where
  length_le := by
    have hle := length_resume_le c.ahead
    rw [ahead_synchronize, ahead_report]
    omega
  ending := by rw [ending_synchronize, ending_report]
  faults := by simp

namespace Reading

variable {α β : Type} {short short' : Prop} {k : Nat} {c : Cursor}

/-- Reading goes forward from here, over `k` tokens or more if it is done, and it is only exhausted
if the fuel falls short. -/
def Ends (short : Prop) (k : Nat) (x : Reading α) (c : Cursor) : Prop :=
  match x c with
  | .done _ c' => c.Passes k c'
  | .failed _ c' => c.Passes 0 c'
  | .exhausted => short

section Rules

variable {x : Reading α} {f : α → Reading β}

theorem Ends.mono {j : Nat} (h : Ends short k x c) (hshort : short → short') (hle : j ≤ k) :
    Ends short' j x c := by
  unfold Ends at h ⊢
  split at h
  · exact h.mono hle
  · exact h
  · exact hshort h

theorem Ends.bind {j : Nat} (h : Ends short j x c)
    (hnext : ∀ a c', x c = .done a c' → c.Passes j c' → Ends short (k - j) (f a) c') :
    Ends short k (x >>= f) c := by
  unfold Ends at h ⊢
  rw [Action.bind_apply]
  cases hx : x c with
  | done a c' =>
    simp only [hx] at h
    have hrest := hnext a c' hx h
    unfold Ends at hrest
    dsimp only
    split at hrest
    · next b c'' hf =>
      rw [hf]
      exact (h.trans hrest).mono (m := j + (k - j)) (by omega)
    · next fault c'' hf =>
      rw [hf]
      exact (h.trans hrest).mono (Nat.zero_le _)
    · next hf =>
      rw [hf]
      exact hrest
  | failed fault c' =>
    simp only [hx] at h
    exact h
  | exhausted =>
    simp only [hx] at h
    exact h

/-- A step that may fall short earlier than the whole. -/
theorem Ends.then {j : Nat} (h : Ends short j x c) (hshort : short → short')
    (hnext : ∀ a c', c.Passes j c' → Ends short' (k - j) (f a) c') :
    Ends short' k (x >>= f) c :=
  (h.mono hshort (Nat.le_refl j)).bind fun a c' _ => hnext a c'

theorem ends_pure (a : α) : Ends short 0 (pure a) c := Cursor.Passes.refl c

theorem ends_fail (fault : GrammarFault) : Ends short k (Action.fail fault : Reading α) c :=
  Cursor.Passes.refl c

theorem ends_exhausted (h : short) : Ends short k (Action.exhausted : Reading α) c := h

theorem ends_node (build : Nat → Expr) : Ends short 0 (node build) c :=
  ⟨Nat.le_refl _, rfl, Nat.le_refl _⟩

theorem ends_note (fault : GrammarFault) : Ends short 0 (note fault) c :=
  ⟨Nat.le_refl _, rfl, by simp⟩

theorem ends_checkCount (count : Nat) (cause : GrammarCause) :
    Ends short 0 (checkCount count cause) c := by
  unfold checkCount
  split
  · have hnote : Ends short 0 (note ⟨c.peek, cause⟩) c := ends_note _
    exact hnote
  · exact ends_pure ()

theorem ends_view {γ : Type} {g : Cursor → γ} {f : γ → Reading β} (h : Ends short k (f (g c)) c) :
    Ends short k (Action.view g >>= f) c := h

theorem ends_of_done {j : Nat} {a : α} {c' : Cursor} (hx : x c = .done a c')
    (hpass : c.Passes j c') (h : Ends short (k - j) (f a) c') : Ends short k (x >>= f) c := by
  apply Ends.bind (j := j)
  · rw [Ends, hx]
    exact hpass
  · intro a' c'' hdone _
    rw [hx] at hdone
    cases hdone
    exact h

theorem ends_advance {f : Unit → Reading β} (hkind : c.peek.kind ≠ .eof)
    (h : ∀ c', c.Passes 1 c' → Ends short (k - 1) (f ()) c') :
    Ends short k (advance >>= f) c := by
  obtain ⟨token, rest, hahead⟩ := Cursor.exists_ahead hkind
  exact ends_of_done rfl (.ofCons hahead) (h _ (.ofCons hahead))

theorem ends_takeIf {p : Kind → Bool} {f : Option Token → Reading β}
    (hsome : ∀ token c', c.Passes 1 c' → Ends short (k - 1) (f (some token)) c')
    (hnone : Ends short k (f none) c) : Ends short k (takeIf p >>= f) c := by
  rcases takeIf_cases p c with ⟨token, rest, hahead, -, htake⟩ | ⟨-, htake⟩
  · exact ends_of_done htake (.ofCons hahead) (hsome token _ (.ofCons hahead))
  · exact ends_of_done htake (.refl c) hnone

theorem ends_accept {kind : Kind} {f : Bool → Reading β}
    (htrue : ∀ c', c.Passes 1 c' → Ends short (k - 1) (f true) c')
    (hfalse : Ends short k (f false) c) : Ends short k (accept kind >>= f) c := by
  rw [accept, bind_assoc]
  exact ends_takeIf (fun _ => htrue) hfalse

theorem ends_want (kind : Kind) (wanted : Wanted) : Ends short 1 (want kind wanted) c := by
  apply ends_takeIf
  · intro token c' _
    exact ends_pure token
  · apply ends_view
    exact ends_fail _

theorem ends_listUntil {stop : Kind} {list : Reading (List α)} (h : Ends short 0 list c) :
    Ends short 0 (listUntil stop list) c := by
  apply ends_view
  split
  · exact ends_pure []
  · exact h

theorem ends_pass : Ends short 0 advance c := .advance c

theorem ends_constant (hkind : c.peek.kind ≠ .eof) (value : Literal) :
    Ends short 1 (constant value) c :=
  ends_advance hkind fun _ _ => ends_node _

end Rules

/-- How deep the rules for a level nest before a token is passed. -/
def levelDepth : Level → Nat
  | .or => 8
  | .and => 7
  | .equality => 6
  | .comparison => 5
  | .term => 4
  | .factor => 3
  | .unary => 2

theorem levelDepth_tighter {level : Level} (h : level ≠ .unary) :
    levelDepth level.tighter < levelDepth level := by
  cases level <;> simp_all [levelDepth, Level.tighter]

theorem levelDepth_pos (level : Level) : 1 < levelDepth level ∧ levelDepth level ≤ 8 := by
  cases level <;> simp [levelDepth]

structure ExpressionsEnd (fuel : Nat) : Prop where
  expression : ∀ c : Cursor,
    Ends (fuel < 32 * c.ahead.length + 9) 1 (expression fuel) c
  operation : ∀ (c : Cursor) (level : Level),
    Ends (fuel < 32 * c.ahead.length + levelDepth level) 1 (operation fuel level) c
  operands : ∀ (c : Cursor) (level : Level) (left : Expr),
    Ends (fuel < 32 * c.ahead.length + 1) 0 (operands fuel level left) c
  suffixes : ∀ (c : Cursor) (expr : Expr),
    Ends (fuel < 32 * c.ahead.length + 1) 0 (suffixes fuel expr) c
  arguments : ∀ (c : Cursor) (count : Nat),
    Ends (fuel < 32 * c.ahead.length + 10) 1 (arguments fuel count) c
  primary : ∀ c : Cursor,
    Ends (fuel < 32 * c.ahead.length + 1) 1 (primary fuel) c

namespace ExpressionsEnd

variable {fuel : Nat}

theorem expression_succ (h : ExpressionsEnd fuel) :
    Ends (fuel + 1 < 32 * c.ahead.length + 9) 1 (Reading.expression (fuel + 1)) c := by
  rw [Reading.expression]
  apply (h.operation c .or).then
  · intro hshort
    simp only [levelDepth] at hshort
    omega
  intro target c₁ hpass₁
  apply ends_takeIf
  · intro equals c₂ hpass₂
    have hpass := hpass₁.trans hpass₂
    have hle := hpass.length_le
    apply (h.expression c₂).then (by omega)
    intro value c₃ _
    split
    · exact ends_node _
    · exact (ends_note _).bind fun _ _ _ _ => ends_pure _
  · exact ends_pure target

theorem operation_succ (h : ExpressionsEnd fuel) (level : Level) :
    Ends (fuel + 1 < 32 * c.ahead.length + levelDepth level) 1
      (Reading.operation (fuel + 1) level) c := by
  by_cases hlevel : level = .unary
  · subst hlevel
    rw [Reading.operation]
    apply ends_takeIf
    · intro operator c₁ hpass₁
      have hle := hpass₁.length_le
      apply (h.operation c₁ .unary).then (by omega)
      intro right c₂ _
      exact ends_node _
    · apply (h.primary c).then
      · simp only [levelDepth]
        omega
      intro expr c₁ hpass₁
      have hle := hpass₁.length_le
      apply (h.suffixes c₁ expr).mono _ (Nat.le_refl 0)
      simp only [levelDepth]
      omega
  · have htighter := levelDepth_tighter hlevel
    have hpos := levelDepth_pos level.tighter
    rw [Reading.operation]
    · apply (h.operation c level.tighter).then (by omega)
      intro left c₁ hpass₁
      have hle := hpass₁.length_le
      apply (h.operands c₁ level left).mono _ (Nat.le_refl 0)
      omega
    · exact hlevel

theorem operands_succ (h : ExpressionsEnd fuel) (level : Level) (left : Expr)
    :
    Ends (fuel + 1 < 32 * c.ahead.length + 1) 0 (Reading.operands (fuel + 1) level left) c := by
  have hdepth := levelDepth_pos level.tighter
  rw [Reading.operands]
  apply ends_takeIf
  · intro operator c₁ hpass₁
    have hle₁ := hpass₁.length_le
    apply (h.operation c₁ level.tighter).then (by omega)
    intro right c₂ hpass₂
    apply (ends_node _).bind
    intro expr c₃ _ hpass₃
    have hpass := (hpass₁.trans hpass₂).trans hpass₃
    have hle := hpass.length_le
    exact (h.operands c₃ level expr).mono (by omega) (Nat.le_refl 0)
  · exact ends_pure left

theorem suffixes_succ (h : ExpressionsEnd fuel) (expr : Expr) :
    Ends (fuel + 1 < 32 * c.ahead.length + 1) 0 (Reading.suffixes (fuel + 1) expr) c := by
  -- a suffix starts with a token of its own, and the ones behind it come after that token
  have hrest {j : Nat} {c' : Cursor} (hpass : c.Passes j c') (hpos : 0 < j) (expr : Expr) :
      Ends (fuel + 1 < 32 * c.ahead.length + 1) 0 (Reading.suffixes fuel expr) c' := by
    have hle := hpass.length_le
    exact (h.suffixes c' expr).mono (by omega) (Nat.le_refl 0)
  rw [Reading.suffixes]
  apply ends_view
  split
  · next hkind =>
    apply ends_advance (by simp [hkind])
    intro c₁ hpass₁
    have hle := hpass₁.length_le
    have hargs := (h.arguments c₁ 0).mono id (Nat.zero_le 1)
    apply (ends_listUntil hargs).then (by omega)
    intro args c₂ hpass₂
    apply (ends_want _ _).bind
    intro paren c₃ _ hpass₃
    apply (ends_node _).bind
    intro call c₄ _ hpass₄
    exact hrest (((hpass₁.trans hpass₂).trans hpass₃).trans hpass₄) (by omega) call
  · next hkind =>
    apply ends_advance (by simp [hkind])
    intro c₁ hpass₁
    apply (ends_want _ _).bind
    intro name c₂ _ hpass₂
    apply (ends_node _).bind
    intro get c₃ _ hpass₃
    exact hrest ((hpass₁.trans hpass₂).trans hpass₃) (by omega) get
  · exact ends_pure expr

theorem arguments_succ (h : ExpressionsEnd fuel) (count : Nat) :
    Ends (fuel + 1 < 32 * c.ahead.length + 10) 1 (Reading.arguments (fuel + 1) count) c := by
  rw [Reading.arguments]
  apply (ends_checkCount _ _).bind
  intro _ c₁ _ hpass₁
  have hle₁ := hpass₁.length_le
  apply (h.expression c₁).then (by omega)
  intro argument c₂ hpass₂
  apply ends_accept
  · intro c₃ hpass₃
    have hpass := hpass₂.trans hpass₃
    have hle := hpass.length_le
    apply (h.arguments c₃ (count + 1)).then (by omega)
    intro arguments c₄ _
    exact ends_pure _
  · exact ends_pure _

theorem primary_succ (h : ExpressionsEnd fuel) :
    Ends (fuel + 1 < 32 * c.ahead.length + 1) 1 (Reading.primary (fuel + 1)) c := by
  rw [Reading.primary]
  apply ends_view
  split
  · next hkind => exact ends_constant (by simp [hkind]) _
  · next hkind => exact ends_constant (by simp [hkind]) _
  · next hkind => exact ends_constant (by simp [hkind]) _
  · next hkind => exact ends_constant (by simp [hkind]) _
  · next hkind => exact ends_constant (by simp [hkind]) _
  · next hkind => exact ends_advance (by simp [hkind]) fun _ _ => ends_node _
  · next hkind => exact ends_advance (by simp [hkind]) fun _ _ => ends_node _
  · next hkind =>
    apply ends_advance (by simp [hkind])
    intro c₁ hpass₁
    have hle := hpass₁.length_le
    apply ((h.expression c₁).mono id (Nat.zero_le 1)).then (by omega)
    intro inner c₂ _
    apply ((ends_want _ _).mono id (Nat.zero_le 1)).bind
    intro paren c₃ _ _
    exact ends_node _
  · exact ends_fail _

end ExpressionsEnd

theorem expressionsEnd (fuel : Nat) : ExpressionsEnd fuel := by
  induction fuel with
  | zero =>
    constructor
    · exact fun c => ends_exhausted (by omega)
    · exact fun c level => ends_exhausted (by have hpos := levelDepth_pos level; omega)
    · exact fun c level left => ends_exhausted (by omega)
    · exact fun c expr => ends_exhausted (by omega)
    · exact fun c count => ends_exhausted (by omega)
    · exact fun c => ends_exhausted (by omega)
  | succ fuel ih =>
    exact ⟨fun _ => ih.expression_succ, fun _ level => ih.operation_succ level,
      fun _ level left => ih.operands_succ level left, fun _ expr => ih.suffixes_succ expr,
      fun _ count => ih.arguments_succ count, fun _ => ih.primary_succ⟩

section Parts

variable (fuel : Nat)

theorem ends_expression : Ends (fuel < 32 * c.ahead.length + 9) 1 (expression fuel) c :=
  (expressionsEnd fuel).expression c

theorem ends_expression_of_passes {j : Nat} {c' : Cursor} (hpass : c.Passes j c') :
    Ends (fuel < 32 * c.ahead.length + 9) 0 (expression fuel) c' := by
  have hle := hpass.length_le
  exact (ends_expression fuel).mono (by omega) (Nat.zero_le 1)

theorem ends_optionalExpression {j : Nat} {c' : Cursor} (hpass : c.Passes j c') (stop : Kind) :
    Ends (fuel < 32 * c.ahead.length + 9) 0 (optionalExpression fuel stop) c' := by
  apply ends_view
  split
  · exact ends_pure none
  · exact (ends_expression_of_passes fuel hpass).bind fun _ _ _ _ => ends_pure _

theorem ends_varDeclaration {j : Nat} {c' : Cursor} (hpass : c.Passes j c') :
    Ends (fuel < 32 * c.ahead.length + 9) 1 (varDeclaration fuel) c' := by
  apply (ends_want _ _).bind
  intro name c₁ _ hpass₁
  have hinitializer : Ends (fuel < 32 * c.ahead.length + 9) 0 (initializer fuel) c₁ := by
    apply ends_accept
    · intro c₂ hpass₂
      have hfrom₂ := (hpass.trans hpass₁).trans hpass₂
      exact (ends_expression_of_passes fuel hfrom₂).bind fun _ _ _ _ => ends_pure _
    · exact ends_pure none
  apply hinitializer.bind
  intro initializer c₂ _ _
  apply ((ends_want _ _).mono id (Nat.zero_le 1)).bind
  intro _ c₃ _ _
  exact ends_pure _

theorem ends_expressionStatement {j : Nat} {c' : Cursor} (hpass : c.Passes j c') :
    Ends (fuel < 32 * c.ahead.length + 9) 1 (expressionStatement fuel) c' := by
  apply (ends_expression_of_passes fuel hpass).bind
  intro expr c₁ _ _
  exact (ends_want _ _).bind fun _ _ _ _ => ends_pure _

theorem ends_printStatement {j : Nat} {c' : Cursor} (hpass : c.Passes j c') :
    Ends (fuel < 32 * c.ahead.length + 9) 1 (printStatement fuel) c' := by
  apply (ends_expression_of_passes fuel hpass).bind
  intro expr c₁ _ _
  exact (ends_want _ _).bind fun _ _ _ _ => ends_pure _

theorem ends_returnStatement {j : Nat} {c' : Cursor} (hpass : c.Passes j c') (keyword : Token) :
    Ends (fuel < 32 * c.ahead.length + 9) 1 (returnStatement fuel keyword) c' := by
  apply (ends_optionalExpression fuel hpass _).bind
  intro value c₁ _ _
  exact (ends_want _ _).bind fun _ _ _ _ => ends_pure _

theorem ends_condition {j : Nat} {c' : Cursor} (hpass : c.Passes j c') (opening closing : Wanted) :
    Ends (fuel < 32 * c.ahead.length + 9) 1 (condition fuel opening closing) c' := by
  apply (ends_want _ _).bind
  intro _ c₁ _ hpass₁
  apply (ends_expression_of_passes fuel (hpass.trans hpass₁)).bind
  intro expr c₂ _ _
  apply ((ends_want _ _).mono id (Nat.zero_le 1)).bind
  intro _ c₃ _ _
  exact ends_pure _

theorem ends_forInitializer {j : Nat} {c' : Cursor} (hpass : c.Passes j c') :
    Ends (fuel < 32 * c.ahead.length + 9) 0 (forInitializer fuel) c' := by
  apply ends_view
  split
  · exact ends_pass.bind fun _ _ _ _ => ends_pure none
  · apply ends_pass.bind
    intro _ c₁ _ hpass₁
    have hvar := ends_varDeclaration fuel (hpass.trans hpass₁)
    exact (hvar.mono id (Nat.zero_le 1)).bind fun _ _ _ _ => ends_pure _
  · have hexpr := ends_expressionStatement fuel hpass
    exact (hexpr.mono id (Nat.zero_le 1)).bind fun _ _ _ _ => ends_pure _

theorem ends_forClauses {j : Nat} {c' : Cursor} (hpass : c.Passes j c') :
    Ends (fuel < 32 * c.ahead.length + 9) 1 (forClauses fuel) c' := by
  apply (ends_want _ _).bind
  intro _ c₁ _ hpass₁
  have hfrom₁ := hpass.trans hpass₁
  apply (ends_forInitializer fuel hfrom₁).bind
  intro initializer c₂ _ hpass₂
  have hfrom₂ := hfrom₁.trans hpass₂
  apply (ends_optionalExpression fuel hfrom₂ _).bind
  intro condition c₃ _ hpass₃
  apply ((ends_want _ _).mono id (Nat.zero_le 1)).bind
  intro _ c₄ _ hpass₄
  apply (ends_optionalExpression fuel ((hfrom₂.trans hpass₃).trans hpass₄) _).bind
  intro increment c₅ _ _
  apply ((ends_want _ _).mono id (Nat.zero_le 1)).bind
  intro _ c₆ _ _
  exact ends_pure _

end Parts

theorem ends_conditionOrTrue (condition : Option Expr) :
    Ends short 0 (conditionOrTrue condition) c := by
  cases condition with
  | none => exact ⟨Nat.le_refl _, rfl, Nat.le_refl _⟩
  | some condition => exact ends_pure condition

theorem ends_parameters (fuel count : Nat) :
    Ends (fuel < 32 * c.ahead.length + 1) 0 (parameters fuel count) c := by
  induction fuel generalizing c count with
  | zero => exact ends_exhausted (by omega)
  | succ fuel ih =>
    apply (ends_checkCount _ _).bind
    intro _ c₁ _ hpass₁
    apply ((ends_want _ _).mono id (Nat.zero_le 1)).bind
    intro parameter c₂ _ hpass₂
    apply ends_accept
    · intro c₃ hpass₃
      have hle := ((hpass₁.trans hpass₂).trans hpass₃).length_le
      apply (ih (count + 1)).then (by omega)
      intro parameters c₄ _
      exact ends_pure _
    · exact ends_pure _

structure StatementsEnd (fuel : Nat) : Prop where
  declaration : ∀ c : Cursor, c.ahead ≠ [] →
    Ends (fuel < 32 * c.ahead.length + 12) 1 (declaration fuel) c
  declared : ∀ c : Cursor,
    Ends (fuel < 32 * c.ahead.length + 11) 1 (declared fuel) c
  routine : ∀ (c : Cursor) (kind : Routine),
    Ends (fuel < 32 * c.ahead.length + 1) 1 (routine fuel kind) c
  methods : ∀ c : Cursor,
    Ends (fuel < 32 * c.ahead.length + 2) 0 (methods fuel) c
  block : ∀ c : Cursor,
    Ends (fuel < 32 * c.ahead.length + 14) 1 (block fuel) c
  declarations : ∀ (c : Cursor) (stop : Kind),
    Ends (fuel < 32 * c.ahead.length + 13) 0 (declarations fuel stop) c
  statement : ∀ c : Cursor,
    Ends (fuel < 32 * c.ahead.length + 10) 1 (statement fuel) c

namespace StatementsEnd

variable {fuel : Nat}

theorem declaration_succ (h : StatementsEnd fuel) (hahead : c.ahead ≠ []) :
    Ends (fuel + 1 < 32 * c.ahead.length + 12) 1 (Reading.declaration (fuel + 1)) c := by
  have hdeclared := h.declared c
  unfold Ends at hdeclared ⊢
  rw [Reading.declaration, Action.bind_apply, Action.attempt]
  cases hresult : Reading.declared fuel c with
  | done stmt c₁ =>
    simp only [hresult] at hdeclared
    exact hdeclared
  | failed fault c₁ =>
    simp only [hresult] at hdeclared
    have hpass := hdeclared.trans (.skip fault c₁)
    refine ⟨?_, hpass.ending, hpass.faults⟩
    have hle := hdeclared.length_le
    have hpos := List.length_pos_iff.mpr hahead
    have hskip := Cursor.length_resume_le c₁.ahead
    rw [Cursor.ahead_synchronize, Cursor.ahead_report]
    omega
  | exhausted =>
    simp only [hresult] at hdeclared
    change fuel + 1 < 32 * c.ahead.length + 12
    omega

theorem declared_succ (h : StatementsEnd fuel) :
    Ends (fuel + 1 < 32 * c.ahead.length + 11) 1 (Reading.declared (fuel + 1)) c := by
  rw [Reading.declared]
  apply ends_view
  split
  · next hkind =>
    apply ends_advance (by simp [hkind])
    intro c₁ hpass₁
    apply ((ends_want _ _).mono id (Nat.zero_le 1)).bind
    intro name c₂ _ hpass₂
    apply ((ends_want _ _).mono id (Nat.zero_le 1)).bind
    intro _ c₃ _ hpass₃
    have hpass := (hpass₁.trans hpass₂).trans hpass₃
    have hle := hpass.length_le
    apply (h.methods c₃).then (by omega)
    intro methods c₄ _
    apply ((ends_want _ _).mono id (Nat.zero_le 1)).bind
    intro _ c₅ _ _
    exact ends_pure _
  · next hkind =>
    apply ends_advance (by simp [hkind])
    intro c₁ hpass₁
    have hle := hpass₁.length_le
    have hroutine := (h.routine c₁ .function).mono id (Nat.zero_le 1)
    apply hroutine.then (by omega)
    intro declaration c₂ _
    exact ends_pure _
  · next hkind =>
    apply ends_advance (by simp [hkind])
    intro c₁ hpass₁
    exact (ends_varDeclaration fuel hpass₁).mono (by omega) (Nat.zero_le 1)
  · exact (h.statement c).mono (by omega) (Nat.le_refl 1)

theorem routine_succ (h : StatementsEnd fuel) (kind : Routine) :
    Ends (fuel + 1 < 32 * c.ahead.length + 1) 1 (Reading.routine (fuel + 1) kind) c := by
  rw [Reading.routine]
  apply (ends_want _ _).bind
  intro name c₁ _ hpass₁
  have hle₁ := hpass₁.length_le
  apply ((ends_want _ _).mono id (Nat.zero_le 1)).bind
  intro _ c₂ _ hpass₂
  have hle₂ := hpass₂.length_le
  apply (ends_listUntil (ends_parameters fuel 0)).then (by omega)
  intro params c₃ hpass₃
  apply ((ends_want _ _).mono id (Nat.zero_le 1)).bind
  intro _ c₄ _ hpass₄
  apply ((ends_want _ _).mono id (Nat.zero_le 1)).bind
  intro _ c₅ _ hpass₅
  have hpass := (((hpass₁.trans hpass₂).trans hpass₃).trans hpass₄).trans hpass₅
  have hle := hpass.length_le
  apply ((h.block c₅).mono id (Nat.zero_le 1)).then (by omega)
  intro body c₆ _
  exact ends_pure _

theorem methods_succ (h : StatementsEnd fuel) :
    Ends (fuel + 1 < 32 * c.ahead.length + 2) 0 (Reading.methods (fuel + 1)) c := by
  rw [Reading.methods]
  apply ends_view
  apply ends_view
  split
  · exact ends_pure []
  · apply ((h.routine c .method).then (by omega))
    intro method c₁ hpass₁
    have hle := hpass₁.length_le
    apply (h.methods c₁).then (by omega)
    intro methods c₂ _
    exact ends_pure _

theorem block_succ (h : StatementsEnd fuel) :
    Ends (fuel + 1 < 32 * c.ahead.length + 14) 1 (Reading.block (fuel + 1)) c := by
  rw [Reading.block]
  apply (h.declarations c .rightBrace).then (by omega)
  intro body c₁ _
  exact (ends_want _ _).bind fun _ _ _ _ => ends_pure _

theorem declarations_succ (h : StatementsEnd fuel) (stop : Kind) :
    Ends (fuel + 1 < 32 * c.ahead.length + 13) 0 (Reading.declarations (fuel + 1) stop) c := by
  rw [Reading.declarations]
  apply ends_view
  apply ends_view
  split
  · exact ends_pure []
  · next hmore =>
    have hahead : c.ahead ≠ [] := by
      intro hahead
      simp [Cursor.isAtEnd_eq, hahead] at hmore
    apply (h.declaration c hahead).then (by omega)
    intro stmt c₁ hpass₁
    have hle := hpass₁.length_le
    apply (h.declarations c₁ stop).then (by omega)
    intro stmts c₂ _
    exact ends_pure _

theorem statement_succ (h : StatementsEnd fuel) :
    Ends (fuel + 1 < 32 * c.ahead.length + 10) 1 (Reading.statement (fuel + 1)) c := by
  -- behind its first token, a statement may hold another one
  have hinner {j : Nat} {c₁ : Cursor} (hpass : c.Passes j c₁) (hpos : 0 < j) :
      Ends (fuel + 1 < 32 * c.ahead.length + 10) 0 (Reading.statement fuel) c₁ := by
    have hle := hpass.length_le
    exact (h.statement c₁).mono (by omega) (Nat.zero_le 1)
  rw [Reading.statement]
  apply ends_view
  split
  · next hkind =>
    apply ends_advance (by simp [hkind])
    intro c₁ hpass₁
    apply ((ends_forClauses fuel hpass₁).mono id (Nat.zero_le 1)).then (by omega)
    intro clauses c₂ hpass₂
    apply (hinner (hpass₁.trans hpass₂) (by omega)).bind
    intro body c₃ _ _
    apply (ends_conditionOrTrue _).bind
    intro condition c₄ _ _
    exact ends_pure _
  · next hkind =>
    apply ends_advance (by simp [hkind])
    intro c₁ hpass₁
    apply ((ends_condition fuel hpass₁ _ _).mono id (Nat.zero_le 1)).then (by omega)
    intro condition c₂ hpass₂
    have hfrom₂ := hpass₁.trans hpass₂
    apply (hinner hfrom₂ (by omega)).bind
    intro thenBranch c₃ _ hpass₃
    apply ends_accept
    · intro c₄ hpass₄
      have hfrom₄ := (hfrom₂.trans hpass₃).trans hpass₄
      exact (hinner hfrom₄ (by omega)).bind fun _ _ _ _ => ends_pure _
    · exact ends_pure _
  · next hkind =>
    apply ends_advance (by simp [hkind])
    intro c₁ hpass₁
    apply ((ends_condition fuel hpass₁ _ _).mono id (Nat.zero_le 1)).then (by omega)
    intro condition c₂ hpass₂
    apply (hinner (hpass₁.trans hpass₂) (by omega)).bind
    intro body c₃ _ _
    exact ends_pure _
  · next hkind =>
    apply ends_advance (by simp [hkind])
    intro c₁ hpass₁
    exact (ends_returnStatement fuel hpass₁ _).mono (by omega) (Nat.zero_le 1)
  · next hkind =>
    apply ends_advance (by simp [hkind])
    intro c₁ hpass₁
    have hle := hpass₁.length_le
    apply ((h.block c₁).mono id (Nat.zero_le 1)).then (by omega)
    intro body c₂ _
    exact ends_pure _
  · next hkind =>
    apply ends_advance (by simp [hkind])
    intro c₁ hpass₁
    exact (ends_printStatement fuel hpass₁).mono (by omega) (Nat.zero_le 1)
  · exact (ends_expressionStatement fuel (.refl c)).mono (by omega) (Nat.le_refl 1)

end StatementsEnd

theorem statementsEnd (fuel : Nat) : StatementsEnd fuel := by
  induction fuel with
  | zero =>
    constructor
    · exact fun c _ => ends_exhausted (by omega)
    · exact fun c => ends_exhausted (by omega)
    · exact fun c kind => ends_exhausted (by omega)
    · exact fun c => ends_exhausted (by omega)
    · exact fun c => ends_exhausted (by omega)
    · exact fun c stop => ends_exhausted (by omega)
    · exact fun c => ends_exhausted (by omega)
  | succ fuel ih =>
    exact ⟨fun _ => ih.declaration_succ, fun _ => ih.declared_succ,
      fun _ kind => ih.routine_succ kind, fun _ => ih.methods_succ, fun _ => ih.block_succ,
      fun _ stop => ih.declarations_succ stop, fun _ => ih.statement_succ⟩

end Reading

/-- The fuel for a list of tokens is enough to read a program from it. -/
theorem Program.declarations_ne_exhausted (tokens : List Token) (firstId : Nat) :
    Reading.declarations (fuelFor tokens.length) .eof (Cursor.start tokens firstId) ≠
      .exhausted := by
  intro hexhausted
  have hends := (Reading.statementsEnd (fuelFor tokens.length)).declarations
    (Cursor.start tokens firstId) .eof
  have hle : (tokens.takeWhile (·.kind ≠ .eof)).length ≤ tokens.length :=
    (List.takeWhile_prefix _).length_le
  unfold Reading.Ends at hends
  rw [hexhausted] at hends
  simp only [Cursor.ahead_start, fuelFor] at hends
  omega

end LoxLang
