import LoxLang.Proofs.Reading.Progress
import LoxLang.Proofs.Renumbering

/-!
# Reading with more behind it

Tokens that were read without a fault are read in the same way when they stand on other lines, when
more tokens follow them, and with more fuel. Expressions never look beyond the token that ends them.
Only a statement can be the last thing that was read, and of what follows it, it only wants to know
whether it is an `else`.
-/
namespace LoxLang

/-- The same tokens are ahead, on other lines and with more behind them. Nothing is wrong with what
was read before. -/
structure Cursor.Precedes (f : Nat → Nat) (tail : List Token) (c c' : Cursor) : Prop where
  ahead : c'.ahead = c.ahead.map (Token.renumber f) ++ tail
  nextId : c'.nextId = c.nextId
  faults : c'.faults = #[]

theorem Cursor.Precedes.advance {f : Nat → Nat} {tail : List Token} {c c' : Cursor}
    (hc' : c.Precedes f tail c') (h : c.ahead = [] → tail = []) :
    c.advance.Precedes f tail c'.advance := by
  refine ⟨?_, ?_, ?_⟩
  · rw [ahead_advance, ahead_advance, hc'.ahead]
    cases hahead : c.ahead with
    | nil => simp [h hahead]
    | cons token rest => rfl
  · simpa using hc'.nextId
  · simpa using hc'.faults

namespace Reading

variable {α β γ δ : Type} {f : Nat → Nat} {tail : List Token} {e e' : Prop} {i j k : Nat}
  {c : Cursor}

/-- What `x` reads without a fault `y` reads from the longer list, if `x` does not stop before its
last token or if `e` holds; and `x` passes `k` tokens. -/
def Carries (f : Nat → Nat) (tail : List Token) (e : Prop) (k : Nat) (x : Reading α) (y : Reading β)
    (φ : α → β) (c : Cursor) : Prop :=
  ∀ a c₁, x c = .done a c₁ → c.Passes k c₁ ∧
    ∀ c', c.Precedes f tail c' → c₁.faults = #[] → (c₁.ahead = [] → e) →
      ∃ c₁', y c' = .done (φ a) c₁' ∧ c₁.Precedes f tail c₁'

section Rules

variable {x : Reading α} {y : Reading β} {φ : α → β} {p : α → Reading γ} {q : β → Reading δ}
  {ψ : γ → δ}

theorem Carries.bind (h : Carries f tail e' i x y φ c) (hk : k ≤ i + j) (he : j = 0 → e → e')
    (hnext : ∀ a c₁, x c = .done a c₁ → Carries f tail e j (p a) (q (φ a)) ψ c₁) :
    Carries f tail e k (x >>= p) (y >>= q) ψ c := by
  intro b c₂ hdone
  obtain ⟨a, c₁, hx, hp⟩ := Action.bind_eq_done_iff.mp hdone
  obtain ⟨hpass₁, hcarry₁⟩ := h a c₁ hx
  obtain ⟨hpass₂, hcarry₂⟩ := hnext a c₁ hx b c₂ hp
  refine ⟨(hpass₁.trans hpass₂).mono hk, ?_⟩
  intro c' hc' hfaults hend
  have hfaults₁ : c₁.faults = #[] := by
    have hle := hpass₂.faults
    rw [hfaults] at hle
    exact Array.eq_empty_of_size_eq_zero (Nat.le_zero.mp hle)
  have hend₁ : c₁.ahead = [] → e' := by
    intro hnil
    have hle := hpass₂.length_le
    rw [hnil, List.length_nil] at hle
    have hnil₂ : c₂.ahead = [] := List.eq_nil_of_length_eq_zero (by omega)
    exact he (by omega) (hend hnil₂)
  obtain ⟨c₁', hy, hc₁'⟩ := hcarry₁ c' hc' hfaults₁ hend₁
  obtain ⟨c₂', hq, hc₂'⟩ := hcarry₂ c₁' hc₁' hfaults hend
  exact ⟨c₂', Action.bind_eq_done_iff.mpr ⟨φ a, c₁', hy, hq⟩, hc₂'⟩

theorem Carries.weaken (h : Carries f tail e' i x y φ c) (hk : k ≤ i) (he : e → e') :
    Carries f tail e k x y φ c := by
  intro a c₁ hx
  obtain ⟨hpass, hcarry⟩ := h a c₁ hx
  exact ⟨hpass.mono hk, fun c' hc' hfaults hend => hcarry c' hc' hfaults fun hnil => he (hend hnil)⟩

theorem Carries.then (h : Carries f tail e 0 x y φ c)
    (hnext : ∀ a c₁, x c = .done a c₁ → Carries f tail e k (p a) (q (φ a)) ψ c₁) :
    Carries f tail e k (x >>= p) (y >>= q) ψ c :=
  h.bind (by omega) (fun _ h => h) hnext

/-- A step after which tokens are passed, wherever it stops. -/
theorem Carries.inside (h : Carries f tail e' i x y φ c)
    (hnext : ∀ a c₁, x c = .done a c₁ → Carries f tail e 1 (p a) (q (φ a)) ψ c₁) :
    Carries f tail e 1 (x >>= p) (y >>= q) ψ c :=
  h.bind (by omega) (by simp) hnext

theorem Carries.last (h : Carries f tail e k x y φ c)
    (hnext : ∀ a c₁, x c = .done a c₁ → Carries f tail e 0 (p a) (q (φ a)) ψ c₁) :
    Carries f tail e k (x >>= p) (y >>= q) ψ c :=
  h.bind (by omega) (fun _ h => h) hnext

theorem carries_pure {a : α} {b : β} (h : φ a = b) : Carries f tail e 0 (pure a) (pure b) φ c := by
  intro a' c₁ hdone
  cases hdone
  exact ⟨.refl c, fun c' hc' _ _ => ⟨c', by rw [h]; rfl, hc'⟩⟩

theorem carries_fail (fault : GrammarFault) (y : Reading β) :
    Carries f tail e k (Action.fail fault : Reading α) y φ c := by
  intro a c₁ hdone
  cases hdone

theorem carries_exhausted (y : Reading β) :
    Carries f tail e k (Action.exhausted : Reading α) y φ c := by
  intro a c₁ hdone
  cases hdone

theorem carries_note (fault : GrammarFault) (y : Reading Unit) :
    Carries f tail e 0 (note fault) y id c := by
  intro a c₁ hdone
  cases hdone
  refine ⟨⟨Nat.le_refl _, rfl, by simp⟩, fun c' _ hfaults _ => ?_⟩
  simp at hfaults

theorem carries_checkCount (count : Nat) (cause : GrammarCause) :
    Carries f tail e 0 (checkCount count cause) (checkCount count cause) id c := by
  unfold checkCount
  split
  · exact carries_note ⟨c.peek, cause⟩ _
  · exact carries_pure rfl

theorem carries_node {build build' : Nat → Expr} (h : ∀ id, (build id).renumber f = build' id) :
    Carries f tail e 0 (node build) (node build') (Expr.renumber f) c := by
  intro a c₁ hdone
  cases hdone
  refine ⟨⟨Nat.le_refl _, rfl, Nat.le_refl _⟩, fun c' hc' _ _ => ?_⟩
  refine ⟨{ c' with nextId := c'.nextId + 1 }, ?_, hc'.ahead, ?_, hc'.faults⟩
  · rw [h, ← hc'.nextId]
    rfl
  · rw [hc'.nextId]

end Rules

section Looking

theorem carries_view {α β : Type} {g : Cursor → α} {g' : Cursor → β} {φ : α → β}
    (h : ∀ c', c.Precedes f tail c' → (c.ahead = [] → e) → g' c' = φ (g c)) :
    Carries f tail e 0 (Action.view g) (Action.view g') φ c := by
  intro a c₁ hdone
  cases hdone
  refine ⟨.refl c, fun c' hc' _ hend => ⟨c', ?_, hc'⟩⟩
  rw [← h c' hc' hend]
  rfl

theorem carries_peek (hahead : c.ahead ≠ []) :
    Carries f tail e 0 peek peek (Token.renumber f) c := by
  apply carries_view
  intro c' hc' _
  rw [Cursor.peek_eq, Cursor.peek_eq, hc'.ahead]
  cases hcons : c.ahead with
  | nil => exact absurd hcons hahead
  | cons token rest => rfl

theorem carries_nextKind (h : c.ahead = [] → e → tail = []) :
    Carries f tail e 0 nextKind nextKind id c := by
  apply carries_view
  intro c' hc' hend
  rw [Cursor.peek_eq, Cursor.peek_eq, hc'.ahead]
  cases hahead : c.ahead with
  | nil => simp [h hahead (hend hahead), Cursor.kind_ending]
  | cons token rest => rfl

theorem carries_isAtEnd (h : c.ahead = [] → e → tail = []) :
    Carries f tail e 0 isAtEnd isAtEnd id c := by
  apply carries_view
  intro c' hc' hend
  rw [Cursor.isAtEnd_eq, Cursor.isAtEnd_eq, hc'.ahead]
  cases hahead : c.ahead with
  | nil => simp [h hahead (hend hahead)]
  | cons token rest => rfl

theorem carries_advance (h : c.ahead = [] → e → tail = []) :
    Carries f tail e 0 advance advance id c := by
  intro a c₁ hdone
  cases hdone
  refine ⟨.advance c, fun c' hc' _ hend => ?_⟩
  exact ⟨c'.advance, rfl, hc'.advance fun hnil => h hnil (hend (by simp [hnil]))⟩

theorem takeIf_of_precedes {p : Kind → Bool} {c' : Cursor} {token : Token} {rest : List Token}
    (hahead : c.ahead = token :: rest) (hp : p token.kind = true) (hc' : c.Precedes f tail c') :
    ∃ c₁', takeIf p c' = .done (some (token.renumber f)) c₁' ∧ c.advance.Precedes f tail c₁' := by
  have hahead' : c'.ahead = token.renumber f :: (rest.map (Token.renumber f) ++ tail) := by
    rw [hc'.ahead, hahead]
    rfl
  exact ⟨c'.advance, takeIf_of_head hahead' hp, hc'.advance (by simp [hahead])⟩

/-- A token is taken on both sides, or on neither. -/
theorem carries_takeIf {p : Kind → Bool}
    (h : c.ahead = [] → e → ∀ token ∈ tail.head?, p token.kind = false) :
    Carries f tail e 0 (takeIf p) (takeIf p) (Option.map (Token.renumber f)) c := by
  intro found c₁ hdone
  rcases takeIf_cases p c with ⟨token, rest, hahead, hp, htake⟩ | ⟨hp, htake⟩
  · rw [htake] at hdone
    cases hdone
    exact ⟨(Cursor.Passes.ofCons hahead).mono (Nat.zero_le 1),
      fun c' hc' _ _ => takeIf_of_precedes hahead hp hc'⟩
  · rw [htake] at hdone
    cases hdone
    refine ⟨.refl c, fun c' hc' _ hend => ⟨c', takeIf_of_forall ?_, hc'⟩⟩
    rw [hc'.ahead]
    cases hahead : c.ahead with
    | nil => simpa using h hahead (hend hahead)
    | cons token rest => simpa [hahead] using hp

theorem carries_accept {kind : Kind}
    (h : c.ahead = [] → e → ∀ token ∈ tail.head?, token.kind ≠ kind) :
    Carries f tail e 0 (accept kind) (accept kind) id c := by
  have htake : Carries f tail e 0 (takeIf (· = kind)) (takeIf (· = kind))
      (Option.map (Token.renumber f)) c := carries_takeIf (by simpa using h)
  apply htake.then
  intro found c₁ _
  exact carries_pure (by simp)

theorem carries_want (kind : Kind) (wanted : Wanted) :
    Carries f tail e 1 (want kind wanted) (want kind wanted) (Token.renumber f) c := by
  intro token c₁ hdone
  obtain ⟨found, c₀, htake, hrest⟩ := Action.bind_eq_done_iff.mp hdone
  rcases takeIf_cases (· = kind) c with ⟨first, rest, hahead, hp, htake'⟩ | ⟨-, htake'⟩
  · rw [htake] at htake'
    cases htake'
    cases hrest
    refine ⟨.ofCons hahead, fun c' hc' _ _ => ?_⟩
    obtain ⟨c₁', htaken, hc₁'⟩ := takeIf_of_precedes (p := (· = kind)) hahead hp hc'
    exact ⟨c₁', Action.bind_eq_done_iff.mpr ⟨_, c₁', htaken, rfl⟩, hc₁'⟩
  · rw [htake] at htake'
    cases htake'
    cases hrest

theorem carries_listUntil {α β : Type} {stop : Kind} {x : Reading (List α)} {y : Reading (List β)}
    {φ : List α → List β} (hnil : φ [] = [])
    (h : Carries f tail (tail = []) 0 x y φ c) :
    Carries f tail (tail = []) 0 (listUntil stop x) (listUntil stop y) φ c := by
  apply (carries_nextKind fun _ h => h).then
  intro kind c₁ hdone
  cases hdone
  dsimp only [id]
  split
  · exact carries_pure hnil
  · exact h

end Looking

section Inside

/-! Inside of an expression, nothing of what follows the tokens is looked at. -/

theorem carries_takeIf_inside (p : Kind → Bool) :
    Carries f tail (tail = []) 0 (takeIf p) (takeIf p) (Option.map (Token.renumber f)) c :=
  carries_takeIf (by rintro - rfl; simp)

theorem carries_accept_inside (kind : Kind) :
    Carries f tail (tail = []) 0 (accept kind) (accept kind) id c :=
  carries_accept (by rintro - rfl; simp)

theorem carries_advance_inside : Carries f tail (tail = []) 0 advance advance id c :=
  carries_advance fun _ h => h

theorem carries_nextKind_inside : Carries f tail (tail = []) 0 nextKind nextKind id c :=
  carries_nextKind fun _ h => h

theorem carries_constant (value : Literal) :
    Carries f tail (tail = []) 0 (constant value) (constant value) (Expr.renumber f) c :=
  carries_advance_inside.then fun _ _ _ => carries_node fun _ => rfl

theorem assignment?_renumber (f : Nat → Nat) (target value : Expr) :
    assignment? (target.renumber f) (value.renumber f) =
      (assignment? target value).map fun build id => (build id).renumber f := by
  cases target <;> rfl

theorem combine_renumber (f : Nat → Nat) (level : Level) (left : Expr) (operator : Token)
    (right : Expr) (id : Nat) :
    (level.combine left operator right id).renumber f =
      level.combine (left.renumber f) (operator.renumber f) (right.renumber f) id := by
  cases level <;> rfl

structure ExpressionsCarry (f : Nat → Nat) (tail : List Token) (fuel fuel' : Nat) : Prop where
  expression : ∀ c, Carries f tail (tail = []) 0 (expression fuel) (expression fuel')
    (Expr.renumber f) c
  operation : ∀ c level, Carries f tail (tail = []) 0 (operation fuel level)
    (operation fuel' level) (Expr.renumber f) c
  operands : ∀ c level left, Carries f tail (tail = []) 0 (operands fuel level left)
    (operands fuel' level (left.renumber f)) (Expr.renumber f) c
  suffixes : ∀ c expr, Carries f tail (tail = []) 0 (suffixes fuel expr)
    (suffixes fuel' (expr.renumber f)) (Expr.renumber f) c
  arguments : ∀ c count, Carries f tail (tail = []) 0 (arguments fuel count)
    (arguments fuel' count) (Expr.renumberAll f) c
  primary : ∀ c, Carries f tail (tail = []) 0 (primary fuel) (primary fuel') (Expr.renumber f) c

namespace ExpressionsCarry

variable {fuel fuel' : Nat}

theorem expression_succ (h : ExpressionsCarry f tail fuel fuel') (c : Cursor) :
    Carries f tail (tail = []) 0 (Reading.expression (fuel + 1)) (Reading.expression (fuel' + 1))
      (Expr.renumber f) c := by
  rw [Reading.expression, Reading.expression]
  apply (h.operation c .or).then
  intro target c₁ _
  apply (carries_takeIf_inside _).then
  rintro (_ | equals) c₂ _
  · exact carries_pure rfl
  apply (h.expression c₂).then
  intro value c₃ _
  rw [assignment?_renumber]
  cases assignment? target value with
  | some build => exact carries_node fun _ => rfl
  | none =>
    apply (carries_note _ _).then
    intro _ c₄ _
    exact carries_pure rfl

theorem operation_succ (h : ExpressionsCarry f tail fuel fuel') (c : Cursor) (level : Level) :
    Carries f tail (tail = []) 0 (Reading.operation (fuel + 1) level)
      (Reading.operation (fuel' + 1) level) (Expr.renumber f) c := by
  by_cases hlevel : level = .unary
  · subst hlevel
    rw [Reading.operation, Reading.operation]
    apply (carries_takeIf_inside _).then
    rintro (_ | operator) c₁ _
    · apply (h.primary c₁).then
      intro expr c₂ _
      exact h.suffixes c₂ expr
    · apply (h.operation c₁ .unary).then
      intro right c₂ _
      exact carries_node fun _ => rfl
  · rw [Reading.operation, Reading.operation]
    · apply (h.operation c level.tighter).then
      intro left c₁ _
      exact h.operands c₁ level left
    · exact hlevel
    · exact hlevel

theorem operands_succ (h : ExpressionsCarry f tail fuel fuel') (c : Cursor) (level : Level)
    (left : Expr) :
    Carries f tail (tail = []) 0 (Reading.operands (fuel + 1) level left)
      (Reading.operands (fuel' + 1) level (left.renumber f)) (Expr.renumber f) c := by
  rw [Reading.operands, Reading.operands]
  apply (carries_takeIf_inside _).then
  rintro (_ | operator) c₁ _
  · exact carries_pure rfl
  apply (h.operation c₁ level.tighter).then
  intro right c₂ _
  apply Carries.then (carries_node fun id => combine_renumber f level left operator right id)
  intro expr c₃ _
  exact h.operands c₃ level expr

theorem suffixes_succ (h : ExpressionsCarry f tail fuel fuel') (c : Cursor) (expr : Expr) :
    Carries f tail (tail = []) 0 (Reading.suffixes (fuel + 1) expr)
      (Reading.suffixes (fuel' + 1) (expr.renumber f)) (Expr.renumber f) c := by
  rw [Reading.suffixes, Reading.suffixes]
  apply carries_nextKind_inside.then
  intro kind c₁ _
  dsimp only [id]
  split
  · apply carries_advance_inside.then
    intro _ c₂ _
    apply (carries_listUntil rfl (h.arguments c₂ 0)).then
    intro args c₃ _
    apply ((carries_want _ _).weaken (Nat.zero_le 1) id).then
    intro paren c₄ _
    apply Carries.then (carries_node fun id => rfl)
    intro call c₅ _
    exact h.suffixes c₅ call
  · apply carries_advance_inside.then
    intro _ c₂ _
    apply ((carries_want _ _).weaken (Nat.zero_le 1) id).then
    intro name c₃ _
    apply Carries.then (carries_node fun id => rfl)
    intro get c₄ _
    exact h.suffixes c₄ get
  · exact carries_pure rfl

theorem arguments_succ (h : ExpressionsCarry f tail fuel fuel') (c : Cursor) (count : Nat) :
    Carries f tail (tail = []) 0 (Reading.arguments (fuel + 1) count)
      (Reading.arguments (fuel' + 1) count) (Expr.renumberAll f) c := by
  rw [Reading.arguments, Reading.arguments]
  apply (carries_checkCount _ _).then
  intro _ c₁ _
  apply (h.expression c₁).then
  intro argument c₂ _
  apply (carries_accept_inside _).then
  intro more c₃ _
  cases more with
  | true =>
    apply (h.arguments c₃ (count + 1)).then
    intro arguments c₄ _
    exact carries_pure rfl
  | false => exact carries_pure rfl

theorem primary_succ (h : ExpressionsCarry f tail fuel fuel') (c : Cursor) :
    Carries f tail (tail = []) 0 (Reading.primary (fuel + 1)) (Reading.primary (fuel' + 1))
      (Expr.renumber f) c := by
  rw [Reading.primary, Reading.primary]
  by_cases hahead : c.ahead = []
  · intro a c₁ hdone
    simp [Action.bind_apply, peek, Action.view, Cursor.peek_eq, hahead, Cursor.kind_ending,
      Action.fail] at hdone
  apply (carries_peek hahead).then
  intro token c₁ _
  rw [Token.kind_renumber]
  split
  · exact carries_constant _
  · exact carries_constant _
  · exact carries_constant _
  · exact carries_constant _
  · exact carries_constant _
  · apply carries_advance_inside.then
    intro _ c₂ _
    exact carries_node fun _ => rfl
  · apply carries_advance_inside.then
    intro _ c₂ _
    exact carries_node fun _ => rfl
  · apply carries_advance_inside.then
    intro _ c₂ _
    apply (h.expression c₂).then
    intro inner c₃ _
    apply ((carries_want _ _).weaken (Nat.zero_le 1) id).then
    intro paren c₄ _
    exact carries_node fun _ => rfl
  · exact carries_fail _ _

end ExpressionsCarry

theorem expressionsCarry {fuel fuel' : Nat} (hle : fuel ≤ fuel') :
    ExpressionsCarry f tail fuel fuel' := by
  induction fuel generalizing fuel' with
  | zero =>
    constructor
    · exact fun c => carries_exhausted _
    · exact fun c level => carries_exhausted _
    · exact fun c level left => carries_exhausted _
    · exact fun c expr => carries_exhausted _
    · exact fun c count => carries_exhausted _
    · exact fun c => carries_exhausted _
  | succ fuel ih =>
    obtain ⟨fuel', rfl⟩ : ∃ n, fuel' = n + 1 := ⟨fuel' - 1, by omega⟩
    have h : ExpressionsCarry f tail fuel fuel' := ih (by omega)
    exact ⟨h.expression_succ, h.operation_succ, h.operands_succ, h.suffixes_succ,
      h.arguments_succ, h.primary_succ⟩

end Inside

section Parts

variable {fuel fuel' : Nat} (hle : fuel ≤ fuel')

theorem carries_want_pure {φ : α → β} {a : α} {b : β} (h : φ a = b) (kind : Kind)
    (wanted : Wanted) :
    Carries f tail e 1 (do let _ ← want kind wanted; return a)
      (do let _ ← want kind wanted; return b) φ c :=
  (carries_want kind wanted).last fun _ _ _ => carries_pure h

theorem carries_conditionOrTrue (condition : Option Expr) :
    Carries f tail e 0 (conditionOrTrue condition)
      (conditionOrTrue (condition.map (Expr.renumber f))) (Expr.renumber f) c := by
  cases condition with
  | none =>
    have htrue (id : Nat) : (Expr.literal id (.bool true)).renumber f = .literal id (.bool true) :=
      rfl
    exact carries_node htrue
  | some condition => exact carries_pure rfl

include hle

theorem carries_expression :
    Carries f tail (tail = []) 0 (expression fuel) (expression fuel') (Expr.renumber f) c :=
  (expressionsCarry hle).expression c

theorem carries_optionalExpression (stop : Kind) :
    Carries f tail (tail = []) 0 (optionalExpression fuel stop) (optionalExpression fuel' stop)
      (Option.map (Expr.renumber f)) c := by
  apply carries_nextKind_inside.then
  intro kind c₁ _
  dsimp only [id]
  split
  · exact carries_pure rfl
  · exact (carries_expression hle).then fun _ _ _ => carries_pure rfl

theorem carries_initializer :
    Carries f tail (tail = []) 0 (initializer fuel) (initializer fuel')
      (Option.map (Expr.renumber f)) c := by
  apply (carries_accept_inside _).then
  intro more c₁ _
  cases more with
  | true => exact (carries_expression hle).then fun _ _ _ => carries_pure rfl
  | false => exact carries_pure rfl

theorem carries_varDeclaration :
    Carries f tail e 1 (varDeclaration fuel) (varDeclaration fuel') (Stmt.renumber f) c := by
  apply (carries_want (e := True) _ _).inside
  intro name c₁ _
  apply (carries_initializer hle).inside
  intro initializer c₂ _
  apply carries_want_pure
  rfl

theorem carries_expressionStatement :
    Carries f tail e 1 (expressionStatement fuel) (expressionStatement fuel') (Stmt.renumber f)
      c := by
  apply (carries_expression hle).inside
  intro expr c₁ _
  apply carries_want_pure
  rfl

theorem carries_printStatement :
    Carries f tail e 1 (printStatement fuel) (printStatement fuel') (Stmt.renumber f) c := by
  apply (carries_expression hle).inside
  intro expr c₁ _
  apply carries_want_pure
  rfl

theorem carries_returnStatement (keyword : Token) :
    Carries f tail e 1 (returnStatement fuel keyword)
      (returnStatement fuel' (keyword.renumber f)) (Stmt.renumber f) c := by
  apply (carries_optionalExpression hle _).inside
  intro value c₁ _
  apply carries_want_pure
  rfl

theorem carries_condition (opening closing : Wanted) :
    Carries f tail e 1 (condition fuel opening closing) (condition fuel' opening closing)
      (Expr.renumber f) c := by
  apply (carries_want (e := True) _ _).inside
  intro _ c₁ _
  apply (carries_expression hle).inside
  intro expr c₂ _
  apply carries_want_pure
  rfl

theorem carries_parameters (count : Nat) :
    Carries f tail (tail = []) 0 (parameters fuel count) (parameters fuel' count)
      (List.map (Token.renumber f)) c := by
  induction fuel generalizing fuel' count c with
  | zero => exact carries_exhausted _
  | succ fuel ih =>
    obtain ⟨fuel', rfl⟩ : ∃ n, fuel' = n + 1 := ⟨fuel' - 1, by omega⟩
    apply (carries_checkCount _ _).then
    intro _ c₁ _
    apply ((carries_want _ _).weaken (Nat.zero_le 1) id).then
    intro parameter c₂ _
    apply (carries_accept_inside _).then
    intro more c₃ _
    cases more with
    | true => exact (ih (by omega) (count + 1)).then fun _ _ _ => carries_pure rfl
    | false => exact carries_pure rfl

theorem carries_forInitializer :
    Carries f tail (tail = []) 0 (forInitializer fuel) (forInitializer fuel')
      (Option.map (Stmt.renumber f)) c := by
  apply carries_nextKind_inside.then
  intro kind c₁ _
  dsimp only [id]
  split
  · exact carries_advance_inside.then fun _ _ _ => carries_pure rfl
  · apply carries_advance_inside.then
    intro _ c₂ _
    apply ((carries_varDeclaration hle).weaken (Nat.zero_le 1) id).then
    intro stmt c₃ _
    exact carries_pure rfl
  · apply ((carries_expressionStatement hle).weaken (Nat.zero_le 1) id).then
    intro stmt c₂ _
    exact carries_pure rfl

def ForClauses.renumber (f : Nat → Nat) (clauses : ForClauses) : ForClauses :=
  ⟨clauses.initializer.map (Stmt.renumber f), clauses.condition.map (Expr.renumber f),
    clauses.increment.map (Expr.renumber f)⟩

theorem carries_forClauses :
    Carries f tail e 1 (forClauses fuel) (forClauses fuel') (ForClauses.renumber f) c := by
  apply (carries_want (e := True) _ _).inside
  intro _ c₁ _
  apply (carries_forInitializer hle).inside
  intro initializer c₂ _
  apply (carries_optionalExpression hle _).inside
  intro condition c₃ _
  apply (carries_want (e := True) _ _).inside
  intro _ c₄ _
  apply (carries_optionalExpression hle _).inside
  intro increment c₅ _
  apply carries_want_pure
  rfl

end Parts

/-- Something without tokens is not read from nothing. -/
theorem carries_of_nil {short : Prop} {x : Reading α} {y : Reading β} {φ : α → β}
    (hends : Ends short 1 x c) (hnil : c.ahead = []) : Carries f tail e 1 x y φ c := by
  intro a c₁ hdone
  unfold Ends at hends
  rw [hdone] at hends
  have hle : c₁.ahead.length + 1 ≤ c.ahead.length := hends.length_le
  rw [hnil, List.length_nil] at hle
  omega

theorem forLoop_renumber (f : Nat → Nat) (initializer : Option Stmt) (condition : Expr)
    (increment : Option Expr) (body : Stmt) :
    (forLoop initializer condition increment body).renumber f =
      forLoop (initializer.map (Stmt.renumber f)) (condition.renumber f)
        (increment.map (Expr.renumber f)) (body.renumber f) := by
  cases initializer <;> cases increment <;> rfl

/-- What follows does not go on with an `else`. -/
def NoElse (tail : List Token) : Prop := ∀ token ∈ tail.head?, token.kind ≠ .elseKw

/-- The rules for statements read the same with more behind it and more fuel. Only statements may
end where the tokens end. -/
structure StatementsCarry (f : Nat → Nat) (tail : List Token) (fuel fuel' : Nat) : Prop where
  declaration : ∀ (e : Prop), (e → NoElse tail) → ∀ c, c.ahead ≠ [] →
    Carries f tail e 1 (declaration fuel) (declaration fuel') (Option.map (Stmt.renumber f)) c
  declared : ∀ (e : Prop), (e → NoElse tail) → ∀ c,
    Carries f tail e 1 (declared fuel) (declared fuel') (Stmt.renumber f) c
  routine : ∀ (e : Prop) kind c,
    Carries f tail e 1 (routine fuel kind) (routine fuel' kind) (FunctionDecl.renumber f) c
  methods : ∀ c,
    Carries f tail (tail = []) 0 (methods fuel) (methods fuel') (FunctionDecl.renumberAll f) c
  block : ∀ (e : Prop) c,
    Carries f tail e 1 (block fuel) (block fuel') (Stmt.renumberAll f) c
  declarations : ∀ stop c, Carries f tail (tail = []) 0 (declarations fuel stop)
    (declarations fuel' stop) (Stmt.renumberAll f) c
  statement : ∀ (e : Prop), (e → NoElse tail) → ∀ c,
    Carries f tail e 1 (statement fuel) (statement fuel') (Stmt.renumber f) c

namespace StatementsCarry

variable {fuel fuel' : Nat}

theorem declaration_succ (h : StatementsCarry f tail fuel fuel') (he : e → NoElse tail)
    (c : Cursor) (hahead : c.ahead ≠ []) :
    Carries f tail e 1 (Reading.declaration (fuel + 1)) (Reading.declaration (fuel' + 1))
      (Option.map (Stmt.renumber f)) c := by
  intro found c₁ hdone
  have hends := (statementsEnd (fuel + 1)).declaration c hahead
  unfold Ends at hends
  rw [hdone] at hends
  refine ⟨hends, ?_⟩
  intro c' hc' hfaults hend
  rw [Reading.declaration, Action.bind_apply, Action.attempt] at hdone ⊢
  cases hresult : Reading.declared fuel c with
  | done stmt c₀ =>
    rw [hresult] at hdone
    cases hdone
    obtain ⟨-, hcarry⟩ := h.declared e he c stmt c₁ hresult
    obtain ⟨c₁', hdone', hc₁'⟩ := hcarry c' hc' hfaults hend
    exact ⟨c₁', by rw [hdone']; rfl, hc₁'⟩
  | failed fault c₀ =>
    rw [hresult] at hdone
    cases hdone
    simp at hfaults
  | exhausted =>
    rw [hresult] at hdone
    cases hdone

theorem declared_succ (h : StatementsCarry f tail fuel fuel') (hle : fuel ≤ fuel')
    (he : e → NoElse tail) (c : Cursor) :
    Carries f tail e 1 (Reading.declared (fuel + 1)) (Reading.declared (fuel' + 1))
      (Stmt.renumber f) c := by
  by_cases hahead : c.ahead = []
  · exact carries_of_nil ((statementsEnd (fuel + 1)).declared c) hahead
  have hsome {P : Prop} (hnil : c.ahead = []) : P := absurd hnil hahead
  rw [Reading.declared, Reading.declared]
  apply (carries_nextKind hsome).then
  intro kind c₁ hkind
  cases hkind
  dsimp only [id]
  split
  · apply (carries_advance hsome).then
    intro _ c₂ _
    apply (carries_want (e := True) _ _).inside
    intro name c₃ _
    apply (carries_want (e := True) _ _).inside
    intro _ c₄ _
    apply (h.methods c₄).inside
    intro methods c₅ _
    apply carries_want_pure
    rfl
  · apply (carries_advance hsome).then
    intro _ c₂ _
    exact (h.routine e _ c₂).last fun _ _ _ => carries_pure rfl
  · apply (carries_advance hsome).then
    intro _ c₂ _
    exact carries_varDeclaration hle
  · exact h.statement e he c

theorem routine_succ (h : StatementsCarry f tail fuel fuel') (hle : fuel ≤ fuel') (kind : Routine)
    (c : Cursor) :
    Carries f tail e 1 (Reading.routine (fuel + 1) kind) (Reading.routine (fuel' + 1) kind)
      (FunctionDecl.renumber f) c := by
  rw [Reading.routine, Reading.routine]
  apply (carries_want (e := True) _ _).inside
  intro name c₁ _
  apply (carries_want (e := True) _ _).inside
  intro _ c₂ _
  apply (carries_listUntil rfl (carries_parameters hle 0)).inside
  intro params c₃ _
  apply (carries_want (e := True) _ _).inside
  intro _ c₄ _
  apply (carries_want (e := True) _ _).inside
  intro _ c₅ _
  exact (h.block e c₅).last fun _ _ _ => carries_pure rfl

theorem methods_succ (h : StatementsCarry f tail fuel fuel') (c : Cursor) :
    Carries f tail (tail = []) 0 (Reading.methods (fuel + 1)) (Reading.methods (fuel' + 1))
      (FunctionDecl.renumberAll f) c := by
  rw [Reading.methods, Reading.methods]
  apply (carries_isAtEnd fun _ h => h).then
  intro atEnd c₁ _
  apply carries_nextKind_inside.then
  intro kind c₂ _
  dsimp only [id]
  split
  · exact carries_pure rfl
  · apply ((h.routine _ _ c₂).weaken (Nat.zero_le 1) id).then
    intro method c₃ _
    exact (h.methods c₃).then fun _ _ _ => carries_pure rfl

theorem block_succ (h : StatementsCarry f tail fuel fuel') (c : Cursor) :
    Carries f tail e 1 (Reading.block (fuel + 1)) (Reading.block (fuel' + 1))
      (Stmt.renumberAll f) c := by
  rw [Reading.block, Reading.block]
  apply (h.declarations _ c).inside
  intro body c₁ _
  apply carries_want_pure
  rfl

theorem renumberAll_toList_append (f : Nat → Nat) (stmt : Option Stmt) (stmts : List Stmt) :
    Stmt.renumberAll f (stmt.toList ++ stmts) =
      (stmt.map (Stmt.renumber f)).toList ++ Stmt.renumberAll f stmts := by
  cases stmt <;> rfl

theorem declarations_succ (h : StatementsCarry f tail fuel fuel') (stop : Kind) (c : Cursor) :
    Carries f tail (tail = []) 0 (Reading.declarations (fuel + 1) stop)
      (Reading.declarations (fuel' + 1) stop) (Stmt.renumberAll f) c := by
  rw [Reading.declarations, Reading.declarations]
  apply (carries_isAtEnd fun _ h => h).then
  intro atEnd c₁ hatEnd
  cases hatEnd
  apply carries_nextKind_inside.then
  intro kind c₂ hkind
  cases hkind
  dsimp only [id]
  split
  · exact carries_pure rfl
  · next hmore =>
    have hahead : c.ahead ≠ [] := by
      intro hahead
      simp [Cursor.isAtEnd_eq, hahead] at hmore
    have hdecl := h.declaration (tail = []) (by rintro rfl; simp [NoElse]) c hahead
    apply (hdecl.weaken (Nat.zero_le 1) id).then
    intro stmt c₃ _
    apply (h.declarations stop c₃).then
    intro stmts c₄ _
    exact carries_pure (renumberAll_toList_append f stmt stmts)

theorem statement_succ (h : StatementsCarry f tail fuel fuel') (hle : fuel ≤ fuel')
    (he : e → NoElse tail) (c : Cursor) :
    Carries f tail e 1 (Reading.statement (fuel + 1)) (Reading.statement (fuel' + 1))
      (Stmt.renumber f) c := by
  by_cases hahead : c.ahead = []
  · exact carries_of_nil ((statementsEnd (fuel + 1)).statement c) hahead
  have hsome {P : Prop} (hnil : c.ahead = []) : P := absurd hnil hahead
  rw [Reading.statement, Reading.statement]
  apply (carries_peek hahead).then
  intro token c₁ htoken
  cases htoken
  rw [Token.kind_renumber]
  split
  · apply (carries_advance hsome).then
    intro _ c₂ _
    apply (carries_forClauses (e := True) hle).inside
    intro clauses c₃ _
    apply (h.statement e he c₃).last
    intro body c₄ _
    apply (carries_conditionOrTrue _).then
    intro condition c₅ _
    exact carries_pure (forLoop_renumber f _ _ _ _)
  · apply (carries_advance hsome).then
    intro _ c₂ _
    apply (carries_condition (e := True) hle _ _).inside
    intro condition c₃ _
    apply (h.statement e he c₃).last
    intro thenBranch c₄ _
    apply (carries_accept fun _ h => he h).then
    intro hasElse c₅ _
    cases hasElse with
    | true =>
      apply ((h.statement e he c₅).weaken (Nat.zero_le 1) id).then
      intro elseBranch c₆ _
      exact carries_pure rfl
    | false => exact carries_pure rfl
  · apply (carries_advance hsome).then
    intro _ c₂ _
    apply (carries_condition (e := True) hle _ _).inside
    intro condition c₃ _
    exact (h.statement e he c₃).last fun _ _ _ => carries_pure rfl
  · apply (carries_advance hsome).then
    intro _ c₂ _
    exact carries_returnStatement hle _
  · apply (carries_advance hsome).then
    intro _ c₂ _
    exact (h.block e c₂).last fun _ _ _ => carries_pure rfl
  · apply (carries_advance hsome).then
    intro _ c₂ _
    exact carries_printStatement hle
  · exact carries_expressionStatement hle

end StatementsCarry

theorem statementsCarry {fuel fuel' : Nat} (hle : fuel ≤ fuel') :
    StatementsCarry f tail fuel fuel' := by
  induction fuel generalizing fuel' with
  | zero =>
    constructor
    · exact fun e _ c _ => carries_exhausted _
    · exact fun e _ c => carries_exhausted _
    · exact fun e kind c => carries_exhausted _
    · exact fun c => carries_exhausted _
    · exact fun e c => carries_exhausted _
    · exact fun stop c => carries_exhausted _
    · exact fun e _ c => carries_exhausted _
  | succ fuel ih =>
    obtain ⟨fuel', rfl⟩ : ∃ n, fuel' = n + 1 := ⟨fuel' - 1, by omega⟩
    have hle' : fuel ≤ fuel' := by omega
    have h : StatementsCarry f tail fuel fuel' := ih hle'
    exact ⟨fun _ he => h.declaration_succ he, fun _ he => h.declared_succ hle' he,
      fun _ => h.routine_succ hle', h.methods_succ, fun _ => h.block_succ, h.declarations_succ,
      fun _ he => h.statement_succ hle' he⟩

section Else

variable {x : Reading α} {p : α → Reading β} {token : Token} {rest : List Token}

/-- Nothing is read from here. -/
def Refuses (x : Reading α) (c : Cursor) : Prop := ∀ a c₁, x c ≠ .done a c₁

theorem Refuses.bind (h : Refuses x c) (p : α → Reading β) : Refuses (x >>= p) c := by
  intro b c₂ hdone
  obtain ⟨a, c₁, hx, -⟩ := Action.bind_eq_done_iff.mp hdone
  exact h a c₁ hx

theorem refuses_operation (hahead : c.ahead = token :: rest) (hkind : token.kind = .elseKw)
    (fuel : Nat) (level : Level) : Refuses (operation fuel level) c := by
  induction fuel generalizing level with
  | zero =>
    intro a c₁ hdone
    cases hdone
  | succ fuel ih =>
    by_cases hlevel : level = .unary
    · subst hlevel
      have hprimary : Refuses (primary fuel) c := by
        intro a c₁ hdone
        cases fuel with
        | zero => cases hdone
        | succ fuel =>
          simp [primary, Action.bind_apply, peek, Action.view, Cursor.peek_eq, hahead, hkind,
            Action.fail] at hdone
      have htake : takeIf (Level.joins .unary) c = .done none c :=
        takeIf_of_forall (by simp [hahead, hkind, Level.joins])
      intro a c₁ hdone
      rw [operation, Action.bind_apply, htake] at hdone
      exact (hprimary.bind _) a c₁ hdone
    · rw [operation]
      · exact (ih level.tighter).bind _
      · exact hlevel

/-- An `else` starts neither a declaration nor a statement. -/
theorem refuses_declared (hahead : c.ahead = token :: rest) (hkind : token.kind = .elseKw)
    (fuel : Nat) : Refuses (declared fuel) c := by
  have hexpression (n : Nat) : Refuses (expression n) c := by
    cases n with
    | zero =>
      intro a c₁ hdone
      cases hdone
    | succ n =>
      rw [expression]
      exact (refuses_operation hahead hkind n .or).bind _
  have hstatement (n : Nat) : Refuses (statement n) c := by
    intro a c₁ hdone
    cases n with
    | zero => cases hdone
    | succ n =>
      have hpeek : peek c = .done token c := by simp [peek, Action.view, Cursor.peek_eq, hahead]
      rw [statement, Action.bind_apply, hpeek] at hdone
      simp only [hkind] at hdone
      exact ((hexpression n).bind _) a c₁ hdone
  intro a c₁ hdone
  cases fuel with
  | zero => cases hdone
  | succ fuel =>
    have hnext : nextKind c = .done .elseKw c := by
      simp [nextKind, Action.view, Cursor.peek_eq, hahead, hkind]
    rw [declared, Action.bind_apply, hnext] at hdone
    exact hstatement fuel a c₁ hdone

end Else

section Programs

variable {fuel fuel' : Nat} {stmts : List Stmt} {c c' c₁ : Cursor}

theorem declarations_of_nil (hahead : c.ahead = []) (fuel : Nat) :
    declarations (fuel + 1) .eof c = .done [] c := by
  simp [declarations, Action.bind_apply, isAtEnd, nextKind, Action.view, Cursor.isAtEnd_eq, hahead,
    Action.pure_apply]

theorem declarations_of_ne_nil (hahead : c.ahead ≠ []) (fuel : Nat) :
    declarations (fuel + 1) .eof c =
      (do return (← declaration fuel).toList ++ (← declarations fuel .eof)) c := by
  have hkind := Cursor.kind_peek_ne_eof hahead
  simp [declarations, Action.bind_apply, isAtEnd, nextKind, Action.view, Cursor.isAtEnd_eq, hahead,
    hkind]

/-- Declarations come one by one, up to the end. -/
theorem declarations_cases
    (hdone : declarations (fuel + 1) .eof c = .done stmts c₁) :
    (c.ahead = [] ∧ stmts = [] ∧ c₁ = c) ∨
      ∃ stmt c₂ stmts', c.ahead ≠ [] ∧ declaration fuel c = .done stmt c₂ ∧
        declarations fuel .eof c₂ = .done stmts' c₁ ∧ stmts = stmt.toList ++ stmts' := by
  by_cases hahead : c.ahead = []
  · rw [declarations_of_nil hahead] at hdone
    cases hdone
    exact .inl ⟨hahead, rfl, rfl⟩
  · rw [declarations_of_ne_nil hahead] at hdone
    obtain ⟨stmt, c₂, hstmt, hrest⟩ := Action.bind_eq_done_iff.mp hdone
    obtain ⟨stmts', c₃, hstmts, hpure⟩ := Action.bind_eq_done_iff.mp hrest
    cases hpure
    exact .inr ⟨stmt, c₂, stmts', hahead, hstmt, hstmts, rfl⟩

theorem faults_of_declarations {stop : Kind}
    (hdone : declarations fuel stop c = .done stmts c₁) (hfaults : c₁.faults = #[]) :
    c.faults = #[] := by
  have hends := (statementsEnd fuel).declarations c stop
  unfold Ends at hends
  rw [hdone] at hends
  have hle := hends.faults
  rw [hfaults] at hle
  exact Array.eq_empty_of_size_eq_zero (Nat.le_zero.mp hle)

/-- A program that is read without a fault starts with no `else`. -/
theorem noElse_of_declarations (hdone : declarations fuel .eof c = .done stmts c₁)
    (hfaults : c₁.faults = #[]) : NoElse c.ahead := by
  intro token htoken hkind
  obtain ⟨rest, hahead⟩ := List.head?_eq_some_iff.mp htoken
  cases fuel with
  | zero => cases hdone
  | succ fuel =>
    rcases declarations_cases hdone with ⟨hnil, -⟩ | ⟨stmt, c₂, stmts', -, hstmt, hrest, -⟩
    · simp [hnil] at hahead
    · have hfaults₂ := faults_of_declarations hrest hfaults
      cases fuel with
      | zero => cases hstmt
      | succ fuel =>
        rw [declaration, Action.bind_apply, Action.attempt] at hstmt
        cases hresult : declared fuel c with
        | done a c₃ => exact refuses_declared hahead hkind fuel a c₃ hresult
        | failed fault c₃ =>
          rw [hresult] at hstmt
          cases hstmt
          simp at hfaults₂
        | exhausted =>
          rw [hresult] at hstmt
          cases hstmt

/-- Behind the declarations of a program, what follows it is read. -/
theorem declarations_append (hdone : declarations fuel .eof c = .done stmts c₁)
    (hfaults : c₁.faults = #[]) (hc' : c.Precedes f tail c') (helse : NoElse tail)
    (hle : fuel ≤ fuel') :
    c₁.ahead = [] ∧ ∃ n c₁', n ≤ c.ahead.length ∧ c₁.Precedes f tail c₁' ∧
      c₁'.ending = c'.ending ∧ declarations fuel' .eof c' =
        (do return Stmt.renumberAll f stmts ++ (← declarations (fuel' - n) .eof)) c₁' := by
  induction fuel generalizing fuel' c c' stmts with
  | zero => cases hdone
  | succ fuel ih =>
    rcases declarations_cases hdone with
      ⟨hahead, rfl, rfl⟩ | ⟨stmt, c₂, stmts', hahead, hstmt, hrest, rfl⟩
    · refine ⟨hahead, 0, c', Nat.zero_le _, hc', rfl, ?_⟩
      simp [Stmt.renumberAll]
    · obtain ⟨fuel', rfl⟩ : ∃ n, fuel' = n + 1 := ⟨fuel' - 1, by omega⟩
      have hle' : fuel ≤ fuel' := by omega
      have hfaults₂ := faults_of_declarations hrest hfaults
      have hahead' : c'.ahead ≠ [] := by
        rw [hc'.ahead]
        simp [hahead]
      obtain ⟨hpass, hcarry⟩ := (statementsCarry hle').declaration True (fun _ => helse) c hahead
        stmt c₂ hstmt
      obtain ⟨c₂', hstmt', hc₂'⟩ := hcarry c' hc' hfaults₂ fun _ => trivial
      obtain ⟨hend, n, c₁', hn, hc₁', hending₁, hdone'⟩ := ih hrest hc₂' hle'
      refine ⟨hend, n + 1, c₁', ?_, hc₁', ?_, ?_⟩
      · have hlength := hpass.length_le
        omega
      · have hends := (statementsEnd fuel').declaration c' hahead'
        unfold Ends at hends
        rw [hstmt'] at hends
        exact hending₁.trans hends.ending
      · rw [declarations_of_ne_nil hahead', Action.bind_apply, hstmt']
        dsimp only
        rw [Action.bind_apply, hdone', StatementsCarry.renumberAll_toList_append,
          Nat.add_sub_add_right, Action.bind_apply, Action.bind_apply]
        cases declarations (fuel' - n) .eof c₁' <;> simp [Action.pure_apply]

end Programs

end Reading

theorem Cursor.ahead_start_append_eof {tokens : List Token} {ending : Token}
    (htokens : ∀ token ∈ tokens, token.kind ≠ .eof) (hending : ending.kind = .eof)
    (firstId : Nat) : (start (tokens ++ [ending]) firstId).ahead = tokens := by
  rw [ahead_start, List.takeWhile_append_of_pos (by simpa using htokens)]
  simp [hending]

namespace Program

theorem exists_of_faults_eq_nil {tokens : List Token} {firstId : Nat}
    (h : (ofTokens tokens firstId).faults = []) :
    ∃ c, Reading.declarations (fuelFor tokens.length) .eof (Cursor.start tokens firstId) =
        .done (ofTokens tokens firstId).statements c ∧
      c.faults = #[] ∧ c.nextId = (ofTokens tokens firstId).nextId := by
  have hends := declarations_ne_exhausted tokens firstId
  unfold ofTokens at h ⊢
  split
  · next stmts c hdone =>
    rw [hdone] at h
    exact ⟨c, hdone, by simpa using h, rfl⟩
  · next fault c hfailed =>
    rw [hfailed] at h
    simp at h
  · next hexhausted => exact absurd hexhausted hends

/-- Two lists of tokens that can be read without a fault can be read one after the other, the second
on other lines; identities go on from the first to the second. -/
theorem ofTokens_append {left right : List Token} {ending ending' ending'' : Token}
    {f : Nat → Nat} {firstId : Nat} (hleft : ∀ token ∈ left, token.kind ≠ .eof)
    (hright : ∀ token ∈ right, token.kind ≠ .eof) (hending : ending.kind = .eof)
    (hending' : ending'.kind = .eof) (hending'' : ending''.kind = .eof)
    (h : (ofTokens (left ++ [ending]) firstId).faults = [])
    (h' : (ofTokens (right ++ [ending'])
      (ofTokens (left ++ [ending]) firstId).nextId).faults = []) :
    ofTokens (left ++ right.map (Token.renumber f) ++ [ending'']) firstId =
      let first := ofTokens (left ++ [ending]) firstId
      let second := ofTokens (right ++ [ending']) first.nextId
      ⟨first.statements ++ Stmt.renumberAll f second.statements, [], second.nextId⟩ := by
  obtain ⟨c₁, hdone₁, hfaults₁, hnext₁⟩ := exists_of_faults_eq_nil h
  obtain ⟨c₂, hdone₂, hfaults₂, hnext₂⟩ := exists_of_faults_eq_nil h'
  have hahead₁ := Cursor.ahead_start_append_eof hleft hending firstId
  have hahead₂ :=
    Cursor.ahead_start_append_eof hright hending' (ofTokens (left ++ [ending]) firstId).nextId
  have hright' : ∀ token ∈ right.map (Token.renumber f), token.kind ≠ .eof := by
    simpa using hright
  have hboth : ∀ token ∈ left ++ right.map (Token.renumber f), token.kind ≠ .eof :=
    List.forall_mem_append.mpr ⟨hleft, hright'⟩
  have hahead := Cursor.ahead_start_append_eof hboth hending'' firstId
  -- an `else` at the start of the second list would be a fault there
  have helse : Reading.NoElse (right.map (Token.renumber f)) := by
    have helse' := Reading.noElse_of_declarations hdone₂ hfaults₂
    rw [hahead₂] at helse'
    intro token htoken
    rw [List.head?_map] at htoken
    obtain ⟨original, horiginal, rfl⟩ := Option.map_eq_some_iff.mp htoken
    exact helse' original horiginal
  have hstart : (Cursor.start (left ++ [ending]) firstId).Precedes (fun line => line)
      (right.map (Token.renumber f))
      (Cursor.start (left ++ right.map (Token.renumber f) ++ [ending'']) firstId) :=
    ⟨by rw [hahead₁, hahead, Token.map_renumber_id], rfl, rfl⟩
  have hle : fuelFor (left ++ [ending]).length ≤
      fuelFor (left ++ right.map (Token.renumber f) ++ [ending'']).length := by
    simp only [fuelFor, List.length_append, List.length_map, List.length_singleton]
    omega
  obtain ⟨hend, n, c₁', hn, hc₁', -, hjoined⟩ :=
    Reading.declarations_append hdone₁ hfaults₁ hstart helse hle
  -- behind the first list stands the second one, with fuel enough
  have hsecond : (Cursor.start (right ++ [ending'])
      (ofTokens (left ++ [ending]) firstId).nextId).Precedes f [] c₁' :=
    ⟨by simpa [hend, hahead₂] using hc₁'.ahead, hc₁'.nextId.trans hnext₁, hc₁'.faults⟩
  have hle' : fuelFor (right ++ [ending']).length ≤
      fuelFor (left ++ right.map (Token.renumber f) ++ [ending'']).length - n := by
    rw [hahead₁] at hn
    simp only [fuelFor, List.length_append, List.length_map, List.length_singleton]
    omega
  obtain ⟨-, hcarry⟩ := (Reading.statementsCarry hle').declarations .eof _ _ c₂ hdone₂
  obtain ⟨c₂', hdone₂', hc₂'⟩ := hcarry c₁' hsecond hfaults₂ fun _ => rfl
  rw [Action.bind_apply, hdone₂', Stmt.renumberAll_id] at hjoined
  rw [ofTokens, hjoined]
  simp [Action.pure_apply, hc₂'.faults, hc₂'.nextId, hnext₂]

end Program
end LoxLang
