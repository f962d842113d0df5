import LoxLang.Grammar.Statement

/-!
# Laws of readings

A law compares two readings from a cursor. If it holds of each elementary step, and of a sequence
and of a caught failure as soon as it holds of their parts, then it holds between every rule of the
grammar and the same rule with more fuel (`Law.everyRule`). So what is said of all rules alike
passes through the grammar here once and for all.
-/
namespace LoxLang
namespace Reading

section Rules

/-! The rules of the grammar, each as a reading that depends on the fuel. -/

variable (P : ∀ {α : Type}, (Nat → Reading α) → Prop)

structure EveryExpressionRule : Prop where
  expression : P Reading.expression
  operation : ∀ level, P (operation · level)
  operands : ∀ level left, P (operands · level left)
  suffixes : ∀ expr, P (suffixes · expr)
  arguments : ∀ count, P (arguments · count)
  primary : P primary

structure EveryPart : Prop where
  parameters : ∀ count, P (parameters · count)
  optionalExpression : ∀ stop, P (optionalExpression · stop)
  initializer : P initializer
  varDeclaration : P varDeclaration
  expressionStatement : P expressionStatement
  printStatement : P printStatement
  returnStatement : ∀ keyword, P (returnStatement · keyword)
  condition : ∀ opening closing, P (condition · opening closing)
  forInitializer : P forInitializer
  forClauses : P forClauses

structure EveryStatementRule : Prop where
  declaration : P declaration
  declared : P declared
  routine : ∀ kind, P (routine · kind)
  methods : P methods
  block : P block
  declarations : ∀ stop, P (declarations · stop)
  statement : P statement

/-- All rules have the property. -/
structure EveryRule : Prop extends EveryExpressionRule P, EveryPart P, EveryStatementRule P

end Rules

/-- A law that compares two readings from a cursor. -/
structure Law (R : ∀ {α : Type}, Reading α → Reading α → Cursor → Prop) : Prop where
  pure : ∀ {α : Type} (a : α) (c : Cursor), R (Pure.pure a) (Pure.pure a) c
  exhausted : ∀ {α : Type} (y : Reading α) (c : Cursor), R Action.exhausted y c
  bind : ∀ {α β : Type} {x y : Reading α} {f g : α → Reading β} {c : Cursor}, R x y c →
    (∀ a c', x c = .done a c' → R (f a) (g a) c') → R (x >>= f) (y >>= g) c
  attempt : ∀ {α : Type} {x y : Reading α} {c : Cursor}, R x y c → R x.attempt y.attempt c
  /-- The fault is found at the next token. -/
  fail : ∀ {α : Type} (fault : GrammarFault) (c : Cursor), fault.token = c.peek →
    R (Action.fail fault : Reading α) (Action.fail fault) c
  peek : ∀ c, R peek peek c
  isAtEnd : ∀ c, R isAtEnd isAtEnd c
  nextKind : ∀ c, R nextKind nextKind c
  advance : ∀ c, R advance advance c
  takeIf : ∀ p c, R (takeIf p) (takeIf p) c
  note : ∀ fault c, R (note fault) (note fault) c
  node : ∀ build c, R (node build) (node build) c
  resume : ∀ c, R resume resume c

namespace Law

variable {R : ∀ {α : Type}, Reading α → Reading α → Cursor → Prop} (h : Law R) {α : Type}
include h

theorem accept (kind : Kind) (c : Cursor) : R (accept kind) (Reading.accept kind) c := by
  apply h.bind (h.takeIf _ c)
  intro found c₁ _
  exact h.pure _ c₁

theorem want (kind : Kind) (wanted : Wanted) (c : Cursor) :
    R (want kind wanted) (Reading.want kind wanted) c := by
  apply h.bind (h.takeIf _ c)
  rintro (_ | token) c₁ _
  · apply h.bind (h.peek c₁)
    intro token c₂ hpeek
    cases hpeek
    exact h.fail _ c₁ rfl
  · exact h.pure token c₁

theorem checkCount (count : Nat) (cause : GrammarCause) (c : Cursor) :
    R (checkCount count cause) (Reading.checkCount count cause) c := by
  unfold Reading.checkCount
  split
  · apply h.bind (h.peek c)
    intro token c₁ _
    exact h.note _ c₁
  · exact h.pure () c

theorem listUntil {x y : Reading (List α)} {c : Cursor} (stop : Kind) (hlist : R x y c) :
    R (listUntil stop x) (Reading.listUntil stop y) c := by
  apply h.bind (h.nextKind c)
  intro kind c₁ hkind
  cases hkind
  split
  · exact h.pure [] c
  · exact hlist

theorem constant (value : Literal) (c : Cursor) :
    R (constant value) (Reading.constant value) c := by
  apply h.bind (h.advance c)
  intro _ c₁ _
  exact h.node _ c₁

section Expressions

variable {fuel fuel' : Nat}
  (ih : EveryExpressionRule fun rule => ∀ c, R (rule fuel) (rule fuel') c)
include ih

theorem expression_succ (c : Cursor) :
    R (expression (fuel + 1)) (expression (fuel' + 1)) c := by
  rw [expression, expression]
  apply h.bind (ih.operation .or c)
  intro target c₁ _
  apply h.bind (h.takeIf _ c₁)
  rintro (_ | equals) c₂ _
  · exact h.pure target c₂
  apply h.bind (ih.expression c₂)
  intro value c₃ _
  split
  · exact h.node _ c₃
  · apply h.bind (h.note _ c₃)
    intro _ c₄ _
    exact h.pure target c₄

theorem operation_succ (level : Level) (c : Cursor) :
    R (operation (fuel + 1) level) (operation (fuel' + 1) level) c := by
  by_cases hlevel : level = .unary
  · subst hlevel
    rw [operation, operation]
    apply h.bind (h.takeIf _ c)
    rintro (_ | operator) c₁ _
    · apply h.bind (ih.primary c₁)
      intro expr c₂ _
      exact ih.suffixes expr c₂
    · apply h.bind (ih.operation .unary c₁)
      intro right c₂ _
      exact h.node _ c₂
  · rw [operation, operation]
    · apply h.bind (ih.operation level.tighter c)
      intro left c₁ _
      exact ih.operands level left c₁
    · exact hlevel
    · exact hlevel

theorem operands_succ (level : Level) (left : Expr) (c : Cursor) :
    R (operands (fuel + 1) level left) (operands (fuel' + 1) level left) c := by
  rw [operands, operands]
  apply h.bind (h.takeIf _ c)
  rintro (_ | operator) c₁ _
  · exact h.pure left c₁
  apply h.bind (ih.operation level.tighter c₁)
  intro right c₂ _
  apply h.bind (h.node _ c₂)
  intro expr c₃ _
  exact ih.operands level expr c₃

theorem suffixes_succ (expr : Expr) (c : Cursor) :
    R (suffixes (fuel + 1) expr) (suffixes (fuel' + 1) expr) c := by
  rw [suffixes, suffixes]
  apply h.bind (h.nextKind c)
  intro kind c₁ _
  split
  · apply h.bind (h.advance c₁)
    intro _ c₂ _
    apply h.bind (h.listUntil .rightParen (ih.arguments 0 c₂))
    intro args c₃ _
    apply h.bind (h.want _ _ c₃)
    intro paren c₄ _
    apply h.bind (h.node _ c₄)
    intro call c₅ _
    exact ih.suffixes call c₅
  · apply h.bind (h.advance c₁)
    intro _ c₂ _
    apply h.bind (h.want _ _ c₂)
    intro name c₃ _
    apply h.bind (h.node _ c₃)
    intro get c₄ _
    exact ih.suffixes get c₄
  · exact h.pure expr c₁

theorem arguments_succ (count : Nat) (c : Cursor) :
    R (arguments (fuel + 1) count) (arguments (fuel' + 1) count) c := by
  rw [arguments, arguments]
  apply h.bind (h.checkCount _ _ c)
  intro _ c₁ _
  apply h.bind (ih.expression c₁)
  intro argument c₂ _
  apply h.bind (h.accept _ c₂)
  rintro (_ | _) c₃ _
  · exact h.pure _ c₃
  · apply h.bind (ih.arguments (count + 1) c₃)
    intro arguments c₄ _
    exact h.pure _ c₄

theorem primary_succ (c : Cursor) : R (primary (fuel + 1)) (primary (fuel' + 1)) c := by
  rw [primary, primary]
  apply h.bind (h.peek c)
  intro token c₁ hpeek
  cases hpeek
  split
  · exact h.constant _ c
  · exact h.constant _ c
  · exact h.constant _ c
  · exact h.constant _ c
  · exact h.constant _ c
  · apply h.bind (h.advance c)
    intro _ c₁ _
    exact h.node _ c₁
  · apply h.bind (h.advance c)
    intro _ c₁ _
    exact h.node _ c₁
  · apply h.bind (h.advance c)
    intro _ c₁ _
    apply h.bind (ih.expression c₁)
    intro inner c₂ _
    apply h.bind (h.want _ _ c₂)
    intro _ c₃ _
    exact h.node _ c₃
  · exact h.fail _ c rfl

end Expressions

theorem everyExpressionRule {fuel fuel' : Nat} (hle : fuel ≤ fuel') :
    EveryExpressionRule fun rule => ∀ c, R (rule fuel) (rule fuel') c := by
  induction fuel generalizing fuel' with
  | zero =>
    constructor
    · exact fun c => h.exhausted _ c
    · exact fun level c => h.exhausted _ c
    · exact fun level left c => h.exhausted _ c
    · exact fun expr c => h.exhausted _ c
    · exact fun count c => h.exhausted _ c
    · exact fun c => h.exhausted _ c
  | succ fuel ih =>
    obtain ⟨fuel', rfl⟩ : ∃ n, fuel' = n + 1 := ⟨fuel' - 1, by omega⟩
    have hrules := ih (Nat.le_of_succ_le_succ hle)
    exact ⟨h.expression_succ hrules, h.operation_succ hrules, h.operands_succ hrules,
      h.suffixes_succ hrules, h.arguments_succ hrules, h.primary_succ hrules⟩

theorem parameters {fuel fuel' : Nat} (hle : fuel ≤ fuel') (count : Nat) (c : Cursor) :
    R (parameters fuel count) (Reading.parameters fuel' count) c := by
  induction fuel generalizing fuel' count c with
  | zero => exact h.exhausted _ c
  | succ fuel ih =>
    obtain ⟨fuel', rfl⟩ : ∃ n, fuel' = n + 1 := ⟨fuel' - 1, by omega⟩
    rw [Reading.parameters, Reading.parameters]
    apply h.bind (h.checkCount _ _ c)
    intro _ c₁ _
    apply h.bind (h.want _ _ c₁)
    intro parameter c₂ _
    apply h.bind (h.accept _ c₂)
    rintro (_ | _) c₃ _
    · exact h.pure _ c₃
    · apply h.bind (ih (Nat.le_of_succ_le_succ hle) (count + 1) c₃)
      intro parameters c₄ _
      exact h.pure _ c₄

section Parts

variable {fuel fuel' : Nat} (hexpression : ∀ c, R (expression fuel) (expression fuel') c)
include hexpression

theorem optionalExpression (stop : Kind) (c : Cursor) :
    R (optionalExpression fuel stop) (Reading.optionalExpression fuel' stop) c := by
  apply h.bind (h.nextKind c)
  intro kind c₁ _
  split
  · exact h.pure none c₁
  · apply h.bind (hexpression c₁)
    intro expr c₂ _
    exact h.pure _ c₂

theorem initializer (c : Cursor) : R (initializer fuel) (Reading.initializer fuel') c := by
  apply h.bind (h.accept _ c)
  rintro (_ | _) c₁ _
  · exact h.pure none c₁
  · apply h.bind (hexpression c₁)
    intro expr c₂ _
    exact h.pure _ c₂

theorem varDeclaration (c : Cursor) :
    R (varDeclaration fuel) (Reading.varDeclaration fuel') c := by
  apply h.bind (h.want _ _ c)
  intro name c₁ _
  apply h.bind (h.initializer hexpression c₁)
  intro initializer c₂ _
  apply h.bind (h.want _ _ c₂)
  intro _ c₃ _
  exact h.pure _ c₃

theorem expressionStatement (c : Cursor) :
    R (expressionStatement fuel) (Reading.expressionStatement fuel') c := by
  apply h.bind (hexpression c)
  intro expr c₁ _
  apply h.bind (h.want _ _ c₁)
  intro _ c₂ _
  exact h.pure _ c₂

theorem printStatement (c : Cursor) :
    R (printStatement fuel) (Reading.printStatement fuel') c := by
  apply h.bind (hexpression c)
  intro expr c₁ _
  apply h.bind (h.want _ _ c₁)
  intro _ c₂ _
  exact h.pure _ c₂

theorem returnStatement (keyword : Token) (c : Cursor) :
    R (returnStatement fuel keyword) (Reading.returnStatement fuel' keyword) c := by
  apply h.bind (h.optionalExpression hexpression _ c)
  intro value c₁ _
  apply h.bind (h.want _ _ c₁)
  intro _ c₂ _
  exact h.pure _ c₂

theorem condition (opening closing : Wanted) (c : Cursor) :
    R (condition fuel opening closing) (Reading.condition fuel' opening closing) c := by
  apply h.bind (h.want _ _ c)
  intro _ c₁ _
  apply h.bind (hexpression c₁)
  intro expr c₂ _
  apply h.bind (h.want _ _ c₂)
  intro _ c₃ _
  exact h.pure expr c₃

theorem forInitializer (c : Cursor) :
    R (forInitializer fuel) (Reading.forInitializer fuel') c := by
  apply h.bind (h.nextKind c)
  intro kind c₁ _
  split
  · apply h.bind (h.advance c₁)
    intro _ c₂ _
    exact h.pure none c₂
  · apply h.bind (h.advance c₁)
    intro _ c₂ _
    apply h.bind (h.varDeclaration hexpression c₂)
    intro stmt c₃ _
    exact h.pure _ c₃
  · apply h.bind (h.expressionStatement hexpression c₁)
    intro stmt c₂ _
    exact h.pure _ c₂

theorem forClauses (c : Cursor) : R (forClauses fuel) (Reading.forClauses fuel') c := by
  apply h.bind (h.want _ _ c)
  intro _ c₁ _
  apply h.bind (h.forInitializer hexpression c₁)
  intro initializer c₂ _
  apply h.bind (h.optionalExpression hexpression _ c₂)
  intro condition c₃ _
  apply h.bind (h.want _ _ c₃)
  intro _ c₄ _
  apply h.bind (h.optionalExpression hexpression _ c₄)
  intro increment c₅ _
  apply h.bind (h.want _ _ c₅)
  intro _ c₆ _
  exact h.pure _ c₆

end Parts

theorem conditionOrTrue (condition : Option Expr) (c : Cursor) :
    R (conditionOrTrue condition) (Reading.conditionOrTrue condition) c := by
  cases condition with
  | none =>
    rw [Reading.conditionOrTrue]
    exact h.node _ c
  | some condition => exact h.pure condition c

theorem everyPart {fuel fuel' : Nat} (hle : fuel ≤ fuel') :
    EveryPart fun rule => ∀ c, R (rule fuel) (rule fuel') c := by
  have hexpression := (h.everyExpressionRule hle).expression
  exact ⟨h.parameters hle, h.optionalExpression hexpression, h.initializer hexpression,
    h.varDeclaration hexpression, h.expressionStatement hexpression, h.printStatement hexpression,
    h.returnStatement hexpression, h.condition hexpression, h.forInitializer hexpression,
    h.forClauses hexpression⟩

section Statements

variable {fuel fuel' : Nat} (parts : EveryPart fun rule => ∀ c, R (rule fuel) (rule fuel') c)
  (ih : EveryStatementRule fun rule => ∀ c, R (rule fuel) (rule fuel') c)
include ih

theorem declaration_succ (c : Cursor) :
    R (declaration (fuel + 1)) (declaration (fuel' + 1)) c := by
  rw [declaration, declaration]
  apply h.bind (h.attempt (ih.declared c))
  rintro (fault | stmt) c₁ _
  · apply h.bind (h.note fault c₁)
    intro _ c₂ _
    apply h.bind (h.resume c₂)
    intro _ c₃ _
    exact h.pure none c₃
  · exact h.pure _ c₁

theorem methods_succ (c : Cursor) : R (methods (fuel + 1)) (methods (fuel' + 1)) c := by
  rw [methods, methods]
  apply h.bind (h.isAtEnd c)
  intro atEnd c₁ _
  apply h.bind (h.nextKind c₁)
  intro kind c₂ _
  split
  · exact h.pure [] c₂
  · apply h.bind (ih.routine .method c₂)
    intro method c₃ _
    apply h.bind (ih.methods c₃)
    intro methods c₄ _
    exact h.pure _ c₄

theorem block_succ (c : Cursor) : R (block (fuel + 1)) (block (fuel' + 1)) c := by
  rw [block, block]
  apply h.bind (ih.declarations .rightBrace c)
  intro body c₁ _
  apply h.bind (h.want _ _ c₁)
  intro _ c₂ _
  exact h.pure body c₂

theorem declarations_succ (stop : Kind) (c : Cursor) :
    R (declarations (fuel + 1) stop) (declarations (fuel' + 1) stop) c := by
  rw [declarations, declarations]
  apply h.bind (h.isAtEnd c)
  intro atEnd c₁ _
  apply h.bind (h.nextKind c₁)
  intro kind c₂ _
  split
  · exact h.pure [] c₂
  · apply h.bind (ih.declaration c₂)
    intro stmt c₃ _
    apply h.bind (ih.declarations stop c₃)
    intro stmts c₄ _
    exact h.pure _ c₄

include parts

theorem declared_succ (c : Cursor) : R (declared (fuel + 1)) (declared (fuel' + 1)) c := by
  rw [declared, declared]
  apply h.bind (h.nextKind c)
  intro kind c₁ _
  split
  · apply h.bind (h.advance c₁)
    intro _ c₂ _
    apply h.bind (h.want _ _ c₂)
    intro name c₃ _
    apply h.bind (h.want _ _ c₃)
    intro _ c₄ _
    apply h.bind (ih.methods c₄)
    intro methods c₅ _
    apply h.bind (h.want _ _ c₅)
    intro _ c₆ _
    exact h.pure _ c₆
  · apply h.bind (h.advance c₁)
    intro _ c₂ _
    apply h.bind (ih.routine .function c₂)
    intro declaration c₃ _
    exact h.pure _ c₃
  · apply h.bind (h.advance c₁)
    intro _ c₂ _
    exact parts.varDeclaration c₂
  · exact ih.statement c₁

theorem routine_succ (kind : Routine) (c : Cursor) :
    R (routine (fuel + 1) kind) (routine (fuel' + 1) kind) c := by
  rw [routine, routine]
  apply h.bind (h.want _ _ c)
  intro name c₁ _
  apply h.bind (h.want _ _ c₁)
  intro _ c₂ _
  apply h.bind (h.listUntil .rightParen (parts.parameters 0 c₂))
  intro params c₃ _
  apply h.bind (h.want _ _ c₃)
  intro _ c₄ _
  apply h.bind (h.want _ _ c₄)
  intro _ c₅ _
  apply h.bind (ih.block c₅)
  intro body c₆ _
  exact h.pure _ c₆

theorem statement_succ (c : Cursor) : R (statement (fuel + 1)) (statement (fuel' + 1)) c := by
  rw [statement, statement]
  apply h.bind (h.peek c)
  intro token c₁ _
  split
  · apply h.bind (h.advance c₁)
    intro _ c₂ _
    apply h.bind (parts.forClauses c₂)
    intro clauses c₃ _
    apply h.bind (ih.statement c₃)
    intro body c₄ _
    apply h.bind (h.conditionOrTrue _ c₄)
    intro condition c₅ _
    exact h.pure _ c₅
  · apply h.bind (h.advance c₁)
    intro _ c₂ _
    apply h.bind (parts.condition _ _ c₂)
    intro condition c₃ _
    apply h.bind (ih.statement c₃)
    intro thenBranch c₄ _
    apply h.bind (h.accept _ c₄)
    rintro (_ | _) c₅ _
    · exact h.pure _ c₅
    · apply h.bind (ih.statement c₅)
      intro elseBranch c₆ _
      exact h.pure _ c₆
  · apply h.bind (h.advance c₁)
    intro _ c₂ _
    apply h.bind (parts.condition _ _ c₂)
    intro condition c₃ _
    apply h.bind (ih.statement c₃)
    intro body c₄ _
    exact h.pure _ c₄
  · apply h.bind (h.advance c₁)
    intro _ c₂ _
    exact parts.returnStatement token c₂
  · apply h.bind (h.advance c₁)
    intro _ c₂ _
    apply h.bind (ih.block c₂)
    intro body c₃ _
    exact h.pure _ c₃
  · apply h.bind (h.advance c₁)
    intro _ c₂ _
    exact parts.printStatement c₂
  · exact parts.expressionStatement c₁

end Statements

theorem everyStatementRule {fuel fuel' : Nat} (hle : fuel ≤ fuel') :
    EveryStatementRule fun rule => ∀ c, R (rule fuel) (rule fuel') c := by
  induction fuel generalizing fuel' with
  | zero =>
    constructor
    · exact fun c => h.exhausted _ c
    · exact fun c => h.exhausted _ c
    · exact fun kind c => h.exhausted _ c
    · exact fun c => h.exhausted _ c
    · exact fun c => h.exhausted _ c
    · exact fun stop c => h.exhausted _ c
    · exact fun c => h.exhausted _ c
  | succ fuel ih =>
    obtain ⟨fuel', rfl⟩ : ∃ n, fuel' = n + 1 := ⟨fuel' - 1, by omega⟩
    have hle' := Nat.le_of_succ_le_succ hle
    have parts := h.everyPart hle'
    have hrules := ih hle'
    exact ⟨h.declaration_succ hrules, h.declared_succ parts hrules, h.routine_succ parts hrules,
      h.methods_succ hrules, h.block_succ hrules, h.declarations_succ hrules,
      h.statement_succ parts hrules⟩

/-- What holds of the elementary steps holds of all rules. -/
theorem everyRule {fuel fuel' : Nat} (hle : fuel ≤ fuel') :
    EveryRule fun rule => ∀ c, R (rule fuel) (rule fuel') c :=
  ⟨h.everyExpressionRule hle, h.everyPart hle, h.everyStatementRule hle⟩

end Law

end Reading
end LoxLang
