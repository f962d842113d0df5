import LoxLang.Grammar.Statement
import LoxLang.Proofs.Actions
import LoxLang.Proofs.Relabeling

/-!
# Reading with other identities

Nothing that is read depends on the identities that are given away. From a later first identity on,
the same tokens give the same program with later identities, the same faults at the same tokens, and
as many identities are used up (`Program.ofTokens_add`).
-/
namespace LoxLang

/-- The same cursor, where `d` more identities are in use. -/
def Cursor.later (d : Nat) (c : Cursor) : Cursor := { c with nextId := c.nextId + d }

namespace Cursor

variable (d : Nat) (c : Cursor)

/-! What is looked at is the same token. -/

theorem peek_later : (c.later d).peek = c.peek := rfl

theorem previous_later : (c.later d).previous = c.previous := rfl

theorem isAtEnd_later : (c.later d).isAtEnd = c.isAtEnd := rfl

theorem advance_later : (c.later d).advance = c.advance.later d := by
  unfold advance
  rw [isAtEnd_later]
  split <;> rfl

theorem settle_later : (c.later d).settle = c.settle.later d := by
  induction c using settle.induct with
  | case1 c hend =>
    rw [settle.eq_def (c.later d), settle.eq_def c, isAtEnd_later, if_pos hend, if_pos hend]
  | case2 c hend hsemicolon =>
    rw [settle.eq_def (c.later d), settle.eq_def c, isAtEnd_later, previous_later, if_neg hend,
      if_neg hend, if_pos hsemicolon, if_pos hsemicolon]
  | case3 c hend hsemicolon hstart =>
    rw [settle.eq_def (c.later d), settle.eq_def c, isAtEnd_later, previous_later, peek_later,
      if_neg hend, if_neg hend, if_neg hsemicolon, if_neg hsemicolon, if_pos hstart, if_pos hstart]
  | case4 c hend hsemicolon hstart ih =>
    rw [settle.eq_def (c.later d), settle.eq_def c, isAtEnd_later, previous_later, peek_later,
      if_neg hend, if_neg hend, if_neg hsemicolon, if_neg hsemicolon, if_neg hstart, if_neg hstart,
      advance_later, ih]

theorem synchronize_later : (c.later d).synchronize = c.synchronize.later d := by
  rw [synchronize, advance_later, settle_later, synchronize]

end Cursor

namespace Reading

variable {α β γ δ : Type} {d : Nat} {φ : α → β} {ψ : γ → δ}

/-- What `x` comes to, `y` comes to with `d` more identities in use, and with what `φ` makes of the
value. -/
def Shifts (d : Nat) (φ : α → β) (x : Reading α) (y : Reading β) : Prop :=
  ∀ c, Action.Related x y c (c.later d) (fun a b c c' => b = φ a ∧ c' = c.later d)
    fun e e' c c' => e' = e ∧ c' = c.later d

section Rules

theorem Shifts.bind {x : Reading α} {y : Reading β} {p : α → Reading γ} {q : β → Reading δ}
    (h : Shifts d φ x y) (hnext : ∀ a, Shifts d ψ (p a) (q (φ a))) :
    Shifts d ψ (x >>= p) (y >>= q) := by
  intro c
  apply Action.related_bind
  apply (h c).mono
  · rintro a _ c _ ⟨rfl, rfl⟩
    exact hnext a c
  · exact fun _ _ _ _ h => h

theorem shifts_pure {a : α} {b : β} (h : φ a = b) : Shifts d φ (pure a) (pure b) :=
  fun _ => ⟨h.symm, rfl⟩

theorem shifts_fail (fault : GrammarFault) : Shifts d φ (Action.fail fault) (Action.fail fault) :=
  fun _ => ⟨rfl, rfl⟩

theorem shifts_exhausted : Shifts d φ Action.exhausted Action.exhausted := fun _ => trivial

theorem shifts_peek : Shifts d id peek peek := fun _ => ⟨rfl, rfl⟩

theorem shifts_isAtEnd : Shifts d id isAtEnd isAtEnd := fun _ => ⟨rfl, rfl⟩

theorem shifts_nextKind : Shifts d id nextKind nextKind := fun _ => ⟨rfl, rfl⟩

theorem shifts_advance : Shifts d id advance advance := fun c => ⟨rfl, c.advance_later d⟩

theorem shifts_note (fault : GrammarFault) : Shifts d id (note fault) (note fault) :=
  fun _ => ⟨rfl, rfl⟩

theorem shifts_resume : Shifts d id resume resume := fun c => ⟨rfl, c.synchronize_later d⟩

theorem shifts_checkCount (count : Nat) (cause : GrammarCause) :
    Shifts d id (checkCount count cause) (checkCount count cause) := by
  unfold checkCount
  split
  · exact fun _ => ⟨rfl, rfl⟩
  · exact shifts_pure rfl

theorem shifts_takeIf (p : Kind → Bool) : Shifts d id (takeIf p) (takeIf p) := by
  intro c
  have hcheck : (c.later d).check p = c.check p := rfl
  simp only [Action.Related, takeIf, Action.update, hcheck, Cursor.advance_later]
  split <;> exact ⟨rfl, rfl⟩

theorem shifts_accept (kind : Kind) : Shifts d id (accept kind) (accept kind) :=
  (shifts_takeIf _).bind fun _ => shifts_pure rfl

theorem shifts_want (kind : Kind) (wanted : Wanted) :
    Shifts d id (want kind wanted) (want kind wanted) := by
  apply (shifts_takeIf _).bind
  rintro (_ | token)
  · exact shifts_peek.bind fun _ => shifts_fail _
  · exact shifts_pure rfl

theorem shifts_node {build build' : Nat → Expr}
    (h : ∀ id, (build id).relabel (· + d) = build' (id + d)) :
    Shifts d (Expr.relabel (· + d)) (node build) (node build') := by
  intro c
  refine ⟨(h c.nextId).symm, ?_⟩
  simp only [Cursor.later, Cursor.mk.injEq, true_and, and_true]
  omega

theorem shifts_listUntil {stop : Kind} {x : Reading (List α)} {y : Reading (List β)}
    {φ : List α → List β} (hnil : φ [] = []) (h : Shifts d φ x y) :
    Shifts d φ (listUntil stop x) (listUntil stop y) := by
  apply shifts_nextKind.bind
  intro kind
  dsimp only [id]
  split
  · exact shifts_pure hnil
  · exact h

theorem Shifts.attempt {x : Reading α} {y : Reading β} (h : Shifts d φ x y) :
    Shifts d (Except.map φ) x.attempt y.attempt := by
  intro c
  have hc := h c
  unfold Action.Related Action.attempt at *
  cases hx : x c <;> cases hy : y (c.later d) <;> simp only [hx, hy] at hc ⊢
  case done.done =>
    obtain ⟨rfl, rfl⟩ := hc
    exact ⟨rfl, rfl⟩
  case failed.failed =>
    obtain ⟨rfl, rfl⟩ := hc
    exact ⟨rfl, rfl⟩

end Rules

section Expressions

theorem shifts_constant (value : Literal) :
    Shifts d (Expr.relabel (· + d)) (constant value) (constant value) :=
  shifts_advance.bind fun _ => shifts_node fun _ => rfl

theorem combine_relabel (g : Nat → Nat) (level : Level) (left : Expr) (operator : Token)
    (right : Expr) (id : Nat) :
    (level.combine left operator right id).relabel g =
      level.combine (left.relabel g) operator (right.relabel g) (g id) := by
  cases level <;> rfl

theorem shifts_assignment (target value : Expr) (equals : Token) :
    Shifts d (Expr.relabel (· + d))
      (match assignment? target value with
        | some build => node build
        | none => note ⟨equals, .invalidTarget⟩ >>= fun _ => pure target)
      (match assignment? (target.relabel (· + d)) (value.relabel (· + d)) with
        | some build => node build
        | none => note ⟨equals, .invalidTarget⟩ >>= fun _ => pure (target.relabel (· + d))) := by
  cases target
  case var | get => exact shifts_node fun _ => rfl
  all_goals exact (shifts_note _).bind fun _ => shifts_pure rfl

structure ExpressionsShift (d fuel : Nat) : Prop where
  expression : Shifts d (Expr.relabel (· + d)) (expression fuel) (expression fuel)
  operation : ∀ level,
    Shifts d (Expr.relabel (· + d)) (operation fuel level) (operation fuel level)
  operands : ∀ level left, Shifts d (Expr.relabel (· + d)) (operands fuel level left)
    (operands fuel level (left.relabel (· + d)))
  suffixes : ∀ expr, Shifts d (Expr.relabel (· + d)) (suffixes fuel expr)
    (suffixes fuel (expr.relabel (· + d)))
  arguments : ∀ count,
    Shifts d (Expr.relabelAll (· + d)) (arguments fuel count) (arguments fuel count)
  primary : Shifts d (Expr.relabel (· + d)) (primary fuel) (primary fuel)

namespace ExpressionsShift

variable {fuel : Nat}

theorem expression_succ (h : ExpressionsShift d fuel) :
    Shifts d (Expr.relabel (· + d)) (Reading.expression (fuel + 1))
      (Reading.expression (fuel + 1)) := by
  rw [Reading.expression]
  apply (h.operation .or).bind
  intro target
  apply (shifts_takeIf _).bind
  rintro (_ | equals)
  · exact shifts_pure rfl
  · apply h.expression.bind
    intro value
    exact shifts_assignment target value equals

theorem operation_succ (h : ExpressionsShift d fuel) (level : Level) :
    Shifts d (Expr.relabel (· + d)) (Reading.operation (fuel + 1) level)
      (Reading.operation (fuel + 1) level) := by
  by_cases hlevel : level = .unary
  · subst hlevel
    rw [Reading.operation]
    apply (shifts_takeIf _).bind
    rintro (_ | operator)
    · exact h.primary.bind h.suffixes
    · exact (h.operation .unary).bind fun right => shifts_node fun _ => rfl
  · rw [Reading.operation]
    · exact (h.operation level.tighter).bind (h.operands level)
    · exact hlevel

theorem operands_succ (h : ExpressionsShift d fuel) (level : Level) (left : Expr) :
    Shifts d (Expr.relabel (· + d)) (Reading.operands (fuel + 1) level left)
      (Reading.operands (fuel + 1) level (left.relabel (· + d))) := by
  rw [Reading.operands, Reading.operands]
  apply (shifts_takeIf _).bind
  rintro (_ | operator)
  · exact shifts_pure rfl
  · apply (h.operation level.tighter).bind
    intro right
    apply (shifts_node fun id => combine_relabel _ level left operator right id).bind
    exact h.operands level

theorem suffixes_succ (h : ExpressionsShift d fuel) (expr : Expr) :
    Shifts d (Expr.relabel (· + d)) (Reading.suffixes (fuel + 1) expr)
      (Reading.suffixes (fuel + 1) (expr.relabel (· + d))) := by
  rw [Reading.suffixes, Reading.suffixes]
  apply shifts_nextKind.bind
  intro kind
  dsimp only [id]
  split
  · apply shifts_advance.bind
    intro _
    apply (shifts_listUntil rfl (h.arguments 0)).bind
    intro args
    apply (shifts_want _ _).bind
    intro paren
    exact Shifts.bind (shifts_node fun _ => rfl) h.suffixes
  · apply shifts_advance.bind
    intro _
    apply (shifts_want _ _).bind
    intro name
    exact Shifts.bind (shifts_node fun _ => rfl) h.suffixes
  · exact shifts_pure rfl

theorem arguments_succ (h : ExpressionsShift d fuel) (count : Nat) :
    Shifts d (Expr.relabelAll (· + d)) (Reading.arguments (fuel + 1) count)
      (Reading.arguments (fuel + 1) count) := by
  rw [Reading.arguments]
  apply (shifts_checkCount _ _).bind
  intro _
  apply h.expression.bind
  intro argument
  apply (shifts_accept _).bind
  rintro (_ | _)
  · exact shifts_pure rfl
  · exact (h.arguments (count + 1)).bind fun arguments => shifts_pure rfl

theorem primary_succ (h : ExpressionsShift d fuel) :
    Shifts d (Expr.relabel (· + d)) (Reading.primary (fuel + 1)) (Reading.primary (fuel + 1)) := by
  rw [Reading.primary]
  apply shifts_peek.bind
  intro token
  dsimp only [id]
  split
  · exact shifts_constant _
  · exact shifts_constant _
  · exact shifts_constant _
  · exact shifts_constant _
  · exact shifts_constant _
  · exact shifts_advance.bind fun _ => shifts_node fun _ => rfl
  · exact shifts_advance.bind fun _ => shifts_node fun _ => rfl
  · apply shifts_advance.bind
    intro _
    apply h.expression.bind
    intro inner
    exact (shifts_want _ _).bind fun _ => shifts_node fun _ => rfl
  · exact shifts_fail _

end ExpressionsShift

theorem expressionsShift (d fuel : Nat) : ExpressionsShift d fuel := by
  induction fuel with
  | zero =>
    constructor
    · exact shifts_exhausted
    · exact fun _ => shifts_exhausted
    · exact fun _ _ => shifts_exhausted
    · exact fun _ => shifts_exhausted
    · exact fun _ => shifts_exhausted
    · exact shifts_exhausted
  | succ fuel ih =>
    exact ⟨ih.expression_succ, ih.operation_succ, ih.operands_succ, ih.suffixes_succ,
      ih.arguments_succ, ih.primary_succ⟩

theorem shifts_expression (fuel : Nat) :
    Shifts d (Expr.relabel (· + d)) (expression fuel) (expression fuel) :=
  (expressionsShift d fuel).expression

end Expressions

section Statements

theorem shifts_optionalExpression (fuel : Nat) (stop : Kind) :
    Shifts d (Option.map (Expr.relabel (· + d))) (optionalExpression fuel stop)
      (optionalExpression fuel stop) := by
  apply shifts_nextKind.bind
  intro kind
  dsimp only [id]
  split
  · exact shifts_pure rfl
  · exact (shifts_expression fuel).bind fun expr => shifts_pure rfl

theorem shifts_initializer (fuel : Nat) :
    Shifts d (Option.map (Expr.relabel (· + d))) (initializer fuel) (initializer fuel) := by
  apply (shifts_accept _).bind
  rintro (_ | _)
  · exact shifts_pure rfl
  · exact (shifts_expression fuel).bind fun expr => shifts_pure rfl

theorem shifts_varDeclaration (fuel : Nat) :
    Shifts d (Stmt.relabel (· + d)) (varDeclaration fuel) (varDeclaration fuel) := by
  apply (shifts_want _ _).bind
  intro name
  apply (shifts_initializer fuel).bind
  intro initializer
  exact (shifts_want _ _).bind fun _ => shifts_pure rfl

theorem shifts_expressionStatement (fuel : Nat) :
    Shifts d (Stmt.relabel (· + d)) (expressionStatement fuel) (expressionStatement fuel) := by
  apply (shifts_expression fuel).bind
  intro expr
  exact (shifts_want _ _).bind fun _ => shifts_pure rfl

theorem shifts_printStatement (fuel : Nat) :
    Shifts d (Stmt.relabel (· + d)) (printStatement fuel) (printStatement fuel) := by
  apply (shifts_expression fuel).bind
  intro expr
  exact (shifts_want _ _).bind fun _ => shifts_pure rfl

theorem shifts_returnStatement (fuel : Nat) (keyword : Token) :
    Shifts d (Stmt.relabel (· + d)) (returnStatement fuel keyword)
      (returnStatement fuel keyword) := by
  apply (shifts_optionalExpression fuel _).bind
  intro value
  exact (shifts_want _ _).bind fun _ => shifts_pure rfl

theorem shifts_condition (fuel : Nat) (opening closing : Wanted) :
    Shifts d (Expr.relabel (· + d)) (condition fuel opening closing)
      (condition fuel opening closing) := by
  apply (shifts_want _ _).bind
  intro _
  apply (shifts_expression fuel).bind
  intro expr
  exact (shifts_want _ _).bind fun _ => shifts_pure rfl

theorem shifts_parameters (fuel count : Nat) :
    Shifts d id (parameters fuel count) (parameters fuel count) := by
  induction fuel generalizing count with
  | zero => exact shifts_exhausted
  | succ fuel ih =>
    apply (shifts_checkCount _ _).bind
    intro _
    apply (shifts_want _ _).bind
    intro parameter
    apply (shifts_accept _).bind
    rintro (_ | _)
    · exact shifts_pure rfl
    · exact (ih (count + 1)).bind fun parameters => shifts_pure rfl

theorem shifts_forInitializer (fuel : Nat) :
    Shifts d (Option.map (Stmt.relabel (· + d))) (forInitializer fuel) (forInitializer fuel) := by
  apply shifts_nextKind.bind
  intro kind
  dsimp only [id]
  split
  · exact shifts_advance.bind fun _ => shifts_pure rfl
  · apply shifts_advance.bind
    intro _
    exact (shifts_varDeclaration fuel).bind fun stmt => shifts_pure rfl
  · exact (shifts_expressionStatement fuel).bind fun stmt => shifts_pure rfl

def ForClauses.relabel (g : Nat → Nat) (clauses : ForClauses) : ForClauses :=
  ⟨clauses.initializer.map (Stmt.relabel g), clauses.condition.map (Expr.relabel g),
    clauses.increment.map (Expr.relabel g)⟩

theorem shifts_forClauses (fuel : Nat) :
    Shifts d (ForClauses.relabel (· + d)) (forClauses fuel) (forClauses fuel) := by
  apply (shifts_want _ _).bind
  intro _
  apply (shifts_forInitializer fuel).bind
  intro initializer
  apply (shifts_optionalExpression fuel _).bind
  intro condition
  apply (shifts_want _ _).bind
  intro _
  apply (shifts_optionalExpression fuel _).bind
  intro increment
  exact (shifts_want _ _).bind fun _ => shifts_pure rfl

theorem shifts_conditionOrTrue (condition : Option Expr) :
    Shifts d (Expr.relabel (· + d)) (conditionOrTrue condition)
      (conditionOrTrue (condition.map (Expr.relabel (· + d)))) := by
  cases condition with
  | none =>
    rw [Option.map_none, conditionOrTrue]
    exact shifts_node fun _ => rfl
  | some condition => exact shifts_pure rfl

theorem forLoop_relabel (g : Nat → Nat) (initializer : Option Stmt) (condition : Expr)
    (increment : Option Expr) (body : Stmt) :
    (forLoop initializer condition increment body).relabel g =
      forLoop (initializer.map (Stmt.relabel g)) (condition.relabel g)
        (increment.map (Expr.relabel g)) (body.relabel g) := by
  cases initializer <;> cases increment <;> rfl

structure StatementsShift (d fuel : Nat) : Prop where
  declaration : Shifts d (Option.map (Stmt.relabel (· + d))) (declaration fuel) (declaration fuel)
  declared : Shifts d (Stmt.relabel (· + d)) (declared fuel) (declared fuel)
  routine : ∀ kind, Shifts d (FunctionDecl.relabel (· + d)) (routine fuel kind) (routine fuel kind)
  methods : Shifts d (FunctionDecl.relabelAll (· + d)) (methods fuel) (methods fuel)
  block : Shifts d (Stmt.relabelAll (· + d)) (block fuel) (block fuel)
  declarations : ∀ stop,
    Shifts d (Stmt.relabelAll (· + d)) (declarations fuel stop) (declarations fuel stop)
  statement : Shifts d (Stmt.relabel (· + d)) (statement fuel) (statement fuel)

namespace StatementsShift

variable {fuel : Nat}

theorem declaration_succ (h : StatementsShift d fuel) :
    Shifts d (Option.map (Stmt.relabel (· + d))) (Reading.declaration (fuel + 1))
      (Reading.declaration (fuel + 1)) := by
  rw [Reading.declaration]
  apply h.declared.attempt.bind
  rintro (fault | stmt)
  · apply (shifts_note _).bind
    intro _
    exact shifts_resume.bind fun _ => shifts_pure rfl
  · exact shifts_pure rfl

theorem declared_succ (h : StatementsShift d fuel) :
    Shifts d (Stmt.relabel (· + d)) (Reading.declared (fuel + 1))
      (Reading.declared (fuel + 1)) := by
  rw [Reading.declared]
  apply shifts_nextKind.bind
  intro kind
  dsimp only [id]
  split
  · apply shifts_advance.bind
    intro _
    apply (shifts_want _ _).bind
    intro name
    apply (shifts_want _ _).bind
    intro _
    apply h.methods.bind
    intro methods
    exact (shifts_want _ _).bind fun _ => shifts_pure rfl
  · apply shifts_advance.bind
    intro _
    exact (h.routine .function).bind fun declaration => shifts_pure rfl
  · exact shifts_advance.bind fun _ => shifts_varDeclaration fuel
  · exact h.statement

theorem routine_succ (h : StatementsShift d fuel) (kind : Routine) :
    Shifts d (FunctionDecl.relabel (· + d)) (Reading.routine (fuel + 1) kind)
      (Reading.routine (fuel + 1) kind) := by
  rw [Reading.routine]
  apply (shifts_want _ _).bind
  intro name
  apply (shifts_want _ _).bind
  intro _
  apply (shifts_listUntil rfl (shifts_parameters fuel 0)).bind
  intro params
  apply (shifts_want _ _).bind
  intro _
  apply (shifts_want _ _).bind
  intro _
  exact h.block.bind fun body => shifts_pure rfl

theorem methods_succ (h : StatementsShift d fuel) :
    Shifts d (FunctionDecl.relabelAll (· + d)) (Reading.methods (fuel + 1))
      (Reading.methods (fuel + 1)) := by
  rw [Reading.methods]
  apply shifts_isAtEnd.bind
  intro atEnd
  apply shifts_nextKind.bind
  intro kind
  dsimp only [id]
  split
  · exact shifts_pure rfl
  · apply (h.routine .method).bind
    intro method
    exact h.methods.bind fun methods => shifts_pure rfl

theorem block_succ (h : StatementsShift d fuel) :
    Shifts d (Stmt.relabelAll (· + d)) (Reading.block (fuel + 1)) (Reading.block (fuel + 1)) := by
  rw [Reading.block]
  apply (h.declarations .rightBrace).bind
  intro body
  exact (shifts_want _ _).bind fun _ => shifts_pure rfl

theorem declarations_succ (h : StatementsShift d fuel) (stop : Kind) :
    Shifts d (Stmt.relabelAll (· + d)) (Reading.declarations (fuel + 1) stop)
      (Reading.declarations (fuel + 1) stop) := by
  rw [Reading.declarations]
  apply shifts_isAtEnd.bind
  intro atEnd
  apply shifts_nextKind.bind
  intro kind
  dsimp only [id]
  split
  · exact shifts_pure rfl
  · apply h.declaration.bind
    intro stmt
    apply (h.declarations stop).bind
    intro stmts
    exact shifts_pure (by cases stmt <;> rfl)

theorem statement_succ (h : StatementsShift d fuel) :
    Shifts d (Stmt.relabel (· + d)) (Reading.statement (fuel + 1))
      (Reading.statement (fuel + 1)) := by
  rw [Reading.statement]
  apply shifts_peek.bind
  intro token
  dsimp only [id]
  split
  · apply shifts_advance.bind
    intro _
    apply (shifts_forClauses fuel).bind
    intro clauses
    apply h.statement.bind
    intro body
    apply (shifts_conditionOrTrue clauses.condition).bind
    intro condition
    exact shifts_pure (forLoop_relabel _ _ _ _ _)
  · apply shifts_advance.bind
    intro _
    apply (shifts_condition fuel _ _).bind
    intro condition
    apply h.statement.bind
    intro thenBranch
    apply (shifts_accept _).bind
    rintro (_ | _)
    · exact shifts_pure rfl
    · exact h.statement.bind fun elseBranch => shifts_pure rfl
  · apply shifts_advance.bind
    intro _
    apply (shifts_condition fuel _ _).bind
    intro condition
    exact h.statement.bind fun body => shifts_pure rfl
  · exact shifts_advance.bind fun _ => shifts_returnStatement fuel token
  · apply shifts_advance.bind
    intro _
    exact h.block.bind fun body => shifts_pure rfl
  · exact shifts_advance.bind fun _ => shifts_printStatement fuel
  · exact shifts_expressionStatement fuel

end StatementsShift

theorem statementsShift (d fuel : Nat) : StatementsShift d fuel := by
  induction fuel with
  | zero =>
    constructor
    · exact shifts_exhausted
    · exact shifts_exhausted
    · exact fun _ => shifts_exhausted
    · exact shifts_exhausted
    · exact shifts_exhausted
    · exact fun _ => shifts_exhausted
    · exact shifts_exhausted
  | succ fuel ih =>
    exact ⟨ih.declaration_succ, ih.declared_succ, ih.routine_succ, ih.methods_succ, ih.block_succ,
      ih.declarations_succ, ih.statement_succ⟩

end Statements

end Reading

/-- From a later first identity on, the same program is read with later identities. -/
theorem Program.ofTokens_add (tokens : List Token) (firstId d : Nat) :
    ofTokens tokens (firstId + d) =
      ⟨Stmt.relabelAll (· + d) (ofTokens tokens firstId).statements,
        (ofTokens tokens firstId).faults, (ofTokens tokens firstId).nextId + d⟩ := by
  have hshift := (Reading.statementsShift d (fuelFor tokens.length)).declarations .eof
    (Cursor.start tokens firstId)
  have hlater : Cursor.start tokens (firstId + d) = (Cursor.start tokens firstId).later d := rfl
  unfold ofTokens
  rw [hlater]
  unfold Action.Related at hshift
  cases hx : Reading.declarations (fuelFor tokens.length) .eof (Cursor.start tokens firstId) <;>
    cases hy : Reading.declarations (fuelFor tokens.length) .eof
      ((Cursor.start tokens firstId).later d) <;>
    simp only [hx, hy] at hshift
  case done.done =>
    obtain ⟨rfl, rfl⟩ := hshift
    rfl
  case failed.failed =>
    obtain ⟨rfl, rfl⟩ := hshift
    rfl
  case exhausted.exhausted => rfl

end LoxLang
