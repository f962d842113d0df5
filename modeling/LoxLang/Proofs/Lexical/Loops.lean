import LoxLang.Proofs.Lexical.Semantics

/-!
# Loops as they are written

A `for` loop is read as a `while` loop with blocks around it. Here it has a meaning of its own, in
persistent scopes, in which these blocks do not occur. The initializer is executed once, in a scope
that all rounds share and that nothing behind the loop sees. Before each round the condition is
evaluated; one that is absent holds. In each round the body is executed, and then the increment in
the same scope that the body started from, so that it sees nothing that the body declares. After a
`return` or a fault there is no increment and no further round. The use of fuel is that of the
statement that the loop is read as.

`Loops` says which of the statements of a program are taken for `for` loops. This is left open, as
two loops that are written differently may be read as the same statement.

A variable that is assigned inside its own initializer has no location yet. Such an assignment
fails, and so the name that waits for its initializer is a part of the place of an expression.
-/
namespace LoxLang

/-- The statement declares a name in the scope that it stands in. -/
def Stmt.declaresHere : Stmt → Bool
  | .varDecl _ _ | .funDecl _ | .classDecl _ _ => true
  | .expression _ | .print _ | .block _ | .returnStmt _ _ => false
  | .ifThen _ thenBranch => thenBranch.declaresHere
  | .ifElse _ thenBranch elseBranch => thenBranch.declaresHere || elseBranch.declaresHere
  | .whileLoop _ body => body.declaresHere

/-- A `for` loop: its three clauses, as they were read, and its body. -/
structure ForLoop extends Reading.ForClauses where
  body : Stmt

/-- The statement that the loop is read as. An absent condition has become a constant with this
identity. -/
def ForLoop.statement (l : ForLoop) (id : Nat) : Stmt :=
  Reading.forLoop l.initializer (l.condition.getD (.literal id (.bool true))) l.increment l.body

namespace Lexical

/-- The statements that are taken for `for` loops, each with the loop that it was read from. -/
structure Loops where
  written? : Stmt → Option ForLoop
  faithful : ∀ stmt l, written? stmt = some l →
    l.body.declaresHere = false ∧ ∃ id, stmt = l.statement id

def Loops.plain : Loops where
  written? _ := none
  faithful _ _ h := nomatch h

namespace Loops

/-- Whatever else is taken for a loop, this statement can be taken for this one. -/
theorem exists_written (loops : Loops) (l : ForLoop) (id : Nat)
    (hbody : l.body.declaresHere = false) :
    ∃ loops' : Loops, loops'.written? (l.statement id) = some l ∧
      ∀ stmt, stmt ≠ l.statement id → loops'.written? stmt = loops.written? stmt := by
  classical
  let written? (stmt : Stmt) := if stmt = l.statement id then some l else loops.written? stmt
  have hfaithful : ∀ stmt l', written? stmt = some l' →
      l'.body.declaresHere = false ∧ ∃ id, stmt = l'.statement id := by
    intro stmt l' h
    by_cases heq : stmt = l.statement id
    · simp only [written?, if_pos heq, Option.some.injEq] at h
      subst h
      exact ⟨hbody, id, heq⟩
    · simp only [written?, if_neg heq] at h
      exact loops.faithful stmt l' h
  exact ⟨⟨written?, hfaithful⟩, if_pos rfl, fun stmt hne => if_neg hne⟩

/-- A condition as it can have been written; `true` can have been left out. -/
def writtenCondition? : Expr → Option Expr
  | .literal _ (.bool true) => none
  | condition => some condition

theorem exists_writtenCondition? (condition : Expr) :
    ∃ id, (writtenCondition? condition).getD (.literal id (.bool true)) = condition := by
  unfold writtenCondition?
  split
  · next id => exact ⟨id, rfl⟩
  · exact ⟨0, rfl⟩

/-- The loop that a `while` loop can have been written as, with this initializer before it. -/
def behind? (initializer : Option Stmt) (condition : Expr) (step : Stmt) : Option ForLoop :=
  let clauses increment := Reading.ForClauses.mk initializer (writtenCondition? condition) increment
  match step with
  | .block [body, .expression increment] =>
    if body.declaresHere then some ⟨clauses none, step⟩ else some ⟨clauses (some increment), body⟩
  | body => if body.declaresHere then none else some ⟨clauses none, body⟩

theorem behind?_faithful {initializer : Option Stmt} {condition : Expr} {step : Stmt} {l : ForLoop}
    (h : behind? initializer condition step = some l) : l.body.declaresHere = false ∧
      ∃ id, Reading.forLoop initializer condition none step = l.statement id := by
  obtain ⟨id, hcondition⟩ := exists_writtenCondition? condition
  unfold behind? at h
  dsimp only at h
  split at h
  · next body increment =>
    split at h
    · cases h
      exact ⟨rfl, id, by rw [ForLoop.statement, hcondition]⟩
    · next hdeclares =>
      cases h
      exact ⟨by simpa using hdeclares, id, by rw [ForLoop.statement, hcondition]; rfl⟩
  · split at h
    · cases h
    · next hdeclares =>
      cases h
      exact ⟨by simpa using hdeclares, id, by rw [ForLoop.statement, hcondition]⟩

/-- Every statement that can have been written as a `for` loop is taken for one. -/
def everywhere : Loops where
  written?
    | .block [initializer, .whileLoop condition step] => behind? (some initializer) condition step
    | .whileLoop condition step => behind? none condition step
    | _ => none
  faithful stmt l h := by
    split at h
    · exact behind?_faithful h
    · exact behind?_faithful h
    · cases h

/-- Evaluates an expression in a scope where a variable may be waiting for its initializer. -/
def evalWith (waiting : Option String) (eval : Scope → Expr → Run Value)
    (exec : Scope → Stmt → Run (Flow × Scope)) (scope : Scope) : Expr → Run Value
  | .assign _ name value => do
    let value ← eval scope value
    if waiting = some name.lexeme then Run.fault name (.undefinedVariable name.lexeme)
    else
      Run.writeName scope name value
      return value
  | expr => Run.evalWith eval exec scope expr

theorem evalWith_of_ne {waiting : Option String} {eval : Scope → Expr → Run Value}
    {exec : Scope → Stmt → Run (Flow × Scope)} {scope : Scope} {expr : Expr}
    (hassign : ∀ id name value, expr ≠ .assign id name value) :
    evalWith waiting eval exec scope expr = Run.evalWith eval exec scope expr := by
  cases expr <;> first | rfl | exact absurd rfl (hassign _ _ _)

def execWith (eval : Option String → Scope → Expr → Run Value)
    (exec : Scope → Stmt → Run (Flow × Scope)) (scope : Scope) : Stmt → Run (Flow × Scope)
  | .varDecl name initializer =>
    let waiting := if scope.isLocal then some name.lexeme else none
    Run.execWith (eval waiting) exec scope (.varDecl name initializer)
  | stmt => Run.execWith (eval none) exec scope stmt

theorem execWith_of_ne {eval : Option String → Scope → Expr → Run Value}
    {exec : Scope → Stmt → Run (Flow × Scope)} {scope : Scope} {stmt : Stmt}
    (hvar : ∀ name initializer, stmt ≠ .varDecl name initializer) :
    execWith eval exec scope stmt = Run.execWith (eval none) exec scope stmt := by
  cases stmt <;> first | rfl | exact absurd rfl (hvar _ _)

/-- The condition of a loop holds; an absent one always does. -/
def holds (eval : Scope → Expr → Run Value) (scope : Scope) : Option Expr → Run Bool
  | some condition => do return (← eval scope condition).isTruthy
  | none => return true

/-- The body of a loop and then the increment, unless the body returns. -/
def turnWith (exec : Scope → Stmt → Run (Flow × Scope)) (scope : Scope) (body : Stmt)
    (increment : Expr) : Run Flow := do
  match (← exec scope body).1 with
  | .normal => return (← exec scope (.expression increment)).1
  | flow => return flow

def roundWith (exec : Scope → Stmt → Run (Flow × Scope)) (turn : Scope → Stmt → Expr → Run Flow)
    (scope : Scope) (l : ForLoop) : Run Flow :=
  match l.increment with
  | some increment => turn scope l.body increment
  | none => Prod.fst <$> exec scope l.body

/-- One round of a loop and all that follow, each in the same scope. -/
def roundsWith (eval : Scope → Expr → Run Value) (exec : Scope → Stmt → Run (Flow × Scope))
    (turn : Scope → Stmt → Expr → Run Flow) (rounds : Scope → ForLoop → Run Flow) (scope : Scope)
    (l : ForLoop) : Run Flow := do
  if ← holds eval scope l.condition then
    match ← roundWith exec turn scope l with
    | .normal => rounds scope l
    | flow => return flow
  else return .normal

/-- A `for` loop. Its scope is entered once, before the initializer. -/
def forWith (eval : Scope → Expr → Run Value) (exec : Scope → Stmt → Run (Flow × Scope))
    (turn : Scope → Stmt → Expr → Run Flow) (rounds : Scope → ForLoop → Run Flow) (scope : Scope)
    (l : ForLoop) : Run Flow :=
  match l.initializer with
  | some initializer => do
    match ← exec scope.enter initializer with
    | (.normal, scope) => rounds scope l
    | (flow, _) => return flow
  | none => roundsWith eval exec turn rounds scope.enter l

variable (loops : Loops)

mutual

def eval : (fuel : Nat) → (waiting : Option String) → Scope → Expr → Run Value
  | 0, _, _, _ => Action.exhausted
  | fuel + 1, waiting, scope, expr =>
    evalWith waiting (eval fuel waiting) (exec fuel) scope expr

def exec : (fuel : Nat) → Scope → Stmt → Run (Flow × Scope)
  | 0, _, _ => Action.exhausted
  | fuel + 1, scope, stmt =>
    match loops.written? stmt with
    | some l => do
      return (← forWith (eval fuel none) (exec fuel) (turn fuel) (rounds fuel) scope l, scope)
    | none => execWith (eval fuel) (exec fuel) scope stmt

def turn : (fuel : Nat) → Scope → Stmt → Expr → Run Flow
  | 0, _, _, _ => Action.exhausted
  | fuel + 1, scope, body, increment => turnWith (exec fuel) scope body increment

def rounds : (fuel : Nat) → Scope → ForLoop → Run Flow
  | 0, _, _ => Action.exhausted
  | fuel + 1, scope, l => roundsWith (eval fuel none) (exec fuel) (turn fuel) (rounds fuel) scope l

end

def program (fuel : Nat) : List Stmt → Run Unit
  | [] => Run.flush
  | stmt :: stmts => do
    let _ ← loops.exec fuel .global stmt
    program fuel stmts

end Loops
end Lexical
end LoxLang
