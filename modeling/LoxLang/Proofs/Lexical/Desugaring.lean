import LoxLang.Proofs.Lexical.Loops

/-!
# Loops come to what they are read as

Which statements are taken for `for` loops makes no difference (`Loops.unfolds`). The blocks that
are put around a loop extend no scope that anything depends on: a scope that is entered has the same
names as before, and a statement that declares nothing here yields the scope that it started from
(`Loops.exec_eq_of_names`). So the rounds of a loop come to the `while` loop, and the increment sees
the scope that the body saw.
-/
namespace LoxLang

namespace ForLoop

def step (l : ForLoop) : Stmt :=
  match l.increment with
  | some increment => .block [l.body, .expression increment]
  | none => l.body

/-- The rounds of the loop as a statement. -/
def repetition (l : ForLoop) (id : Nat) : Stmt :=
  .whileLoop (l.condition.getD (.literal id (.bool true))) l.step

theorem statement_eq (l : ForLoop) (id : Nat) : l.statement id =
    match l.initializer with
    | some initializer => .block [initializer, l.repetition id]
    | none => l.repetition id := rfl

theorem declaresHere_repetition (l : ForLoop) (id : Nat)
    (hbody : l.body.declaresHere = false) : (l.repetition id).declaresHere = false := by
  simp only [repetition, Stmt.declaresHere, step]
  cases l.increment with
  | none => exact hbody
  | some increment => rfl

theorem declaresHere_statement (l : ForLoop) (id : Nat) (hbody : l.body.declaresHere = false) :
    (l.statement id).declaresHere = false := by
  rw [statement_eq]
  cases l.initializer with
  | none => exact l.declaresHere_repetition id hbody
  | some initializer => rfl

end ForLoop

namespace Lexical

section Names

variable {scope scope' : Scope}

theorem Scope.find?_eq_of_names (h : scope.names = scope'.names) : scope.find? = scope'.find? := by
  funext name
  simp [Scope.find?, h]

theorem Scope.enter_eq_of_names (h : scope.names = scope'.names) : scope.enter = scope'.enter := by
  simp [Scope.enter, h]

theorem readName_eq_of_names (h : scope.names = scope'.names) :
    Run.readName scope = Run.readName scope' := by
  unfold Run.readName Store.valueOf?
  rw [Scope.find?_eq_of_names h]

theorem writeName_eq_of_names (h : scope.names = scope'.names) :
    Run.writeName scope = Run.writeName scope' := by
  unfold Run.writeName Store.assign?
  rw [Scope.find?_eq_of_names h]

end Names

namespace Loops

variable {fuel : Nat} {waiting : Option String} {scope scope' : Scope} {expr : Expr} {stmt : Stmt}

theorem exec_plain_succ (fuel : Nat) (scope : Scope) (stmt : Stmt) :
    Loops.plain.exec (fuel + 1) scope stmt =
      execWith (Loops.plain.eval fuel) (Loops.plain.exec fuel) scope stmt := by
  rw [exec]
  rfl

/-- Expressions depend on the names in scope only. -/
theorem evalWith_eq_of_names (h : scope.names = scope'.names) {eval : Scope → Expr → Run Value}
    {exec : Scope → Stmt → Run (Flow × Scope)} (heval : eval scope = eval scope') :
    evalWith waiting eval exec scope expr = evalWith waiting eval exec scope' expr := by
  cases expr <;> simp only [evalWith, Run.evalWith, heval, readName_eq_of_names h,
    writeName_eq_of_names h]

theorem eval_eq_of_names (h : scope.names = scope'.names) :
    Loops.plain.eval fuel waiting scope = Loops.plain.eval fuel waiting scope' := by
  induction fuel with
  | zero =>
    funext expr
    rw [eval, eval]
  | succ fuel ih =>
    funext expr
    rw [eval, eval]
    exact evalWith_eq_of_names h ih

/-- A statement that declares nothing here depends on the names in scope only, and yields the scope
that it started from. -/
theorem exec_eq_of_names (h : scope.names = scope'.names) (hstmt : stmt.declaresHere = false) :
    Loops.plain.exec fuel scope stmt =
      (fun result => (result.1, scope)) <$> Loops.plain.exec fuel scope' stmt := by
  -- over the fuel and not over the statement, since a loop goes on as the statement that it is
  induction fuel generalizing stmt with
  | zero =>
    rw [exec, exec]
    rfl
  | succ fuel ih =>
    rw [exec_plain_succ, exec_plain_succ]
    have heval := @eval_eq_of_names fuel none scope scope' h
    cases stmt with
    | varDecl name initializer => simp [Stmt.declaresHere] at hstmt
    | funDecl declaration => simp [Stmt.declaresHere] at hstmt
    | classDecl name methods => simp [Stmt.declaresHere] at hstmt
    | expression expr => simp [execWith, Run.execWith, heval]
    | print expr => simp [execWith, Run.execWith, heval]
    | returnStmt keyword value => simp [execWith, Run.execWith, heval]
    | block body => simp [execWith, Run.execWith, Scope.enter_eq_of_names h]
    | ifThen condition thenBranch =>
      have hthen : thenBranch.declaresHere = false := hstmt
      simp only [execWith, Run.execWith, heval, map_bind]
      apply bind_congr
      intro value
      cases value.isTruthy with
      | true => simp [ih hthen]
      | false => simp
    | ifElse condition thenBranch elseBranch =>
      simp only [Stmt.declaresHere, Bool.or_eq_false_iff] at hstmt
      simp only [execWith, Run.execWith, heval, map_bind]
      apply bind_congr
      intro value
      cases value.isTruthy with
      | true => simp [ih hstmt.1]
      | false => simp [ih hstmt.2]
    | whileLoop condition body =>
      simp only [execWith, Run.execWith, heval, map_bind]
      apply bind_congr
      intro value
      cases value.isTruthy with
      | false => simp
      | true =>
        have hbody : body.declaresHere = false := hstmt
        simp only [if_true, ih hbody, bind_map_left, map_bind]
        apply bind_congr
        intro result
        obtain ⟨flow, scope₁⟩ := result
        cases flow with
        | normal => exact ih hstmt
        | returned value => simp

/-- How a statement that declares nothing here ends does not depend on whether its scope is entered
before it. -/
theorem fst_exec_enter (hstmt : stmt.declaresHere = false) :
    Prod.fst <$> Loops.plain.exec fuel scope.enter stmt =
      Prod.fst <$> Loops.plain.exec fuel scope stmt := by
  have hexec := @exec_eq_of_names fuel scope.enter scope stmt rfl hstmt
  rw [hexec, ← comp_map]
  rfl

theorem fst_exec_bind (hstmt : stmt.declaresHere = false) :
    (do return (← Prod.fst <$> Loops.plain.exec fuel scope stmt, scope)) =
      Loops.plain.exec fuel scope stmt := by
  have hexec := @exec_eq_of_names fuel scope scope stmt rfl hstmt
  rw [map_eq_pure_bind] at hexec
  rw [bind_map_left]
  exact hexec.symm

/-- With this fuel, every statement that is taken for a `for` loop comes to what it is. -/
structure Unfolds (loops : Loops) (fuel : Nat) : Prop where
  eval : loops.eval fuel = Loops.plain.eval fuel
  exec : loops.exec fuel = Loops.plain.exec fuel
  turn : ∀ scope body increment, body.declaresHere = false →
    loops.turn fuel scope body increment =
      Prod.fst <$> Loops.plain.exec fuel scope (.block [body, .expression increment])
  rounds : ∀ scope (l : ForLoop) id, l.body.declaresHere = false →
    loops.rounds fuel scope l = Prod.fst <$> Loops.plain.exec fuel scope (l.repetition id)

variable {loops : Loops} {l : ForLoop}

theorem holds_eq (condition : Option Expr) (id : Nat) :
    holds (Loops.plain.eval (fuel + 1) none) scope condition =
      (do return (← Loops.plain.eval (fuel + 1) none scope
        (condition.getD (.literal id (.bool true)))).isTruthy) := by
  cases condition with
  | some condition => rfl
  | none =>
    simp only [Option.getD_none]
    rw [eval]
    rfl

theorem Unfolds.roundWith_eq (h : Unfolds loops fuel) (scope : Scope)
    (hbody : l.body.declaresHere = false) :
    roundWith (loops.exec fuel) (loops.turn fuel) scope l =
      Prod.fst <$> Loops.plain.exec fuel scope l.step := by
  rw [h.exec, roundWith, ForLoop.step]
  cases l.increment with
  | none => rfl
  | some increment => exact h.turn scope l.body increment hbody

/-- The rounds of a loop come to the `while` loop, if they do so from the next round on. -/
theorem Unfolds.roundsWith_eq (h : Unfolds loops fuel) (scope : Scope) (id : Nat)
    (hbody : l.body.declaresHere = false) :
    roundsWith (loops.eval fuel none) (loops.exec fuel) (loops.turn fuel) (loops.rounds fuel)
      scope l = Prod.fst <$> Loops.plain.exec (fuel + 1) scope (l.repetition id) := by
  unfold roundsWith
  rw [h.eval, h.roundWith_eq scope hbody, h.rounds scope l id hbody, exec_plain_succ]
  cases fuel with
  | zero =>
    -- an absent condition needs no fuel, but the body of the first round does
    cases l.condition <;> rfl
  | succ fuel =>
    simp only [ForLoop.repetition, holds_eq l.condition id, execWith, Run.execWith, bind_assoc,
      pure_bind, map_bind]
    apply bind_congr
    intro value
    cases value.isTruthy with
    | false => simp
    | true =>
      simp only [if_true, bind_map_left, map_bind]
      apply bind_congr
      intro result
      obtain ⟨flow, scope₁⟩ := result
      cases flow with
      | normal => rfl
      | returned value => rfl

theorem Unfolds.turnWith_eq (h : Unfolds loops fuel) (scope : Scope) {body : Stmt}
    (increment : Expr) (hbody : body.declaresHere = false) :
    turnWith (loops.exec fuel) scope body increment =
      Prod.fst <$> Loops.plain.exec (fuel + 1) scope (.block [body, .expression increment]) := by
  have hblock := @exec_eq_of_names fuel scope.enter scope body rfl hbody
  have hincrement := @exec_eq_of_names fuel scope.enter scope (.expression increment) rfl rfl
  rw [h.exec, turnWith, exec_plain_succ]
  simp only [execWith, Run.execWith, Run.sequence, hblock, bind_map_left, map_bind, bind_assoc]
  apply bind_congr
  intro result
  obtain ⟨flow, scope₁⟩ := result
  cases flow with
  | returned value => rfl
  | normal =>
    simp only [hincrement, bind_map_left, bind_assoc]
    apply bind_congr
    intro result
    obtain ⟨flow, scope₁⟩ := result
    cases flow <;> rfl

/-- A loop with its initializer comes to the statement that it is read as. -/
theorem Unfolds.forWith_eq (h : Unfolds loops fuel) (scope : Scope) (id : Nat)
    (hbody : l.body.declaresHere = false) :
    forWith (loops.eval fuel none) (loops.exec fuel) (loops.turn fuel) (loops.rounds fuel) scope l =
      Prod.fst <$> Loops.plain.exec (fuel + 1) scope (l.statement id) := by
  rw [forWith, ForLoop.statement_eq]
  cases l.initializer with
  | none =>
    rw [h.roundsWith_eq _ id hbody]
    exact fst_exec_enter (l.declaresHere_repetition id hbody)
  | some initializer =>
    rw [h.exec, exec_plain_succ]
    simp only [execWith, Run.execWith, Run.sequence, map_bind, bind_assoc]
    apply bind_congr
    intro result
    obtain ⟨flow, scope₁⟩ := result
    cases flow with
    | returned value => rfl
    | normal =>
      simp only [h.rounds scope₁ l id hbody, bind_assoc, map_eq_pure_bind]
      apply bind_congr
      intro result
      obtain ⟨flow, scope₂⟩ := result
      cases flow <;> rfl

/-- Whatever is taken for a `for` loop comes to what it is read as, by induction over the fuel: the
parts of a loop and its later rounds have less. -/
theorem unfolds (loops : Loops) (fuel : Nat) : Unfolds loops fuel := by
  induction fuel with
  | zero =>
    constructor
    · funext waiting scope expr
      rw [eval, eval]
    · funext scope stmt
      rw [exec, exec]
    · intro scope body increment _
      rw [turn, exec]
      rfl
    · intro scope l id _
      rw [rounds, exec]
      rfl
  | succ fuel ih =>
    constructor
    · funext waiting scope expr
      rw [eval, eval, ih.eval, ih.exec]
    · funext scope stmt
      rw [exec]
      cases hwritten : loops.written? stmt with
      | none =>
        rw [exec_plain_succ, ih.eval, ih.exec]
      | some l =>
        obtain ⟨hbody, id, rfl⟩ := loops.faithful stmt l hwritten
        simp only [ih.forWith_eq scope id hbody]
        exact fst_exec_bind (l.declaresHere_statement id hbody)
    · intro scope body increment hbody
      rw [turn]
      exact ih.turnWith_eq scope increment hbody
    · intro scope l id hbody
      rw [rounds]
      exact ih.roundsWith_eq scope id hbody

end Loops
end Lexical
end LoxLang
