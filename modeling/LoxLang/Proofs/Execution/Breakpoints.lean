import LoxLang.Proofs.Execution.Steps

/-!
# Points of a run

What holds while a program runs is said of the points at which an expression is evaluated. A run
with breakpoints is a run that stops, by a fault of its own, as soon as an expression is about to be
evaluated in a state that the breakpoint describes; nothing else is changed, and the output never
gives that fault. A point is reached when the run that has it as its breakpoint stops.
-/
namespace LoxLang

/-- Stands for the fact that a breakpoint was met. -/
def RunFault.stopped : RunFault := .output (.other "stopped")

namespace Run

variable (stop : Expr → Machine → Prop)

open Classical in
noncomputable def checkpoint (expr : Expr) : Run Unit := fun m =>
  if stop expr m then .failed .stopped m else .done () m

mutual

/-- Evaluates an expression up to the first breakpoint. -/
noncomputable def evalUntil : (fuel : Nat) → Expr → Run Value
  | 0, _ => Action.exhausted
  | fuel + 1, expr => do
    checkpoint stop expr
    evalWith (evalUntil fuel) (execUntil fuel) expr

noncomputable def execUntil : (fuel : Nat) → Stmt → Run Flow
  | 0, _ => Action.exhausted
  | fuel + 1, stmt => execWith (evalUntil fuel) (execUntil fuel) stmt

end

/-- In a run of `program` from `m`, the expression is evaluated in the state `m'`. -/
def Reaches (fuel : Nat) (program : List Stmt) (m : Machine) (expr : Expr) (m' : Machine) : Prop :=
  ∃ m'', programWith (execUntil (fun e n => e = expr ∧ n = m') fuel) program m =
    .failed .stopped m''

theorem ensures_checkpoint {expr : Expr} {m : Machine} {Q : Unit → Machine → Prop}
    {E : RunFault → Machine → Prop} :
    (checkpoint stop expr).Ensures m Q E ↔
      (stop expr m → E .stopped m) ∧ (¬ stop expr m → Q () m) := by
  unfold Action.Ensures checkpoint
  by_cases h : stop expr m <;> simp [h]

variable {stop} in
theorem execUntil_print_of_stop {expr : Expr} {m : Machine} (h : stop expr m) (fuel : Nat) :
    execUntil stop (fuel + 2) (.print expr) m = .failed .stopped m := by
  simp [execUntil, execWith, evalUntil, Action.bind_apply, checkpoint, h]

theorem sequence_of_normal {exec : Stmt → Run Flow} {stmt : Stmt} {m m' : Machine}
    (h : exec stmt m = .done .normal m') (stmts : List Stmt) :
    sequence exec (stmt :: stmts) m = sequence exec stmts m' := by
  simp [sequence, Action.bind_apply, h]

theorem sequence_of_failed {exec : Stmt → Run Flow} {stmt : Stmt} {m m' : Machine}
    {fault : RunFault} (h : exec stmt m = .failed fault m') (stmts : List Stmt) :
    sequence exec (stmt :: stmts) m = .failed fault m' := by
  simp [sequence, Action.bind_apply, h]

variable {stop} in
theorem execUntil_block_of_failed {body : List Stmt} {fuel : Nat} {m m' : Machine}
    {fault : RunFault}
    (h : sequence (execUntil stop fuel) body { m with
      heap := (m.heap.addFrame (some m.current) ∅).2, current := m.heap.frames.next } =
        .failed fault m') :
    execUntil stop (fuel + 1) (.block body) m = .failed fault { m' with current := m.current } := by
  rw [execUntil]
  simp only [execWith, block, inFrame, Action.ensuring, Action.update, Action.bind_apply,
    Heap.addFrame] at h ⊢
  rw [h]

/-- Without breakpoints nothing is stopped. -/
theorem evalUntil_execUntil_never (fuel : Nat) :
    evalUntil (fun _ _ => False) fuel = eval fuel ∧
      execUntil (fun _ _ => False) fuel = exec fuel := by
  induction fuel with
  | zero =>
    exact ⟨funext fun _ => by simp [evalUntil, eval], funext fun _ => by simp [execUntil, exec]⟩
  | succ fuel ih =>
    constructor
    · funext expr m
      simp [evalUntil, eval, ih, Action.bind_apply, checkpoint]
    · funext stmt
      simp [execUntil, exec, ih]

end Run
end LoxLang
