import LoxLang.Proofs.Execution.Breakpoints

/-!
# Calls that are running

While the body of a callee is executed, the call expression that called it is being evaluated.
`evalAmid` and `execAmid` run code amid such calls: beside everything else they are given the call
expressions whose callees are running, innermost first. The depth of the machine plays no part in
this. Both stop, like a run with breakpoints, before an expression or a statement that the points to
stop at describe; without such points they are `eval` and `exec`.
-/
namespace LoxLang

def Expr.isCall : Expr → Bool
  | .call _ _ _ _ => true
  | _ => false

namespace Run

/-- What comes next at a point of a run. -/
inductive Point
  | expression (expr : Expr)
  | statement (stmt : Stmt)

open Classical in
/-- Stops in the states that `stop` describes. -/
noncomputable def pause (stop : Machine → Prop) : Run Unit := fun m =>
  if stop m then .failed .stopped m else .done () m

theorem ensures_pause {stop : Machine → Prop} {m : Machine} {Q : Unit → Machine → Prop}
    {E : RunFault → Machine → Prop} :
    (pause stop).Ensures m Q E ↔ (stop m → E .stopped m) ∧ (¬ stop m → Q () m) := by
  unfold Action.Ensures pause
  by_cases h : stop m <;> simp [h]

theorem pause_of_not {stop : Machine → Prop} {m : Machine} (h : ¬ stop m) :
    pause stop m = .done () m := by
  simp [pause, h]

section Amid

variable (stop : List Expr → Point → Machine → Prop)

mutual

/-- Evaluates an expression amid calls. What is executed on its way is the body of its callee. -/
noncomputable def evalAmid : (fuel : Nat) → (running : List Expr) → Expr → Run Value
  | 0, _, _ => Action.exhausted
  | fuel + 1, running, expr => do
    pause (stop running (.expression expr))
    evalWith (evalAmid fuel running) (execAmid fuel (expr :: running)) expr

/-- Executes a statement amid calls. -/
noncomputable def execAmid : (fuel : Nat) → (running : List Expr) → Stmt → Run Flow
  | 0, _, _ => Action.exhausted
  | fuel + 1, running, stmt => do
    pause (stop running (.statement stmt))
    execWith (evalAmid fuel running) (execAmid fuel running) stmt

end

/-- In a run of `program` from `m`, this comes next in the state `m'`, amid these calls. -/
def ReachesAmid (fuel : Nat) (program : List Stmt) (m : Machine) (running : List Expr)
    (point : Point) (m' : Machine) : Prop :=
  ∃ m'', programWith (execAmid (fun r p n => r = running ∧ p = point ∧ n = m') fuel []) program m =
    .failed .stopped m''

end Amid

theorem execAmid_of_not {stop : List Expr → Point → Machine → Prop} {fuel : Nat}
    {running : List Expr} {stmt : Stmt} {m : Machine} (h : ¬ stop running (.statement stmt) m) :
    execAmid stop (fuel + 1) running stmt m =
      execWith (evalAmid stop fuel running) (execAmid stop fuel running) stmt m := by
  rw [execAmid, Action.bind_apply, pause_of_not h]

theorem execAmid_succ_eq_done_iff {stop : List Expr → Point → Machine → Prop} {fuel : Nat}
    {running : List Expr} {stmt : Stmt} {m m' : Machine} {flow : Flow} :
    execAmid stop (fuel + 1) running stmt m = .done flow m' ↔
      ¬ stop running (.statement stmt) m ∧
        execWith (evalAmid stop fuel running) (execAmid stop fuel running) stmt m =
          .done flow m' := by
  by_cases h : stop running (.statement stmt) m
  · simp [execAmid, Action.bind_apply, pause, h]
  · simp [execAmid_of_not h, h]

/-- With breakpoints at expressions alone, whatever calls are running, this is a run with
breakpoints. -/
theorem evalAmid_execAmid_expressions (stop : Expr → Machine → Prop) (fuel : Nat) :
    (∀ running, evalAmid (fun _ p m => ∃ expr, p = .expression expr ∧ stop expr m) fuel running =
      evalUntil stop fuel) ∧
    ∀ running, execAmid (fun _ p m => ∃ expr, p = .expression expr ∧ stop expr m) fuel running =
      execUntil stop fuel := by
  induction fuel with
  | zero =>
    constructor
    · intro running
      funext expr
      rw [evalAmid, evalUntil]
    · intro running
      funext stmt
      rw [execAmid, execUntil]
  | succ fuel ih =>
    constructor
    · intro running
      funext expr
      have hpause : pause (fun m => ∃ e, Point.expression expr = .expression e ∧ stop e m) =
          checkpoint stop expr := by
        funext m
        have hpoint : (∃ e, Point.expression expr = .expression e ∧ stop e m) ↔ stop expr m := by
          simp
        unfold pause checkpoint
        by_cases h : stop expr m
        · rw [if_pos (hpoint.mpr h), if_pos h]
        · rw [if_neg (mt hpoint.mp h), if_neg h]
      rw [evalAmid, evalUntil, hpause, ih.1, ih.2]
    · intro running
      funext stmt m
      rw [execAmid, execUntil, ih.1, ih.2, Action.bind_apply, pause_of_not]
      rintro ⟨_, hpoint, -⟩
      cases hpoint

def never (_ : List Expr) (_ : Point) (_ : Machine) : Prop := False

theorem evalAmid_execAmid_never (fuel : Nat) (running : List Expr) :
    evalAmid never fuel running = eval fuel ∧ execAmid never fuel running = exec fuel := by
  have hpoints : never = fun _ p m => ∃ expr, p = .expression expr ∧
      (fun _ _ => False : Expr → Machine → Prop) expr m := by
    simp only [and_false, exists_false]
    rfl
  obtain ⟨heval, hexec⟩ := evalAmid_execAmid_expressions (fun _ _ => False) fuel
  obtain ⟨heval', hexec'⟩ := evalUntil_execUntil_never fuel
  rw [hpoints]
  exact ⟨(heval running).trans heval', (hexec running).trans hexec'⟩

/-- What every step of a run keeps, runs amid calls keep, too. -/
theorem preserves_evalAmid_execAmid {R : Machine → Machine → Prop} (hR : Machine.Stable R)
    (stop : List Expr → Point → Machine → Prop) (fuel : Nat) :
    (∀ running expr, Preserves R (evalAmid stop fuel running expr)) ∧
      ∀ running stmt, Preserves R (execAmid stop fuel running stmt) := by
  have hpause : ∀ stop, Preserves R (pause stop) := fun _ m =>
    ensures_pause.mpr ⟨fun _ => hR.refl m, fun _ => hR.refl m⟩
  induction fuel with
  | zero =>
    constructor
    · intro running expr
      rw [evalAmid]
      exact preserves_exhausted
    · intro running stmt
      rw [execAmid]
      exact preserves_exhausted
  | succ fuel ih =>
    constructor
    · intro running expr
      rw [evalAmid]
      exact .bind hR (hpause _) fun _ => preserves_evalWith hR (ih.1 _) (ih.2 _) expr
    · intro running stmt
      rw [execAmid]
      exact .bind hR (hpause _) fun _ => preserves_execWith hR (ih.1 _) (ih.2 _) stmt

end Run
end LoxLang
