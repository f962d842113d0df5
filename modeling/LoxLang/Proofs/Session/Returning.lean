import LoxLang.Proofs.Session.Context
import LoxLang.Proofs.Session.Origins

/-!
# A `return` ends its call

A `return` at any depth of blocks, branches and loops ends the call around it, and nothing else: of
the body nothing is executed behind it, no condition is evaluated again, and the call results in its
value, or in the instance if the body is that of an initializer. `Returns` says how a statement
comes to a `return`; it speaks of what comes before only. All this holds with any points to stop at,
so that nothing behind the `return` is even reached. In a source that can be executed no `return`
stands outside of functions, so that none of its statements returns (`return_ends_call`).
-/
namespace LoxLang

def Machine.entering (m : Machine) (parent : Option Nat) (vars : Table Value) : Machine :=
  { m with
    heap := (m.heap.addFrame parent vars).2
    current := (m.heap.addFrame parent vars).1 }

namespace Run

section Paths

variable (stop : List Expr → Point → Machine → Prop) (running : List Expr)

/-- From the state `m` the statement comes to a `return`, whose value is `v` in the state `m'`. -/
inductive Returns : (fuel : Nat) → Stmt → (m : Machine) → (v : Value) → (m' : Machine) → Prop
  | here {fuel : Nat} {keyword : Token} {value : Option Expr} {m : Machine} {v : Value}
    {m' : Machine} : ¬ stop running (.statement (.returnStmt keyword value)) m →
      evalOption (evalAmid stop fuel running) value m = .done v m' →
      Returns (fuel + 1) (.returnStmt keyword value) m v m'
  | block {fuel : Nat} {before after : List Stmt} {stmt : Stmt} {m m₁ : Machine} {v : Value}
    {m' : Machine} : ¬ stop running (.statement (.block (before ++ stmt :: after))) m →
      sequence (execAmid stop fuel running) before (m.entering (some m.current) ∅) =
        .done .normal m₁ →
      Returns fuel stmt m₁ v m' → Returns (fuel + 1) (.block (before ++ stmt :: after)) m v m'
  | ifThen {fuel : Nat} {condition : Expr} {thenBranch : Stmt} {c : Value} {m m₁ : Machine}
    {v : Value} {m' : Machine} : ¬ stop running (.statement (.ifThen condition thenBranch)) m →
      evalAmid stop fuel running condition m = .done c m₁ → c.isTruthy = true →
      Returns fuel thenBranch m₁ v m' → Returns (fuel + 1) (.ifThen condition thenBranch) m v m'
  | ifElse {fuel : Nat} {condition : Expr} {thenBranch elseBranch : Stmt} {c : Value}
    {m m₁ : Machine} {v : Value} {m' : Machine} :
      ¬ stop running (.statement (.ifElse condition thenBranch elseBranch)) m →
      evalAmid stop fuel running condition m = .done c m₁ →
      Returns fuel (if c.isTruthy then thenBranch else elseBranch) m₁ v m' →
      Returns (fuel + 1) (.ifElse condition thenBranch elseBranch) m v m'
  | thisRound {fuel : Nat} {condition : Expr} {body : Stmt} {c : Value} {m m₁ : Machine}
    {v : Value} {m' : Machine} : ¬ stop running (.statement (.whileLoop condition body)) m →
      evalAmid stop fuel running condition m = .done c m₁ → c.isTruthy = true →
      Returns fuel body m₁ v m' → Returns (fuel + 1) (.whileLoop condition body) m v m'
  | laterRound {fuel : Nat} {condition : Expr} {body : Stmt} {c : Value} {m m₁ m₂ : Machine}
    {v : Value} {m' : Machine} : ¬ stop running (.statement (.whileLoop condition body)) m →
      evalAmid stop fuel running condition m = .done c m₁ → c.isTruthy = true →
      execAmid stop fuel running body m₁ = .done .normal m₂ →
      Returns fuel (.whileLoop condition body) m₂ v m' →
      Returns (fuel + 1) (.whileLoop condition body) m v m'

/-- The same for statements one after the other: those before the one that returns end by
themselves, and those behind it do not matter. -/
def ReturnsIn (fuel : Nat) (body : List Stmt) (m : Machine) (v : Value) (m' : Machine) : Prop :=
  ∃ before stmt after m₁, body = before ++ stmt :: after ∧
    sequence (execAmid stop fuel running) before m = .done .normal m₁ ∧
    Returns stop running fuel stmt m₁ v m'

end Paths

section Sequences

variable {exec : Stmt → Run Flow} {m m₁ m' : Machine} {v : Value}

theorem sequence_append_of_normal {before : List Stmt} (after : List Stmt)
    (h : sequence exec before m = .done .normal m₁) :
    sequence exec (before ++ after) m = sequence exec after m₁ := by
  induction before generalizing m with
  | nil =>
    cases h
    rfl
  | cons stmt before ih =>
    obtain ⟨flow, m₂, hstmt, hrest⟩ := Action.bind_eq_done_iff.mp h
    cases flow with
    | normal =>
      rw [List.cons_append, sequence_of_normal hstmt]
      exact ih hrest
    | returned value => cases hrest

theorem execWith_block_eq_done_iff {eval : Expr → Run Value} {body : List Stmt} {flow : Flow} :
    execWith eval exec (.block body) m = .done flow m' ↔
      ∃ m₁, sequence exec body (m.entering (some m.current) ∅) = .done flow m₁ ∧
        m' = { m₁ with current := m.current } := by
  change Action.ensuring (sequence exec body) (fun n => { n with current := m.current })
    (m.entering (some m.current) ∅) = _ ↔ _
  unfold Action.ensuring
  cases sequence exec body (m.entering (some m.current) ∅) <;> simp [eq_comm]

theorem sequence_eq_returned_iff {body : List Stmt} :
    sequence exec body m = .done (.returned v) m' ↔
      ∃ before stmt after m₁, body = before ++ stmt :: after ∧
        sequence exec before m = .done .normal m₁ ∧ exec stmt m₁ = .done (.returned v) m' := by
  constructor
  · intro h
    induction body generalizing m with
    | nil => cases h
    | cons stmt body ih =>
      obtain ⟨flow, m₂, hstmt, hrest⟩ := Action.bind_eq_done_iff.mp h
      cases flow with
      | returned value =>
        cases hrest
        exact ⟨[], stmt, body, m, rfl, rfl, hstmt⟩
      | normal =>
        obtain ⟨before, stmt', after, m₃, rfl, hbefore, hreturn⟩ := ih hrest
        refine ⟨stmt :: before, stmt', after, m₃, rfl, ?_, hreturn⟩
        rw [sequence_of_normal hstmt]
        exact hbefore
  · rintro ⟨before, stmt, after, m₂, rfl, hbefore, hstmt⟩
    rw [sequence_append_of_normal _ hbefore, sequence, Action.bind_apply, hstmt]
    rfl

end Sequences

section Amid

variable {stop : List Expr → Point → Machine → Prop} {running : List Expr} {fuel : Nat}
  {m m' m'' : Machine} {v : Value}

variable (stop running fuel) in
theorem sameContext_evalAmid (expr : Expr) :
    Preserves Machine.SameContext (evalAmid stop fuel running expr) :=
  (preserves_evalAmid_execAmid Machine.stable_sameContext stop fuel).1 running expr

variable (stop running fuel) in
theorem sameContext_execAmid (stmt : Stmt) :
    Preserves Machine.SameContext (execAmid stop fuel running stmt) :=
  (preserves_evalAmid_execAmid Machine.stable_sameContext stop fuel).2 running stmt

theorem current_of_evalAmid {expr : Expr} (h : evalAmid stop fuel running expr m = .done v m') :
    m'.current = m.current :=
  ((sameContext_evalAmid stop running fuel expr m).of_done h).current

theorem current_of_execAmid {stmt : Stmt} {flow : Flow}
    (h : execAmid stop fuel running stmt m = .done flow m') : m'.current = m.current :=
  ((sameContext_execAmid stop running fuel stmt m).of_done h).current

/-- Where a statement comes to a `return`, it returns, in the state that the `return` left. -/
theorem Returns.execAmid_eq {stmt : Stmt} (h : Returns stop running fuel stmt m v m') :
    execAmid stop fuel running stmt m = .done (.returned v) { m' with current := m.current } := by
  induction h with
  | @here fuel keyword value m v m' hstop hvalue =>
    have hsame := ((preserves_evalOption Machine.stable_sameContext
      (sameContext_evalAmid stop running fuel) value m).of_done hvalue).current
    rw [execAmid_of_not hstop, execWith, Action.bind_apply, hvalue, ← hsame]
    rfl
  | @block fuel before after stmt m m₁ v m' hstop hbefore _ ih =>
    have hbody := sequence_eq_returned_iff.mpr ⟨before, stmt, after, m₁, rfl, hbefore, ih⟩
    rw [execAmid_of_not hstop]
    exact execWith_block_eq_done_iff.mpr ⟨_, hbody, rfl⟩
  | ifThen hstop hcondition htruthy _ ih =>
    rw [execAmid_of_not hstop, execWith, Action.bind_apply, hcondition]
    dsimp only
    rw [if_pos htruthy, ih, current_of_evalAmid hcondition]
  | @ifElse fuel condition thenBranch elseBranch c m m₁ v m' hstop hcondition _ ih =>
    rw [execAmid_of_not hstop, execWith, Action.bind_apply, hcondition,
      ← current_of_evalAmid hcondition, ← ih]
    cases hc : c.isTruthy <;> simp [hc]
  | thisRound hstop hcondition htruthy _ ih =>
    rw [execAmid_of_not hstop, execWith, Action.bind_apply, hcondition]
    dsimp only
    rw [if_pos htruthy, Action.bind_apply, ih, current_of_evalAmid hcondition]
    rfl
  | laterRound hstop hcondition htruthy hbody _ ih =>
    rw [execAmid_of_not hstop, execWith, Action.bind_apply, hcondition]
    dsimp only
    rw [if_pos htruthy, Action.bind_apply, hbody]
    dsimp only
    rw [ih, current_of_execAmid hbody, current_of_evalAmid hcondition]

/-- A statement that returns comes to a `return`. -/
theorem exists_returns {stmt : Stmt}
    (h : execAmid stop fuel running stmt m = .done (.returned v) m'') :
    ∃ m', Returns stop running fuel stmt m v m' := by
  induction fuel generalizing stmt m m'' with
  | zero =>
    rw [execAmid] at h
    cases h
  | succ fuel ih =>
    obtain ⟨hstop, hrun⟩ := execAmid_succ_eq_done_iff.mp h
    cases stmt with
    | expression expr =>
      obtain ⟨_, _, _, hnormal⟩ := Action.bind_eq_done_iff.mp hrun
      cases hnormal
    | print expr =>
      obtain ⟨_, _, _, hprint⟩ := Action.bind_eq_done_iff.mp hrun
      obtain ⟨_, _, _, hnormal⟩ := Action.bind_eq_done_iff.mp hprint
      cases hnormal
    | varDecl name initializer =>
      obtain ⟨_, _, _, hdefine⟩ := Action.bind_eq_done_iff.mp hrun
      obtain ⟨_, _, _, hnormal⟩ := Action.bind_eq_done_iff.mp hdefine
      cases hnormal
    | funDecl declaration =>
      obtain ⟨_, _, _, hnormal⟩ := Action.bind_eq_done_iff.mp hrun
      cases hnormal
    | classDecl name methods =>
      obtain ⟨_, _, _, hnormal⟩ := Action.bind_eq_done_iff.mp hrun
      cases hnormal
    | returnStmt keyword value =>
      obtain ⟨_, m₁, hvalue, hreturn⟩ := Action.bind_eq_done_iff.mp hrun
      cases hreturn
      exact ⟨_, .here hstop hvalue⟩
    | block body =>
      obtain ⟨m₁, hbody, -⟩ := execWith_block_eq_done_iff.mp hrun
      obtain ⟨before, stmt, after, m₂, rfl, hbefore, hstmt⟩ := sequence_eq_returned_iff.mp hbody
      obtain ⟨m', hreturns⟩ := ih hstmt
      exact ⟨m', .block hstop hbefore hreturns⟩
    | ifThen condition thenBranch =>
      obtain ⟨c, m₁, hcondition, hbranch⟩ := Action.bind_eq_done_iff.mp hrun
      split_ifs at hbranch with htruthy
      · obtain ⟨m', hreturns⟩ := ih hbranch
        exact ⟨m', .ifThen hstop hcondition htruthy hreturns⟩
      · cases hbranch
    | ifElse condition thenBranch elseBranch =>
      obtain ⟨c, m₁, hcondition, hbranch⟩ := Action.bind_eq_done_iff.mp hrun
      rw [← apply_ite (execAmid stop fuel running)] at hbranch
      obtain ⟨m', hreturns⟩ := ih hbranch
      exact ⟨m', .ifElse hstop hcondition hreturns⟩
    | whileLoop condition body =>
      obtain ⟨c, m₁, hcondition, hround⟩ := Action.bind_eq_done_iff.mp hrun
      split_ifs at hround with htruthy
      · obtain ⟨flow, m₂, hbody, hnext⟩ := Action.bind_eq_done_iff.mp hround
        cases flow with
        | normal =>
          obtain ⟨m', hreturns⟩ := ih hnext
          exact ⟨m', .laterRound hstop hcondition htruthy hbody hreturns⟩
        | returned value =>
          cases hnext
          obtain ⟨m', hreturns⟩ := ih hbody
          exact ⟨m', .thisRound hstop hcondition htruthy hreturns⟩
      · cases hround

theorem execAmid_eq_returned_iff {stmt : Stmt} :
    execAmid stop fuel running stmt m = .done (.returned v) m'' ↔
      ∃ m', Returns stop running fuel stmt m v m' ∧ m'' = { m' with current := m.current } := by
  constructor
  · intro h
    obtain ⟨m', hreturns⟩ := exists_returns h
    rw [hreturns.execAmid_eq] at h
    cases h
    exact ⟨m', hreturns, rfl⟩
  · rintro ⟨m', hreturns, rfl⟩
    exact hreturns.execAmid_eq

theorem sequence_execAmid_eq_returned_iff {body : List Stmt} :
    sequence (execAmid stop fuel running) body m = .done (.returned v) m'' ↔
      ∃ m', ReturnsIn stop running fuel body m v m' ∧ m'' = { m' with current := m.current } := by
  have hcurrent : ∀ {before : List Stmt} {m₁ : Machine},
      sequence (execAmid stop fuel running) before m = .done .normal m₁ →
        m₁.current = m.current := fun {before _} h =>
    ((preserves_sequence Machine.stable_sameContext (sameContext_execAmid stop running fuel) before
      m).of_done h).current
  rw [sequence_eq_returned_iff]
  constructor
  · rintro ⟨before, stmt, after, m₁, rfl, hbefore, hstmt⟩
    obtain ⟨m', hreturns, rfl⟩ := execAmid_eq_returned_iff.mp hstmt
    exact ⟨m', ⟨before, stmt, after, m₁, rfl, hbefore, hreturns⟩, by rw [hcurrent hbefore]⟩
  · rintro ⟨m', ⟨before, stmt, after, m₁, rfl, hbefore, hreturns⟩, rfl⟩
    refine ⟨before, stmt, after, m₁, rfl, hbefore, ?_⟩
    rw [hreturns.execAmid_eq, hcurrent hbefore]

/-- A call whose body returns results in the value, or in what `this` is in an initializer. -/
theorem ReturnsIn.callClosure_eq {c : Closure} {arguments : List Value}
    (h : ReturnsIn stop running fuel c.declaration.body
      (m.entering (some c.frame) (bindAll c.declaration.params arguments ∅)) v m') :
    callClosure (execAmid stop fuel running) c arguments m =
      .done (if c.isInitializer then (m'.heap.frames.getHere? c.frame "this").getD .nil else v)
        { m' with current := m.current } := by
  have hbody := sequence_execAmid_eq_returned_iff.mpr ⟨m', h, rfl⟩
  have hblock : block (execAmid stop fuel running) c.declaration.body m.heap.frames.next
      { m with heap := (m.heap.addFrame (some c.frame)
        (bindAll c.declaration.params arguments ∅)).2 } =
      .done (.returned v) { m' with current := m.current } := by
    change Action.ensuring (sequence (execAmid stop fuel running) c.declaration.body)
      (fun n => { n with current := m.current })
      (m.entering (some c.frame) (bindAll c.declaration.params arguments ∅)) = _
    rw [Action.ensuring, hbody]
  apply Action.bind_eq_done_iff.mpr ⟨_, _, rfl, Action.bind_eq_done_iff.mpr ⟨_, _, hblock, ?_⟩⟩
  cases c.isInitializer <;> rfl

end Amid

/-- What is called runs the body of the closure `c` in the machine `m'`. If the body returns, the
call results in the value, as `result` gives it. -/
inductive Opens (m : Machine) : Callee → (c : Closure) → (m' : Machine) →
    (result : Value → Value) → Prop
  | function {c : Closure} : c.isInitializer = false → Opens m (.function c) c m id
  | initializer {c : Closure} {place : Nat} : c.isInitializer = true →
    m.heap.frames.getHere? c.frame "this" = some (.inst place) →
      Opens m (.function c) c m fun _ => .inst place
  | construct {place : Nat} {cls : Class} {method : Closure} : cls.initializer? = some method →
    Opens m (.cls place cls)
      ((m.heap.addInstance place).2.bind method m.heap.instances.size).1
      { m with heap := ((m.heap.addInstance place).2.bind method m.heap.instances.size).2 }
      fun _ => .inst m.heap.instances.size

/-- The machine at the beginning of a body, one call deeper. -/
def opened (m : Machine) (c : Closure) (arguments : List Value) : Machine :=
  Machine.entering { m with depth := m.depth + 1 } (some c.frame)
    (bindAll c.declaration.params arguments ∅)

section Calls

variable {stop : List Expr → Point → Machine → Prop} {running : List Expr} {fuel : Nat}
  {m m₁ m' : Machine} {v : Value} {callee : Callee} {c : Closure} {arguments : List Value}
  {result : Value → Value} {o : Origin} {S : Prop}

/-- When its body returns, a call ends, with the result of its kind. -/
theorem Opens.call_eq (hopen : Opens m callee c m₁ result)
    (hexec : ConductsStmt o (m.depth + 1) fun stop => execAmid stop fuel running)
    (hm : m.heap.Proper o)
    (hcallee : callee.Proper o m.heap)
    (h : ReturnsIn stop running fuel c.declaration.body (opened m₁ c arguments) v m') :
    call (execAmid stop fuel running) callee arguments { m with depth := m.depth + 1 } =
      .done (result v) { m' with current := m.current } := by
  cases hopen with
  | function hinit =>
    have hcall := h.callClosure_eq
    rw [hinit] at hcall
    exact hcall
  | @initializer _ place hinit hthis =>
    have hcall := h.callClosure_eq
    -- whatever the body did, it left `this` alone
    have hconducts := hexec.callClosure (m := { m with depth := m.depth + 1 }) hm rfl hcallee.1
      arguments
    have hplace := ((hconducts.minds stop).of_done hcall).2.2 hinit place hthis
    rw [hplace] at hcall
    exact hcall
  | @construct place cls method hinit =>
    have hcall := h.callClosure_eq
    change Run.construct _ place cls arguments _ = _
    unfold Run.construct
    rw [hinit]
    refine Action.bind_eq_done_iff.mpr ⟨_, _, rfl, Action.bind_eq_done_iff.mpr ⟨_, _, rfl, ?_⟩⟩
    exact Action.bind_eq_done_iff.mpr ⟨_, _, hcall, rfl⟩

/-- A call expression comes to call `callee` with these arguments, in the state `m'`. -/
inductive Invokes (stop : List Expr → Point → Machine → Prop) (running : List Expr) (fuel : Nat) :
    Expr → (m : Machine) → Callee → (arguments : List Value) → (m' : Machine) → Prop
  | intro {id : Nat} {expr : Expr} {paren : Token} {exprs : List Expr} {m m₁ m' : Machine}
    {value : Value} {callee : Callee} {arguments : List Value} :
      ¬ stop running (.expression (.call id expr paren exprs)) m →
      evalAmid stop fuel running expr m = .done value m₁ →
      collect (evalAmid stop fuel running) exprs m₁ = .done arguments m' →
      m'.heap.callee? value = some callee → arguments.length = callee.arity →
      m'.depth < maxDepth →
      Invokes stop running fuel (.call id expr paren exprs) m callee arguments m'

theorem Invokes.sameContext {expr : Expr}
    (h : Invokes stop running fuel expr m callee arguments m') : m.SameContext m' := by
  cases h with
  | intro _ hvalue harguments =>
    have heval := sameContext_evalAmid stop running fuel
    exact Machine.stable_sameContext.trans ((heval _ m).of_done hvalue)
      ((preserves_collect Machine.stable_sameContext heval _ _).of_done harguments)

theorem exists_invokes {id : Nat} {expr : Expr} {paren : Token} {exprs : List Expr}
    (h : evalAmid stop (fuel + 1) running (.call id expr paren exprs) m = .done v m') :
    ∃ callee arguments m₁,
      Invokes stop running fuel (.call id expr paren exprs) m callee arguments m₁ := by
  have hstop : ¬ stop running (.expression (.call id expr paren exprs)) m := by
    intro hstop
    have hpause : pause (stop running (.expression (.call id expr paren exprs))) m =
        .failed .stopped m := if_pos hstop
    rw [evalAmid, Action.bind_apply, hpause] at h
    cases h
  rw [evalAmid, Action.bind_apply, pause_of_not hstop] at h
  obtain ⟨value, m₁, hvalue, hrest⟩ := Action.bind_eq_done_iff.mp h
  obtain ⟨arguments, m₂, harguments, hinvoke⟩ := Action.bind_eq_done_iff.mp hrest
  rw [invoke_apply] at hinvoke
  cases hcallee : m₂.heap.callee? value with
  | none =>
    rw [hcallee] at hinvoke
    cases hinvoke
  | some callee =>
    rw [hcallee] at hinvoke
    dsimp only at hinvoke
    split_ifs at hinvoke with harity hdeep
    exact ⟨callee, arguments, m₂, .intro hstop hvalue harguments hcallee (not_not.mp harity)
      (Nat.lt_of_not_le hdeep)⟩

/-- A call expression comes to what the call of its callee comes to, one call deeper. -/
theorem Invokes.exists_evalAmid_eq {expr : Expr}
    (h : Invokes stop running fuel expr m callee arguments m₁) :
    ∃ paren, evalAmid stop (fuel + 1) running expr m =
      blaming paren (deeper (call (execAmid stop fuel (expr :: running)) callee arguments)) m₁ := by
  cases h with
  | @intro id callee' paren exprs _ _ _ value _ _ hstop hvalue harguments hcallee harity hless =>
    refine ⟨paren, ?_⟩
    rw [evalAmid, Action.bind_apply, pause_of_not hstop]
    dsimp only
    rw [evalWith, Action.bind_apply, hvalue]
    dsimp only
    rw [Action.bind_apply, harguments]
    dsimp only
    rw [invoke_apply, hcallee]
    dsimp only
    rw [if_neg (not_not.mpr harity), if_neg (Nat.not_le.mpr hless)]

theorem Invokes.left_eq {expr : Expr}
    (h : Invokes stop running fuel expr m callee arguments m₁)
    (hcall : call (execAmid stop fuel (expr :: running)) callee arguments
      { m₁ with depth := m₁.depth + 1 } = .done v m') :
    ({ m' with depth := m'.depth - 1 } : Machine) =
      { m' with current := m.current, depth := m.depth } := by
  have hcontext := h.sameContext
  have hcalled := (preserves_call Machine.stable_sameContext
    (sameContext_execAmid stop (expr :: running) fuel) callee arguments _).of_done hcall
  have hcurrent : m'.current = m.current := hcalled.current.trans hcontext.current
  have hdepth : m'.depth - 1 = m.depth := by
    have hdeeper : m'.depth = m₁.depth + 1 := hcalled.depth
    rw [hdeeper, hcontext.depth, Nat.add_sub_cancel]
  rw [hdepth, ← hcurrent]

/-- A call expression has a value exactly if the call of its callee has it, and leaves the context
as it was. -/
theorem Invokes.evalAmid_eq_done_iff {expr : Expr}
    (h : Invokes stop running fuel expr m callee arguments m₁) {m'' : Machine} :
    evalAmid stop (fuel + 1) running expr m = .done v m'' ↔
      ∃ m', call (execAmid stop fuel (expr :: running)) callee arguments
          { m₁ with depth := m₁.depth + 1 } = .done v m' ∧
        m'' = { m' with current := m.current, depth := m.depth } := by
  obtain ⟨paren, heval⟩ := h.exists_evalAmid_eq
  rw [heval]
  unfold blaming deeper Action.ensuring
  constructor
  · intro hdone
    cases hcall : call (execAmid stop fuel (expr :: running)) callee arguments
        { m₁ with depth := m₁.depth + 1 } with
    | done a m' =>
      rw [hcall] at hdone
      cases hdone
      exact ⟨m', rfl, h.left_eq hcall⟩
    | failed fault m' =>
      rw [hcall] at hdone
      cases hdone
    | exhausted =>
      rw [hcall] at hdone
      cases hdone
  · rintro ⟨m', hcall, rfl⟩
    rw [hcall, ← h.left_eq hcall]

theorem Invokes.evalAmid_eq {expr : Expr}
    (h : Invokes stop running fuel expr m callee arguments m₁)
    (hcall : call (execAmid stop fuel (expr :: running)) callee arguments
      { m₁ with depth := m₁.depth + 1 } = .done v m') :
    evalAmid stop (fuel + 1) running expr m =
      .done v { m' with current := m.current, depth := m.depth } :=
  h.evalAmid_eq_done_iff.mpr ⟨m', hcall, rfl⟩

theorem Situated.of_invokes {expr : Expr} (hm : Situated o running (.expression expr) m)
    (h : Invokes stop running fuel expr m callee arguments m₁) :
    m₁.heap.Proper o ∧ callee.Proper o m₁.heap ∧
      ConductsStmt o (m₁.depth + 1) fun stop => execAmid stop fuel (expr :: running) := by
  have hcontext := h.sameContext
  obtain ⟨hheap, hcode, hdepth, hle, hcalls⟩ := hm
  obtain ⟨heval, hexec⟩ := conducts_evalAmid_execAmid o fuel
  cases h with
  | intro _ hvalue harguments hcallee _ hless =>
    obtain ⟨hformed, hcanonical⟩ := hcode
    have hparts := heval running hcalls (hdepth ▸ hle)
    obtain ⟨hheap₁, hretain₁, -⟩ :=
      ((hparts hheap hdepth ⟨hformed.1, hcanonical.2.1⟩).minds stop).of_done hvalue
    obtain ⟨hheap₂, -, -⟩ := ((hparts.collect hheap₁ (hretain₁.depth.trans hdepth)
      ⟨hformed.2.2, hcanonical.2.2.2.2⟩).minds stop).of_done harguments
    refine ⟨hheap₂, hheap₂.of_callee? hcallee, ?_⟩
    have hrunning : m₁.depth = running.length := hcontext.depth.trans hdepth
    rw [hrunning] at hless ⊢
    exact hexec (_ :: running) (List.forall_mem_cons.mpr ⟨rfl, hcalls⟩) hless

theorem exists_opens (h : (Callee.function c).Proper o m.heap) :
    ∃ result, Opens m (.function c) c m result := by
  cases hinit : c.isInitializer with
  | false => exact ⟨id, .function hinit⟩
  | true =>
    obtain ⟨place, hthis⟩ := h.2 hinit
    exact ⟨fun _ => .inst place, .initializer hinit hthis⟩

end Calls

/-- Where a statement returns, the walk over its names meets a `return`. -/
theorem Returns.exists_returning {stop : List Expr → Point → Machine → Prop} {running : List Expr}
    {fuel : Nat} {stmt : Stmt} {m m' : Machine} {v : Value}
    (h : Returns stop running fuel stmt m v m') (scopes : List Scope) (inFunction inClass : Bool) :
    ∃ keyword, .returning inFunction keyword ∈ stmt.encounters scopes inFunction inClass := by
  induction h generalizing scopes with
  | @here fuel keyword value m v m' _ _ => exact ⟨keyword, by simp [Stmt.encounters]⟩
  | @block fuel before after stmt m m₁ v m' _ _ _ ih =>
    obtain ⟨keyword, hmem⟩ := ih (Stmt.scopesAfterAll (∅ :: scopes) before)
    refine ⟨keyword, ?_⟩
    rw [Stmt.encounters, Stmt.encountersAll_append, Stmt.encountersAll]
    simp [hmem]
  | ifThen _ _ _ _ ih =>
    obtain ⟨keyword, hmem⟩ := ih scopes
    exact ⟨keyword, by simp [Stmt.encounters, hmem]⟩
  | @ifElse fuel condition thenBranch elseBranch c m m₁ v m' _ _ _ ih =>
    split_ifs at ih
    · obtain ⟨keyword, hmem⟩ := ih scopes
      exact ⟨keyword, by simp [Stmt.encounters, hmem]⟩
    · obtain ⟨keyword, hmem⟩ := ih (thenBranch.scopesAfter scopes)
      exact ⟨keyword, by simp [Stmt.encounters, hmem]⟩
  | thisRound _ _ _ _ ih =>
    obtain ⟨keyword, hmem⟩ := ih scopes
    exact ⟨keyword, by simp [Stmt.encounters, hmem]⟩
  | laterRound _ _ _ _ _ ih => exact ih scopes

/-- A program of statements that do not return is a sequence of statements. -/
theorem programWith_eq_sequence {exec : Stmt → Run Flow} {stmts : List Stmt}
    (h : ∀ stmt ∈ stmts, ∀ m v m', exec stmt m ≠ .done (.returned v) m') :
    programWith exec stmts = sequence exec stmts >>= fun _ => flush := by
  induction stmts with
  | nil => rfl
  | cons stmt stmts ih =>
    rw [List.forall_mem_cons] at h
    rw [programWith, sequence, bind_assoc, ih h.2]
    funext m
    rw [Action.bind_apply, Action.bind_apply]
    cases hrun : exec stmt m with
    | exhausted => rfl
    | failed fault m' => rfl
    | done flow m' =>
      cases flow with
      | normal => rfl
      | returned v => exact absurd hrun (h.1 m v m')

theorem reachesAmid_behind {declaration : Stmt} {m m' : Machine}
    (h : ∀ eval exec, execWith eval exec declaration m = .done .normal m') (expr : Expr)
    (fuel : Nat) :
    ReachesAmid (fuel + 2) [declaration, .expression expr] m [] (.expression expr) m' := by
  let stop : List Expr → Point → Machine → Prop := fun running point n =>
    running = [] ∧ point = .expression expr ∧ n = m'
  have hnot : ∀ stmt n, ¬ stop [] (.statement stmt) n := by
    intro stmt n hstop
    cases hstop.2.1
  have hdeclare : execAmid stop (fuel + 2) [] declaration m = .done .normal m' := by
    rw [execAmid_of_not (hnot _ _), h]
  have hexpr : evalAmid stop (fuel + 1) [] expr m' = .failed .stopped m' := by
    simp [evalAmid, Action.bind_apply, pause, stop]
  have hexpression : execAmid stop (fuel + 2) [] (.expression expr) m' = .failed .stopped m' := by
    rw [execAmid_of_not (hnot _ _), execWith, Action.bind_apply, hexpr]
  refine ⟨m', ?_⟩
  rw [programWith, Action.bind_apply, hdeclare]
  dsimp only
  rw [programWith, Action.bind_apply, hexpression]

end Run

namespace Session

variable {s t : Session} {source : String} {statements : List Stmt}

/-- No statement of a source that can be executed returns. -/
theorem not_returned_of_load (h : s.load source = (.ok statements, t)) {stmt : Stmt}
    (hstmt : stmt ∈ statements) (fuel : Nat) (m : Machine) (v : Value) (m' : Machine) :
    Run.exec fuel stmt m ≠ .done (.returned v) m' := by
  intro hrun
  rw [← (Run.evalAmid_execAmid_never fuel []).2] at hrun
  obtain ⟨m₁, hreturns⟩ := Run.exists_returns hrun
  obtain ⟨⟨-, hscope⟩, rfl, -⟩ := load_eq_ok_iff.mp h
  obtain ⟨before, after, hsplit⟩ := List.append_of_mem hstmt
  obtain ⟨keyword, hmem⟩ := hreturns.exists_returning (Stmt.scopesAfterAll [] before) false false
  have hmet : .returning false keyword ∈ encountersOf (s.parsed source).statements := by
    rw [hsplit, encountersOf, Stmt.encountersAll_append, Stmt.encountersAll]
    simp [hmem]
  have hfault := List.filterMap_eq_nil_iff.mp hscope _ hmet
  simp [Encounter.fault?] at hfault

/-- A `return` ends the call around it, and never more. In a source that can be executed no
statement returns, so that nothing is ignored when its statements are executed one after the other.
Statements return exactly if they come to a `return`, at any depth of blocks, branches and loops, in
the state that it left but for the current frame. This holds whatever the points to stop at are, so
nothing behind it is reached; with none of them it speaks of `exec` itself. At each point of a
session's run where an expression calls a function, a method or a class, and the body that it opens
comes to a `return`, the call ends in that state, with the value or, for initializers, with the
instance that is bound to `this`. -/
theorem return_ends_call :
    (∀ s source statements t, load source s = (.ok statements, t) → ∀ fuel,
      (∀ stmt ∈ statements, ∀ m v m', Run.exec fuel stmt m ≠ .done (.returned v) m') ∧
      Run.program fuel statements =
        Run.sequence (Run.exec fuel) statements >>= fun _ => Run.flush) ∧
    (∀ stop running fuel body m v m'',
      Run.sequence (Run.execAmid stop fuel running) body m = .done (.returned v) m'' ↔
        ∃ m', Run.ReturnsIn stop running fuel body m v m' ∧
          m'' = { m' with current := m.current }) ∧
    ∀ clock sink readings sources s, Runs (startWith clock sink readings) sources s →
      ∀ fuel source running expr m, s.ReachesAmid fuel source running (.expression expr) m →
      ∀ stop fuel' callee arguments m₁,
        Run.Invokes stop running fuel' expr m callee arguments m₁ →
        (∀ c, callee = .function c → ∃ result, Run.Opens m₁ callee c m₁ result) ∧
        ∀ c m₂ result, Run.Opens m₁ callee c m₂ result → ∀ v m',
          Run.ReturnsIn stop (expr :: running) fuel' c.declaration.body
            (Run.opened m₂ c arguments) v m' →
          Run.evalAmid stop (fuel' + 1) running expr m =
            .done (result v) { m' with current := m.current, depth := m.depth } := by
  refine ⟨fun s source statements t h fuel => ?_, fun _ _ _ _ _ _ _ =>
    Run.sequence_execAmid_eq_returned_iff, ?_⟩
  · have hnone : ∀ stmt ∈ statements, ∀ m v m', Run.exec fuel stmt m ≠ .done (.returned v) m' :=
      fun _ hstmt => not_returned_of_load h hstmt fuel
    exact ⟨hnone, Run.programWith_eq_sequence hnone⟩
  · intro clock sink readings sources s h fuel source running expr m hreach stop fuel' callee
      arguments m₁ hinvokes
    have hpoint := h.situated hreach
    obtain ⟨hheap, hcallee, hexec⟩ := hpoint.of_invokes hinvokes
    constructor
    · rintro c rfl
      exact Run.exists_opens hcallee
    · intro c m₂ result hopens v m' hreturns
      rw [hinvokes.evalAmid_eq (hopens.call_eq hexec hheap hcallee hreturns)]

/-- A source with a function that returns from a loop. -/
def loopLeft : String :=
  "fun f() \x7b while (true) \x7b if (true) return true; \x7d print f; \x7d f();"

def loopOfF : Stmt :=
  .whileLoop (.literal 0 (.bool true)) (.block [.ifThen (.literal 1 (.bool true))
    (.returnStmt ⟨.returnKw, "return", 1⟩ (some (.literal 2 (.bool true))))])

def functionF : Closure :=
  ⟨⟨⟨.identifier, "f", 1⟩, [], [loopOfF, .print (.var 3 ⟨.identifier, "f", 1⟩)]⟩, 0, false⟩

def callOfF : Expr := .call 5 (.var 4 ⟨.identifier, "f", 1⟩) ⟨.rightParen, ")", 1⟩ []

def declaredF : Machine :=
  { Machine.initial .unlimited (fun _ => 0) with
    heap := { Heap.initial with
      frames := Heap.initial.frames.define 0 "f" (.function 0)
      closures := #[functionF] } }

def insideLoop : Machine :=
  let m := Run.opened declaredF functionF []
  m.entering (some m.current) ∅

theorem load_loopLeft : (start .unlimited fun _ => 0).load loopLeft =
    (.ok [.funDecl functionF.declaration, .expression callOfF],
      ⟨Machine.initial .unlimited fun _ => 0, 6⟩) := by
  rw [load, read, scan_eq]
  cbv

theorem reachesAmid_callOfF : (start .unlimited fun _ => 0).ReachesAmid 9 loopLeft []
    (.expression callOfF) declaredF :=
  ⟨_, _, load_loopLeft, Run.reachesAmid_behind (fun _ _ => rfl) callOfF 7⟩

theorem invokes_callOfF :
    Run.Invokes Run.never [] 6 callOfF declaredF (.function functionF) [] declaredF := by
  have hvalue : declaredF.valueOf? 4 "f" = some (.function 0) := by decide +kernel
  have heval : Run.evalAmid Run.never 6 [] (.var 4 ⟨.identifier, "f", 1⟩) declaredF =
      .done (.function 0) declaredF := by
    rw [(Run.evalAmid_execAmid_never 6 []).1]
    simp [Run.eval, Run.evalWith, Run.readName, Action.bind_apply, Action.view, Action.pure_apply,
      hvalue]
  exact .intro id heval rfl rfl rfl (by decide)

theorem returnsIn_loopOfF :
    Run.ReturnsIn Run.never [callOfF] 6 functionF.declaration.body
      (Run.opened declaredF functionF []) (.bool true) insideLoop := by
  have htrue : ∀ fuel id m, Run.evalAmid Run.never (fuel + 1) [callOfF]
      (.literal id (.bool true)) m = .done (.bool true) m := by
    intro fuel id m
    rw [(Run.evalAmid_execAmid_never (fuel + 1) [callOfF]).1]
    rfl
  refine ⟨[], loopOfF, _, _, rfl, rfl, .thisRound id (htrue _ _ _) rfl ?_⟩
  refine @Run.Returns.block _ _ _ [] [] _ _ insideLoop _ _ id rfl ?_
  exact .ifThen id (htrue _ _ _) rfl (.here id (htrue _ _ _))

theorem return_ends_call_loop :
    (∀ m v m', Run.exec 9 (.expression callOfF) m ≠ .done (.returned v) m') ∧
    (start .unlimited fun _ => 0).ReachesAmid 9 loopLeft [] (.expression callOfF) declaredF ∧
    Run.Invokes Run.never [] 6 callOfF declaredF (.function functionF) [] declaredF ∧
    Run.ReturnsIn Run.never [callOfF] 6 functionF.declaration.body
      (Run.opened declaredF functionF []) (.bool true) insideLoop ∧
    Run.evalAmid Run.never 7 [] callOfF declaredF =
      .done (.bool true) { insideLoop with current := Heap.globals, depth := 0 } := by
  obtain ⟨hload, -, hcall⟩ := return_ends_call
  refine ⟨(hload _ _ _ _ load_loopLeft 9).1 _ (by simp), reachesAmid_callOfF, invokes_callOfF,
    returnsIn_loopOfF, ?_⟩
  obtain ⟨-, hends⟩ := hcall .clock .unlimited _ [] _ (.refl _) _ _ _ _ _ reachesAmid_callOfF _ _ _
    _ _ invokes_callOfF
  exact hends _ _ _ (.function rfl) _ _ returnsIn_loopOfF

end Session
end LoxLang
