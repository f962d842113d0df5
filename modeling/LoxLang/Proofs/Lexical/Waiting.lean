import LoxLang.Proofs.Lexical.Evaluation
import LoxLang.Proofs.Lexical.Desugaring

/-!
# Initializers that assign their own variable

The walk over a program has a local name in scope while it passes the initializer of its variable,
but in a run the frame does not bind the name before the initializer has its value. So an assignment
to a name that waits is sent to a frame that does not hold it, and fails. With that rule programs
agree in both meanings without regard to what their initializers assign.
-/
namespace LoxLang

namespace Scopes

/-- This is the name that waits for its initializer in the innermost scope, if any does. -/
def Waits (scopes : List Scope) (waiting : Option String) : Prop :=
  ∀ name, scopes.head?.bind (·.get? name) = some false ↔ waiting = some name

theorem Ready.waits {scopes : List Scope} (h : Ready scopes) : Waits scopes none := by
  intro name
  cases scopes with
  | nil => simp
  | cons inner outer => simpa using h inner List.mem_cons_self name

theorem Ready.waits_declare {inner : Scope} {outer : List Scope} (h : Ready (inner :: outer))
    {name : String} (hname : inner.contains name = false) :
    Waits (Scopes.declare name (inner :: outer)) (some name) := by
  intro other
  rw [head_declare other hname, Option.some.injEq]
  split
  · next heq => simp [heq]
  · next hne => simp [hne, h inner List.mem_cons_self other]

end Scopes

namespace Lexical

variable {V : Encounter → Prop} {c : Config V} {scopes : List LoxLang.Scope} {scope : Scope}
  {inFunction inClass : Bool}

/-- The current frame does not hold a name that waits for its initializer. -/
theorem Config.Fits.getHere?_waiting (hc : c.Fits scopes scope) {name : String}
    (hwaits : scopes.head?.bind (·.get? name) = some false) :
    c.machine.heap.frames.getHere? c.machine.current name = none := by
  have hlocal : c.machine.current ≠ Heap.globals := by
    cases scopes with
    | nil => simp at hwaits
    | cons inner outer =>
      obtain ⟨p, here, outside, hp, -⟩ := hc.offers
      exact (Nat.zero_le p).trans_lt (Frames.lt_of_parent? hp) |>.ne'
  by_contra hsome
  have hplaced := c.sim.vars.bound _ name hlocal (Option.isSome_iff_ne_none.mpr hsome)
  rw [hc.own name hplaced] at hwaits
  simp at hwaits

/-- An assignment to a name that waits goes to the current frame, and fails. -/
theorem writeName_waiting (hc : c.Fits scopes scope) {expr : Expr} {name : Token}
    (hmet : V (.expression scopes inClass expr)) (href : expr.reference? inClass = some name)
    (hwaits : scopes.head?.bind (·.get? name.lexeme) = some false) (value : Value) :
    LoxLang.Run.writeName expr.id name value c.machine =
      .failed (.operation name (.undefinedVariable name.lexeme)) c.machine := by
  have hdistance : Scopes.distance? scopes name.lexeme = some 0 := by
    cases scopes with
    | nil => simp at hwaits
    | cons inner outer =>
      simp only [List.head?_cons, Option.bind_some] at hwaits
      simp [Scopes.distance?, List.findIdx?_cons, Table.contains, hwaits]
  have hnoted := c.sim.noted scopes inClass expr hmet
  simp only [Encounter.note?, href, Option.bind_some, Option.map_map, hdistance] at hnoted
  have hholder : c.machine.holderOf? expr.id name.lexeme = none := by
    simp [Machine.holderOf?, hnoted, Frames.holderAt?, Frames.ancestor?, hc.getHere?_waiting hwaits]
  simp [LoxLang.Run.writeName, LoxLang.Run.rebind, Action.bind_apply, Action.view, hholder,
    LoxLang.Run.fault, Action.fail]

theorem Agree.of_failed {α β : Type} {own : Bool} {x : LoxLang.Run α} {y : Run β}
    {Q : α → β → Config V → Prop} {fault : RunFault} (hx : x c.machine = .failed fault c.machine)
    (hy : y c.store = .failed fault c.store) : Agree own c x y Q := by
  unfold Agree Action.Related
  rw [hx, hy]
  exact ⟨rfl, c, rfl, rfl, .refl true c⟩

namespace Loops

variable {eval : Expr → LoxLang.Run Value} {exec : Stmt → LoxLang.Run Flow}
  {eval' : Option String → Scope → Expr → Run Value} {exec' : Scope → Stmt → Run (Flow × Scope)}

/-- Evaluation and execution agree, where evaluation is told the name that waits. -/
structure Agrees (V : Encounter → Prop) (eval : Expr → LoxLang.Run Value)
    (exec : Stmt → LoxLang.Run Flow) (eval' : Option String → Scope → Expr → Run Value)
    (exec' : Scope → Stmt → Run (Flow × Scope)) : Prop where
  eval : ∀ {scopes waiting}, Scopes.Readable scopes → Scopes.Waits scopes waiting →
    EvalAgrees V scopes eval (eval' waiting)
  exec : ExecAgrees V exec exec'

theorem Agrees.evalWith (hV : Faultless V) (h : Agrees V eval exec eval' exec') {expr : Expr}
    {waiting : Option String} (hc : c.Fits scopes scope) (hscopes : Scopes.Readable scopes)
    (hwaits : Scopes.Waits scopes waiting) (hexpr : expr.Met V scopes inClass) :
    Agree false c (LoxLang.Run.evalWith eval exec expr)
      (Loops.evalWith waiting (eval' waiting) exec' scope expr)
      fun value value' _ => value' = value := by
  have heval : EvalAgrees V scopes eval (eval' waiting) := h.eval hscopes hwaits
  by_cases hassign : ∃ id name value, expr = .assign id name value
  · obtain ⟨id, name, value, rfl⟩ := hassign
    have hself := hexpr.2 _ (Expr.mem_encounters_self scopes inClass _)
    simp only [Loops.evalWith, ← hwaits name.lexeme]
    by_cases hname : scopes.head?.bind (·.get? name.lexeme) = some false
    · -- the variable has no location yet
      obtain ⟨hform, hmet⟩ := hexpr
      simp only [Expr.encounters, List.forall_mem_append] at hmet
      simp only [hname, if_true]
      apply (heval hc ⟨hform.2, hmet.1⟩).bind
      rintro _ v c₁ hleads₁ rfl
      have hfault : LoxLang.Run.writeName id name v c₁.machine = _ :=
        writeName_waiting (hc.mono hleads₁) hself rfl hname v
      apply Agree.of_failed
      · rw [Action.bind_apply, hfault]
      · rfl
    · simp only [hname, if_false]
      have hassigned : Agree false c (LoxLang.Run.evalWith eval exec (.assign id name value))
          (Run.evalWith (eval' waiting) exec' scope (.assign id name value))
          fun value value' _ => value' = value :=
        EvalAgrees.assign heval hc hscopes hexpr hname
      exact hassigned
  · have hne : ∀ id name value, expr ≠ .assign id name value :=
      fun id name value heq => hassign ⟨id, name, value, heq⟩
    rw [evalWith_of_ne hne]
    exact EvalAgrees.evalWith hV heval h.exec hc hscopes hexpr hne

theorem Agrees.execWith (hV : Faultless V) (h : Agrees V eval exec eval' exec') {stmt : Stmt}
    (hc : c.Fits scopes scope) (hscopes : Scopes.Ready scopes)
    (hstmt : stmt.Met V scopes inFunction inClass) :
    Agree true c (LoxLang.Run.execWith eval exec stmt) (Loops.execWith eval' exec' scope stmt)
      fun flow result c' => result.1 = flow ∧
        (flow = .normal → c'.Fits (stmt.scopesAfter scopes) result.2) := by
  by_cases hvar : ∃ name initializer, stmt = .varDecl name initializer
  · obtain ⟨name, initializer, rfl⟩ := hvar
    have hspelled := hstmt.1.1.2.1 hstmt.1.1.1
    have hname : scopes.head?.any (·.contains name.lexeme) = false := by
      have hself := hV _ (hstmt.2 _ List.mem_cons_self)
      simpa [Encounter.fault?] using hself
    have hwaits : Scopes.Waits (Scopes.declare name.lexeme scopes)
        (if scope.isLocal then some name.lexeme else none) := by
      cases scopes with
      | nil =>
        obtain ⟨-, rfl⟩ := hc.offers
        exact Scopes.ready_nil.waits
      | cons inner outer =>
        obtain ⟨p, here, outside, -, -, rfl, -⟩ := hc.offers
        exact hscopes.waits_declare (by simpa using hname)
    have hdeclared : Agree true c (LoxLang.Run.execWith eval exec (.varDecl name initializer))
        (Run.execWith (eval' (if scope.isLocal then some name.lexeme else none)) exec' scope
          (.varDecl name initializer)) _ :=
      agree_varDecl hV hc hstmt (h.eval (hscopes.declare hspelled) hwaits)
    exact hdeclared
  · have hne : ∀ name initializer, stmt ≠ .varDecl name initializer :=
      fun name initializer heq => hvar ⟨name, initializer, heq⟩
    rw [execWith_of_ne hne]
    exact ExecAgrees.execWith hV h.exec (h.eval hscopes.readable hscopes.waits) hc hscopes hstmt hne

theorem agrees_plain (hV : Faultless V) (fuel : Nat) :
    Agrees V (LoxLang.Run.eval fuel) (LoxLang.Run.exec fuel) (Loops.plain.eval fuel)
      (Loops.plain.exec fuel) := by
  induction fuel with
  | zero =>
    constructor
    · intro scopes waiting hscopes hwaits c scope inClass expr hc hexpr
      rw [LoxLang.Run.eval, Loops.eval]
      exact .exhausted
    · intro c scopes scope inFunction inClass stmt hc hscopes hstmt
      rw [LoxLang.Run.exec, Loops.exec]
      exact .exhausted
  | succ fuel ih =>
    constructor
    · intro scopes waiting hscopes hwaits c scope inClass expr hc hexpr
      rw [LoxLang.Run.eval, Loops.eval]
      exact ih.evalWith hV hc hscopes hwaits hexpr
    · intro c scopes scope inFunction inClass stmt hc hscopes hstmt
      rw [LoxLang.Run.exec, exec_plain_succ]
      exact ih.execWith hV hc hscopes hstmt

theorem agree_program (loops : Loops) (hV : Faultless V) (fuel : Nat) {program : List Stmt}
    (hcurrent : c.machine.current = Heap.globals)
    (hform : Stmt.FormedAll Token.TellsThis program) (hmet : ∀ x ∈ encountersOf program, V x) :
    Agree true c (LoxLang.Run.program fuel program) (loops.program fuel program)
      fun _ _ _ => True := by
  have hexec : ExecAgrees V (LoxLang.Run.exec fuel) (loops.exec fuel) := by
    rw [(unfolds loops fuel).exec]
    exact (agrees_plain hV fuel).exec
  exact hexec.programWith rfl (fun _ _ => rfl) hcurrent hform hmet

end Loops
end Lexical
end LoxLang
