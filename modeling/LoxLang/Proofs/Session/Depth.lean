import LoxLang.Proofs.Execution.Easing
import LoxLang.Proofs.Session.Origins

/-!
# The depth of calls

The depth of calls is seen by nothing but the check that stops calls at the deepest nesting. A run
that is not stopped by this check comes to the same from any smaller depth, and in a session the
depth is the number of calls whose callees are running, so that it is never more than the deepest
nesting (`depth_transparent`).
-/
namespace LoxLang

/-- The limit on the depth alone is loosened: some calls are not counted. -/
def Easing.sparing (calls : Nat) : Easing where
  spared := calls
  sink := id
  Limits fault := ∃ token, fault = .operation token .stackOverflow
  overflow := .inr fun token => ⟨token, rfl⟩
  write h := h
  refused h := .inr h
  not_native := nofun

namespace Run

variable {α : Type}

def withDepth (depth : Nat) : Outcome Machine RunFault α → Outcome Machine RunFault α
  | .done value m => .done value { m with depth }
  | .failed fault m => .failed fault { m with depth }
  | .exhausted => .exhausted

/-- The run has ended, and not since calls were nested too deeply. -/
def Unhindered : Outcome Machine RunFault α → Prop
  | .done _ _ => True
  | .failed fault _ => ∀ token, fault ≠ .operation token .stackOverflow
  | .exhausted => False

/-- What a run comes to without being stopped by the depth, it comes to from a smaller depth. -/
theorem eq_withDepth_of_eases {x : Run α} {depth depth' : Nat} {m : Machine}
    (hle : depth ≤ depth') (hx : (Easing.sparing (depth' - depth)).Eases x)
    (h : Unhindered (x { m with depth := depth' })) :
    x { m with depth } = withDepth depth (x { m with depth := depth' }) := by
  have hspared : depth' - (depth' - depth) = depth := by omega
  have hmachine : ∀ n : Machine, n.depth = depth' →
      (Easing.sparing (depth' - depth)).machine n = { n with depth } := by
    rintro n rfl
    simp [Easing.machine, Easing.sparing, hspared]
  have hrun := hx { m with depth := depth' } (Nat.sub_le depth' depth)
  rw [hmachine _ rfl] at hrun
  unfold Action.Ensures at hrun
  cases hresult : x { m with depth := depth' } with
  | exhausted => simp [hresult, Unhindered] at h
  | done a m' =>
    rw [hresult] at hrun
    obtain ⟨hdepth, heq⟩ := hrun
    rw [heq, hmachine m' hdepth]
    rfl
  | failed fault m' =>
    rw [hresult] at hrun h
    rcases hrun with ⟨token, hlimit⟩ | ⟨hdepth, heq⟩
    · exact absurd hlimit (h token)
    · rw [heq, hmachine m' hdepth]
      rfl

end Run

namespace Session

/-- The limit on the depth of calls is transparent below the deepest nesting. Whatever evaluation or
execution comes to from one depth without being stopped by the limit, it comes to from any smaller
depth: the same value, flow or fault, and the same machine but for the depth. In any history of a
session no call is running between the runs, and at each point of a run the machine counts the call
expressions whose callees are running, never more than 255. -/
theorem depth_transparent :
    (∀ depth depth', depth ≤ depth' → ∀ fuel (m : Machine),
      (∀ expr, Run.Unhindered (Run.eval fuel expr { m with depth := depth' }) →
        Run.eval fuel expr { m with depth } =
          Run.withDepth depth (Run.eval fuel expr { m with depth := depth' })) ∧
      ∀ stmt, Run.Unhindered (Run.exec fuel stmt { m with depth := depth' }) →
        Run.exec fuel stmt { m with depth } =
          Run.withDepth depth (Run.exec fuel stmt { m with depth := depth' })) ∧
    ∀ clock sink readings sources s, Runs (startWith clock sink readings) sources s →
      s.machine.depth = 0 ∧
      ∀ fuel source running point m, s.ReachesAmid fuel source running point m →
        m.depth = running.length ∧ m.depth ≤ 255 ∧ ∀ expr ∈ running, expr.isCall = true := by
  constructor
  · intro depth depth' hle fuel m
    obtain ⟨heval, hexec⟩ := (Easing.sparing (depth' - depth)).eases_eval_exec fuel
    constructor
    · intro expr hend
      exact Run.eq_withDepth_of_eases hle (heval expr) hend
    · intro stmt hend
      exact Run.eq_withDepth_of_eases hle (hexec stmt) hend
  · intro clock sink readings sources s h
    refine ⟨(h.idle_ofSources "").depth, ?_⟩
    intro fuel source running point m hreach
    have hpoint := h.situated hreach
    exact ⟨hpoint.depth, hpoint.depth_le, hpoint.calls⟩

end Session

namespace Run

def constructed (m : Machine) (place : Nat) (method : Closure) : Machine :=
  let (new, heap) := m.heap.addInstance place
  let (bound, heap) := heap.bind method new
  let (frame, heap) := heap.addFrame (some bound.frame) ∅
  { m with heap, current := frame, depth := m.depth + 1 }

theorem evalAmid_construct_of_stop {stop : List Expr → Point → Machine → Prop}
    (hnot : ∀ point m, ¬ stop [] point m) {expr : Expr} {id id' : Nat} {name paren : Token}
    (hexpr : expr = .call id' (.var id name) paren []) {m : Machine} {place : Nat} {cls : Class}
    {method : Closure} {stmt : Stmt} (hvalue : m.valueOf? id name.lexeme = some (.cls place))
    (hcls : m.heap.classes[place]? = some cls) (hinit : cls.initializer? = some method)
    (hparams : method.declaration.params = []) (hbody : method.declaration.body = [stmt])
    (hdepth : m.depth < maxDepth) (fuel : Nat)
    (hstop : stop [expr] (.statement stmt) (constructed m place method)) :
    ∃ m', evalAmid stop (fuel + 2) [] expr m = .failed .stopped m' := by
  have hcallee : m.heap.callee? (.cls place) = some (.cls place cls) := by
    simp [Heap.callee?, hcls]
  have harity : Callee.arity (.cls place cls) = 0 := by
    simp [Callee.arity, Class.arity, hinit, Closure.arity, hparams]
  have hcall : evalAmid stop (fuel + 2) [] expr m =
      blaming paren (deeper (construct (execAmid stop (fuel + 1) [expr]) place cls [])) m := by
    simp [hexpr, evalAmid, evalWith, Action.bind_apply, pause_of_not (hnot _ _), readName,
      Action.view, hvalue, collect, Action.pure_apply, invoke_apply, hcallee, harity, hdepth, call]
  have hpause : execAmid stop (fuel + 1) [expr] stmt (constructed m place method) =
      .failed .stopped (constructed m place method) := by
    simp [execAmid, Action.bind_apply, pause, hstop]
  simp only [constructed, Heap.addInstance, Heap.bind, Heap.addFrame, Frames.next_push] at hpause
  rw [hcall]
  simp [blaming, deeper, construct, callClosure, block, inFrame, sequence, bindAll, hinit, hbody,
    hpause, onHeap, Action.bind_apply, Action.update, Action.ensuring, Heap.bind, Heap.addInstance,
    Heap.addFrame, RunFault.blame, RunFault.stopped]

end Run

namespace Session

/-- A source that makes an instance of a class with an initializer. -/
def instanceMade : String := "class A \x7b init() \x7b return; \x7d \x7d A();"

def emptyReturn : Stmt := .returnStmt ⟨.returnKw, "return", 1⟩ none

def callOfA : Expr := .call 1 (.var 0 ⟨.identifier, "A", 1⟩) ⟨.rightParen, ")", 1⟩ []

def initOfA : Closure := ⟨⟨⟨.identifier, "init", 1⟩, [], [emptyReturn]⟩, 0, true⟩

def classA : Class := ⟨"A", Table.set ∅ "init" initOfA⟩

def declaredA : Machine :=
  { Machine.initial .unlimited (fun _ => 0) with
    heap := { Heap.initial with
      frames := (Heap.initial.frames.define 0 "A" .nil).define 0 "A" (.cls 0)
      classes := #[classA] } }

def insideInit : Machine := Run.constructed declaredA 0 initOfA

theorem load_instanceMade : (start .unlimited fun _ => 0).load instanceMade =
    (.ok [.classDecl ⟨.identifier, "A", 1⟩ [initOfA.declaration], .expression callOfA],
      ⟨Machine.initial .unlimited fun _ => 0, 2⟩) := by
  rw [load, read, scan_eq]
  cbv

theorem declares_classA (eval : Expr → Run Value) (exec : Stmt → Run Flow) :
    Run.execWith eval exec (.classDecl ⟨.identifier, "A", 1⟩ [initOfA.declaration])
      (Machine.initial .unlimited fun _ => 0) = .done .normal declaredA := by
  cbv

theorem reachesAmid_insideInit : (start .unlimited fun _ => 0).ReachesAmid 9 instanceMade [callOfA]
    (.statement emptyReturn) insideInit := by
  let stop : List Expr → Run.Point → Machine → Prop := fun running point m =>
    running = [callOfA] ∧ point = .statement emptyReturn ∧ m = insideInit
  have hnot : ∀ point m, ¬ stop [] point m := by
    rintro _ _ ⟨hnil, -⟩
    cases hnil
  have hdeclare : Run.execAmid stop 9 [] (.classDecl ⟨.identifier, "A", 1⟩ [initOfA.declaration])
      (Machine.initial .unlimited fun _ => 0) = .done .normal declaredA := by
    rw [Run.execAmid_of_not (hnot _ _), declares_classA]
  have hvalue : declaredA.valueOf? 0 "A" = some (.cls 0) := by decide +kernel
  have hcall : ∃ m, Run.evalAmid stop 8 [] callOfA declaredA = .failed .stopped m :=
    Run.evalAmid_construct_of_stop hnot rfl hvalue rfl rfl rfl rfl (by decide) 6 ⟨rfl, rfl, rfl⟩
  obtain ⟨m, hcall⟩ := hcall
  have hexpression : Run.execAmid stop 9 [] (.expression callOfA) declaredA =
      .failed .stopped m := by
    rw [Run.execAmid_of_not (hnot _ _), Run.execWith, Action.bind_apply, hcall]
  refine ⟨_, _, load_instanceMade, m, ?_⟩
  rw [Run.programWith, Action.bind_apply, hdeclare]
  dsimp only
  rw [Run.programWith, Action.bind_apply, hexpression]

theorem depth_transparent_insideInit :
    (start .unlimited fun _ => 0).ReachesAmid 9 instanceMade [callOfA] (.statement emptyReturn)
      insideInit ∧ insideInit.depth = 1 ∧
    Run.Unhindered (Run.eval 3 callOfA { declaredA with depth := 254 }) ∧
    Run.eval 3 callOfA { declaredA with depth := 0 } =
      Run.withDepth 0 (Run.eval 3 callOfA { declaredA with depth := 254 }) := by
  obtain ⟨hfewer, hpoints⟩ := depth_transparent
  have hend : Run.Unhindered (Run.eval 3 callOfA { declaredA with depth := 254 }) := by
    cbv
  obtain ⟨-, hcounted⟩ := hpoints .clock .unlimited _ [] _ (.refl _)
  exact ⟨reachesAmid_insideInit, (hcounted _ _ _ _ _ reachesAmid_insideInit).1, hend,
    (hfewer 0 254 (by decide) 3 declaredA).1 callOfA hend⟩

end Session
end LoxLang
