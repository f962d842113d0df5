import LoxLang.Proofs.Execution.Growth
import LoxLang.Proofs.Session.Depth
import LoxLang.Proofs.Session.Returning

/-!
# Instances and their methods

What `this` is bound to in the frame of a bound method is never changed: names that are declared or
assigned are identifiers, and `this` is none. So the call of an initializer can take its result from
there, whatever its body has done, and the call of a class results in the instance that it has made
(`calls_yield_instances`).
-/
namespace LoxLang
namespace Run

variable {o : Origin} {m m' : Machine} {v : Value} {arguments : List Value}

/-- Whatever code of this origin is run from here, and whatever such code declares or assigns, it
leaves all code on the heap of this origin and keeps what `this` is bound to. -/
structure Steady (o : Origin) (m : Machine) : Prop where
  eval : ∀ fuel (expr : Expr), expr.Proper o → Minds o False m (eval fuel expr) fun _ _ => True
  exec : ∀ fuel (stmt : Stmt), stmt.Proper o → Minds o False m (exec fuel stmt) fun _ _ => True
  declares : ∀ (name : Token) v, name.IsName o.IsToken →
    Minds o False m (define name.lexeme v) fun _ _ => True
  assigns : ∀ id (name : Token) v, name.IsName o.IsToken →
    Minds o False m (writeName id name v) fun _ _ => True
  binds : ∀ method place, Minds o False m (onHeap (·.bind method place)) fun bound m' =>
    m'.heap.frames.getHere? bound.frame "this" = some (.inst place)

theorem steady (hm : m.heap.Proper o) (hdepth : m.depth ≤ maxDepth) : Steady o m := by
  -- any calls will do as those that are running
  let running := List.replicate m.depth (Expr.call 0 (.literal 0 .nil) ⟨.eof, "", 0⟩ [])
  have hcalls : ∀ expr ∈ running, expr.isCall = true := by
    intro expr hexpr
    rw [List.eq_of_mem_replicate hexpr]
    rfl
  have hlength : m.depth = running.length := List.length_replicate.symm
  have hnever : ¬ Halts o never := fun ⟨_, _, _, _, h⟩ => h
  refine ⟨fun fuel expr hexpr => ?_, fun fuel stmt hstmt => ?_, fun name v hname =>
    minds_define hm hname.lexeme_ne v, fun id name v hname => minds_rebind hm hname v _,
    fun method place => (minds_bind hm method place).mono id fun _ _ h => h.2⟩
  · have hconducts := (conducts_evalAmid_execAmid o fuel).1 running hcalls (hlength ▸ hdepth) hm
      hlength hexpr
    rw [← (evalAmid_execAmid_never fuel running).1]
    exact (hconducts.minds never).mono hnever fun _ _ h => h
  · have hconducts := (conducts_evalAmid_execAmid o fuel).2 running hcalls (hlength ▸ hdepth) hm
      hlength hstmt
    rw [← (evalAmid_execAmid_never fuel running).2]
    exact (hconducts.minds never).mono hnever fun _ _ h => h

/-- A method that is read from an instance is an initializer if it is called `init`, and `this` is
bound to the instance. -/
theorem readProperty_of_method (hm : m.heap.Proper o) {place : Nat} {name : Token}
    {method : Closure} (hfield : m.heap.field? place name.lexeme = none)
    (hmethod : m.heap.method? place name.lexeme = some method) :
    ∃ c m', readProperty place name m = .done (.function m.heap.closures.size) m' ∧
      m'.heap.closures[m.heap.closures.size]? = some c ∧ c.declaration = method.declaration ∧
      c.isInitializer = decide (name.lexeme = "init") ∧
      m'.heap.frames.getHere? c.frame "this" = some (.inst place) := by
  let bound := m.heap.bind method place
  refine ⟨bound.1, { m with heap := (bound.2.addClosure bound.1).2 }, ?_, ?_, rfl,
    (hm.of_method? hmethod).isInitializer, m.heap.getHere?_bind method place⟩
  · simp only [readProperty, Action.bind_apply, Action.view, hfield, hmethod]
    rfl
  · simp [bound, Heap.addClosure, Heap.bind, Heap.addFrame]

/-- The initializer that the call of a class runs, and the machine that it runs in: there is a new
instance of the class, and `this` is bound to it. -/
def initializing (m : Machine) (place : Nat) (method : Closure) : Closure × Machine :=
  let bound := (m.heap.addInstance place).2.bind method m.heap.instances.size
  (bound.1, { m with heap := bound.2 })

/-- The call of a class has made a new instance and run the initializer of the class once on it,
with these arguments; without an initializer the instance has no fields, and nothing else has
happened. -/
structure Constructs (exec : Stmt → Run Flow) (place : Nat) (cls : Class)
    (arguments : List Value) (m : Machine) (v : Value) (m' : Machine) : Prop where
  value : v = .inst m.heap.instances.size
  fresh : ∀ old, (m.heap.instances[old]?).isSome → v ≠ .inst old
  instance_of : ∃ i, m'.heap.instances[m.heap.instances.size]? = some i ∧ i.cls = place
  initialized : ∀ method, cls.initializer? = some method →
    callClosure exec (initializing m place method).1 arguments
      (initializing m place method).2 = .done v m'
  plain : cls.initializer? = none → m' = { m with heap := (m.heap.addInstance place).2 } ∧
    m'.heap.instances[m.heap.instances.size]? = some ⟨place, ∅⟩

theorem construct_of_initializer {exec : Stmt → Run Flow} {place : Nat} {cls : Class}
    {method : Closure} (hinit : cls.initializer? = some method) :
    construct exec place cls arguments m =
      (callClosure exec (initializing m place method).1 arguments >>= fun _ =>
        pure (.inst m.heap.instances.size)) (initializing m place method).2 := by
  unfold construct
  rw [hinit]
  rfl

theorem construct_of_plain {exec : Stmt → Run Flow} {place : Nat} {cls : Class}
    (hinit : cls.initializer? = none) :
    construct exec place cls arguments m =
      .done (.inst m.heap.instances.size) { m with heap := (m.heap.addInstance place).2 } := by
  unfold construct
  rw [hinit]
  rfl

section Calls

variable {stop : Stops} {fuel : Nat} {running : List Expr}

/-- A call of an initializer has the instance that `this` is bound to. -/
theorem eq_inst_of_callClosure
    (hexec : ConductsStmt o m.depth fun stop => execAmid stop fuel running)
    (hm : m.heap.Proper o) {c : Closure} (hc : c.declaration.Proper o) {place : Nat}
    (hinit : c.isInitializer = true)
    (hthis : m.heap.frames.getHere? c.frame "this" = some (.inst place))
    (h : callClosure (execAmid stop fuel running) c arguments m = .done v m') :
    v = .inst place :=
  (((hexec.callClosure hm rfl hc arguments).minds stop).of_done h).2.2 hinit place hthis

/-- A call of a class makes an instance of it. -/
theorem constructs
    (hexec : ConductsStmt o m.depth fun stop => execAmid stop fuel running)
    (hm : m.heap.Proper o) {place : Nat} {cls : Class}
    (hcls : (Callee.cls place cls).Proper o m.heap)
    (h : construct (execAmid stop fuel running) place cls arguments m = .done v m') :
    Constructs (execAmid stop fuel running) place cls arguments m v m' := by
  have hnew : (m.heap.addInstance place).2.instances[m.heap.instances.size]? =
      some ⟨place, ∅⟩ := by
    simp [Heap.addInstance]
  have hfresh : ∀ old, (m.heap.instances[old]?).isSome →
      Value.inst m.heap.instances.size ≠ .inst old := by
    rintro old hold ⟨⟩
    simp at hold
  cases hinit : cls.initializer? with
  | none =>
    rw [construct_of_plain hinit] at h
    cases h
    exact ⟨rfl, hfresh, ⟨_, hnew, rfl⟩, by simp [hinit], fun _ => ⟨rfl, hnew⟩⟩
  | some method =>
    rw [construct_of_initializer hinit] at h
    obtain ⟨result, m₁, hcall, hvalue⟩ := Action.bind_eq_done_iff.mp h
    cases hvalue
    have hmethod : method.IsMethod o "init" := hcls "init" method hinit
    have hresult : result = .inst m.heap.instances.size :=
      eq_inst_of_callClosure (m := (initializing m place method).2) hexec
        ((hm.addInstance place).bind method _) (c := (initializing m place method).1) hmethod.code
        hmethod.isInitializer (Heap.getHere?_bind _ method _) hcall
    have hgrows : (initializing m place method).2.heap.Grows m'.heap :=
      (preserves_callClosure Machine.stable_heapGrows
        ((preserves_evalAmid_execAmid Machine.stable_heapGrows stop fuel).2 running) _ arguments
        _).of_done hcall
    obtain ⟨i, hi, hclass, -⟩ := hgrows.instances _ _ hnew
    refine ⟨rfl, hfresh, ⟨i, hi, hclass⟩, fun other hother => ?_, by simp [hinit]⟩
    obtain rfl : method = other := Option.some.inj (hinit.symm.trans hother)
    rw [← hresult]
    exact hcall

end Calls

end Run

namespace Session

/-- What `this` is bound to is never changed, so calls of initializers and classes yield instances.
From every machine with code of one origin on its heap, whatever code of this origin does keeps what
`this` is bound to, and the frame of a bound method has it bound to the instance. In any history of
a session this is so from run to run, and in a run from any point to any later one and to its end. A
call expression with a value calls something, and nothing else has that value: if it is a function
that initializes, be it read from an instance under the name `init`, the value is the instance that
it was bound to; if it is a class, the value is an instance of it that is none of those before, on
which the initializer has been run once, or that has no fields if there is none. -/
theorem calls_yield_instances :
    (∀ o m, Heap.Proper o m.heap → m.depth ≤ maxDepth → Run.Steady o m) ∧
    (∀ o m place name method, Heap.Proper o m.heap →
      m.heap.field? place name.lexeme = none → m.heap.method? place name.lexeme = some method →
      ∃ c m', Run.readProperty place name m = .done (.function m.heap.closures.size) m' ∧
        m'.heap.closures[m.heap.closures.size]? = some c ∧
        c.declaration = method.declaration ∧ c.isInitializer = decide (name.lexeme = "init") ∧
        m'.heap.frames.getHere? c.frame "this" = some (.inst place)) ∧
    ∀ clock sink readings sources s, Runs (startWith clock sink readings) sources s →
      (∀ sources' t, Runs s sources' t →
        s.machine.heap.frames.KeepsThis t.machine.heap.frames) ∧
      ∀ fuel source statements t, s.load source = (.ok statements, t) →
        (∀ stop n, Run.programWith (Run.execAmid stop fuel []) statements t.machine =
            .failed .stopped n →
          s.machine.heap.frames.KeepsThis n.heap.frames ∧
          ∀ stop' : Run.Stops, stop'.Within stop → Run.Kept n.heap.frames
            (Run.programWith (Run.execAmid stop' fuel []) statements t.machine)) ∧
        ∀ running point n, Run.ReachesAmid fuel statements t.machine running point n →
          n.heap.Proper (.ofSources (sources ++ [source]) #[clock]) ∧ n.depth ≤ maxDepth ∧
          ∀ id expr paren exprs, point = .expression (.call id expr paren exprs) →
          ∀ stop fuel' v n',
            Run.evalAmid stop (fuel' + 1) running (.call id expr paren exprs) n = .done v n' →
            ∃ callee arguments n₁ n₂,
              Run.Invokes stop running fuel' (.call id expr paren exprs) n callee arguments n₁ ∧
              Run.call (Run.execAmid stop fuel' (.call id expr paren exprs :: running)) callee
                arguments { n₁ with depth := n₁.depth + 1 } = .done v n₂ ∧
              n' = { n₂ with current := n.current, depth := n.depth } ∧
              (∀ c, callee = .function c → c.isInitializer = true → ∃ place,
                n₁.heap.frames.getHere? c.frame "this" = some (.inst place) ∧
                  v = .inst place) ∧
              ∀ place cls, callee = .cls place cls →
                Run.Constructs (Run.execAmid stop fuel' (.call id expr paren exprs :: running))
                  place cls arguments { n₁ with depth := n₁.depth + 1 } v n₂ := by
  refine ⟨fun o m => Run.steady, fun o m place name method hm => Run.readProperty_of_method hm, ?_⟩
  intro clock sink readings sources s h
  constructor
  · intro sources' t h'
    have hs : s.machine.Idle (.ofSources (sources ++ sources') #[clock]) :=
      h.idle (idle_startWith rfl) fun source hsource =>
        readFrom_ofSources _ source (List.mem_append_left _ hsource)
    exact h'.keepsThis hs fun source hsource =>
      readFrom_ofSources _ source (List.mem_append_right _ hsource)
  intro fuel source statements t hload
  have hsource : ReadFrom (.ofSources (sources ++ [source]) #[clock]) source :=
    readFrom_ofSources _ source (by simp)
  obtain ⟨hidle, hproper⟩ := idle_of_load (h.idle_ofSources source) hsource hload
  have hheap : t.machine.heap = s.machine.heap := by
    obtain ⟨-, -, rfl⟩ := load_eq_ok_iff.mp hload
    rfl
  have hconducts := Run.conducts_program hidle.heap hidle.depth hproper fuel
  constructor
  · intro stop n hstopped
    have hretain := ((hconducts.minds stop).of_failed hstopped).2.1
    exact ⟨hheap ▸ hretain.frames, fun stop' hstop => hconducts.later hstop hstopped⟩
  · intro running point n hreach
    have hpoint := hreach.situated hidle.heap hidle.depth hproper
    refine ⟨hpoint.heap, hpoint.depth_le, ?_⟩
    rintro id expr paren exprs rfl stop fuel' v n' hdone
    obtain ⟨callee, arguments, n₁, hinvokes⟩ := Run.exists_invokes hdone
    obtain ⟨n₂, hcall, hleft⟩ := hinvokes.evalAmid_eq_done_iff.mp hdone
    obtain ⟨hheap₁, hcallee, hexec⟩ := hpoint.of_invokes hinvokes
    refine ⟨callee, arguments, n₁, n₂, hinvokes, hcall, hleft, ?_, ?_⟩
    · rintro c rfl hinit
      obtain ⟨place, hthis⟩ := hcallee.2 hinit
      exact ⟨place, hthis, Run.eq_inst_of_callClosure
        (m := { n₁ with depth := n₁.depth + 1 }) hexec hheap₁ hcallee.1 hinit hthis hcall⟩
    · rintro place cls rfl
      exact Run.constructs (m := { n₁ with depth := n₁.depth + 1 }) hexec hheap₁ hcallee hcall

def initialized : String := "class A \x7b init() \x7b return; \x7d \x7d A().init();"

def callOfInit : Expr :=
  .call 3 (.get 2 callOfA ⟨.identifier, "init", 1⟩) ⟨.rightParen, ")", 1⟩ []

theorem load_initialized : (start .unlimited fun _ => 0).load initialized =
    (.ok [.classDecl ⟨.identifier, "A", 1⟩ [initOfA.declaration], .expression callOfInit],
      ⟨Machine.initial .unlimited fun _ => 0, 4⟩) := by
  rw [load, read, scan_eq]
  cbv

def declarationAndCall : List Stmt :=
  [.classDecl ⟨.identifier, "A", 1⟩ [initOfA.declaration], .expression callOfA]

theorem eval_callOfA : ∃ n, Run.evalAmid Run.never 6 [] callOfA declaredA = .done (.inst 0) n := by
  rw [(Run.evalAmid_execAmid_never 6 []).1]
  constructor
  cbv

theorem eval_callOfInit : ∃ n,
    Run.evalAmid Run.never 7 [] callOfInit declaredA = .done (.inst 0) n := by
  rw [(Run.evalAmid_execAmid_never 7 []).1]
  constructor
  cbv

theorem eval_classA : Run.evalAmid Run.never 5 [] (.var 0 ⟨.identifier, "A", 1⟩) declaredA =
    .done (.cls 0) declaredA := by
  rw [(Run.evalAmid_execAmid_never 5 []).1]
  cbv

/-- The initializer is read from the instance, bound to it in the frame 3. -/
theorem eval_init : ∃ n, Run.evalAmid Run.never 6 [] (.get 2 callOfA ⟨.identifier, "init", 1⟩)
    declaredA = .done (.function 0) n ∧
      n.heap.closures[0]? = some { initOfA with frame := 3 } := by
  rw [(Run.evalAmid_execAmid_never 6 []).1]
  constructor
  constructor
  · cbv
  · rfl

theorem exists_instance : ∃ report t,
    (start .unlimited fun _ => 0).run 9 instanceMade = some (report, t) ∧
      t.machine.heap.field? 0 "init" = none ∧
        ∃ method, t.machine.heap.method? 0 "init" = some method := by
  have hrun : ((start .unlimited fun _ => 0).run 9 instanceMade).map (fun r =>
      (r.2.machine.heap.field? 0 "init").isNone && (r.2.machine.heap.method? 0 "init").isSome) =
        some true := by
    decide +kernel
  obtain ⟨⟨report, t⟩, hrun, hfound⟩ := Option.map_eq_some_iff.mp hrun
  rw [Bool.and_eq_true, Option.isNone_iff_eq_none, Option.isSome_iff_exists] at hfound
  exact ⟨report, t, hrun, hfound⟩

theorem calls_yield_instances_ofA :
    (∃ report t, (start .unlimited fun _ => 0).run 9 instanceMade = some (report, t) ∧
      (start .unlimited fun _ => 0).machine.heap.frames.KeepsThis t.machine.heap.frames ∧
      Run.Steady (.ofSources [instanceMade, ""] #[.clock]) t.machine ∧
      ∃ (c : Closure) (m' : Machine), Run.readProperty 0 ⟨.identifier, "init", 1⟩ t.machine =
          .done (.function t.machine.heap.closures.size) m' ∧ c.isInitializer = true ∧
        m'.heap.frames.getHere? c.frame "this" = some (.inst 0)) ∧
    (∃ n, Run.programWith (Run.execAmid (fun running point m =>
          running = [] ∧ point = .expression callOfA ∧ m = declaredA) 9 []) declarationAndCall
        (Machine.initial .unlimited fun _ => 0) = .failed .stopped n ∧
      Run.Kept n.heap.frames (Run.programWith (Run.execAmid Run.never 9 []) declarationAndCall
        (Machine.initial .unlimited fun _ => 0))) ∧
    (∃ n, Run.evalAmid Run.never 6 [] callOfA declaredA = .done (.inst 0) n ∧
      ∃ i, n.heap.instances[0]? = some i ∧ i.cls = 0) ∧
    ∃ m n, Run.evalAmid Run.never 6 [] (.get 2 callOfA ⟨.identifier, "init", 1⟩) declaredA =
        .done (.function 0) m ∧
      m.heap.frames.getHere? 3 "this" = some (.inst 0) ∧
      Run.evalAmid Run.never 7 [] callOfInit declaredA = .done (.inst 0) n := by
  obtain ⟨hsteady, hreads, hsessions⟩ := calls_yield_instances
  obtain ⟨hkeeps, hruns⟩ := hsessions .clock .unlimited (fun _ => 0) [] _ (.refl _)
  refine ⟨?_, ?_, ?_, ?_⟩
  · obtain ⟨report, t, hrun, hfield, method, hmethod⟩ := exists_instance
    have hhistory : Runs (startWith .clock .unlimited fun _ => 0) [instanceMade] t :=
      (Runs.refl _).run hrun
    have hidle := hhistory.idle_ofSources ""
    obtain ⟨c, m', hread, -, -, hinit, hthis⟩ := hreads _ _ 0 ⟨.identifier, "init", 1⟩ _ hidle.heap
      hfield hmethod
    exact ⟨report, t, hrun, hkeeps _ t hhistory, hsteady _ _ hidle.heap (by simp [hidle.depth]), c,
      m', hread, hinit, hthis⟩
  · obtain ⟨hpoints, -⟩ := hruns 9 _ _ _ load_instanceMade
    obtain ⟨n, hstopped⟩ := Run.reachesAmid_behind declares_classA callOfA 7
    exact ⟨n, hstopped, (hpoints _ n hstopped).2 _ (Run.never_within _)⟩
  · obtain ⟨n, hdone⟩ := eval_callOfA
    obtain ⟨-, hcalls⟩ := hruns 9 _ _ _ load_instanceMade
    obtain ⟨-, -, hcall⟩ := hcalls [] _ _ (Run.reachesAmid_behind declares_classA callOfA 7)
    obtain ⟨callee, arguments, n₁, n₂, hinvokes, -, rfl, -, hcls⟩ :=
      hcall _ _ _ _ rfl Run.never 5 _ n hdone
    cases hinvokes with
    | intro _ hvalue harguments hcallee _ _ =>
      cases hvalue.symm.trans eval_classA
      cases harguments
      cases hcallee
      exact ⟨_, hdone, (hcls 0 classA rfl).instance_of⟩
  · obtain ⟨n, hdone⟩ := eval_callOfInit
    obtain ⟨-, hcalls⟩ := hruns 9 _ _ _ load_initialized
    obtain ⟨-, -, hcall⟩ := hcalls [] _ _ (Run.reachesAmid_behind declares_classA callOfInit 7)
    obtain ⟨callee, arguments, n₁, n₂, hinvokes, -, -, hinit, -⟩ :=
      hcall _ _ _ _ rfl Run.never 6 _ n hdone
    obtain ⟨m, heval, hclosure⟩ := eval_init
    cases hinvokes with
    | intro _ hvalue harguments hcallee _ _ =>
      cases hvalue.symm.trans heval
      cases harguments
      simp only [Heap.callee?, hclosure, Option.map_some, Option.some.injEq] at hcallee
      obtain ⟨place, hthis, hplace⟩ := hinit _ hcallee.symm rfl
      cases hplace
      exact ⟨n₁, n, heval, hthis, hdone⟩

end Session
end LoxLang
