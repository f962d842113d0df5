import LoxLang.Proofs.Execution.Calls

/-!
# Laws of runs

A law is said of what a run comes to, depending on the points at which it is stopped. If it holds
of each elementary step, and of a sequence, a block, a call and a `print` as soon as it holds of
their parts, then it holds of every evaluation and execution (`Law.evalAmid_execAmid`). So whatever
compares a run with a run that is stopped, or with one from another machine, passes through the
syntax here once and for all.

Most steps have nothing to do with the depth of calls or with the sink. For a law that does not mind
such `Quiet` steps little remains to be shown (`QuietLaw`).
-/
namespace LoxLang

def RunFault.IsOperation (fault : RunFault) : Prop := ∃ token cause, fault = .operation token cause

theorem Value.unary_isOperation {operator : Token} {right : Value} {fault : RunFault}
    (h : right.unary operator = .error fault) : fault.IsOperation := by
  unfold unary at h
  split at h
  · cases right <;> cases h
    all_goals exact ⟨_, _, rfl⟩
  · cases h
  · cases h
    exact ⟨_, _, rfl⟩

theorem Value.binary_isOperation {operator : Token} {left right : Value} {fault : RunFault}
    (h : left.binary operator right = .error fault) : fault.IsOperation := by
  unfold binary at h
  split at h
  · split at h <;> cases h
    exact ⟨_, _, rfl⟩
  · cases h
  · cases h
  · split at h
    · split at h <;> cases h
      exact ⟨_, _, rfl⟩
    · cases h
      exact ⟨_, _, rfl⟩

theorem Sink.cause_eq_closed {s : Sink} {piece : String} {cause : OutputCause}
    (h : s.write piece = .error cause) : cause = .closed := by
  unfold write at h
  split at h
  · cases h
  split at h
  · cases h
    rfl
  · cases h

namespace Run

/-- Where a run is stopped: amid these calls, before what comes next, in this state. -/
abbrev Stops := List Expr → Point → Machine → Prop

/-- A law of runs that depend on the points to stop at. -/
structure Law (P : ∀ {α : Type}, (Stops → Run α) → Prop) : Prop where
  pure : ∀ {α : Type} (a : α), P fun _ => Pure.pure a
  exhausted : ∀ {α : Type}, P fun _ => (Action.exhausted : Run α)
  bind : ∀ {α β : Type} {X : Stops → Run α} {F : α → Stops → Run β}, P X → (∀ a, P (F a)) →
    P fun stop => X stop >>= fun a => F a stop
  ofExcept : ∀ {α : Type} {x : Except RunFault α},
    (∀ fault, x = .error fault → fault.IsOperation) → P fun _ => Action.ofExcept x
  readName : ∀ id name, P fun _ => readName id name
  writeName : ∀ id name value, P fun _ => writeName id name value
  define : ∀ name value, P fun _ => define name value
  readProperty : ∀ place name, P fun _ => readProperty place name
  writeField : ∀ place name value, P fun _ => writeField place name value
  declareFunction : ∀ declaration, P fun _ => declareFunction declaration
  declareClass : ∀ name methods, P fun _ => declareClass name methods
  pause : ∀ running point, P fun stop => pause (stop running point)
  block : ∀ {eval : Stops → Expr → Run Value} {exec : Stops → Stmt → Run Flow} (body : List Stmt),
    (P fun stop => sequence (exec stop) body) →
    P fun stop => execWith (eval stop) (exec stop) (.block body)
  invoke : ∀ {exec : Stops → Stmt → Run Flow} (value : Value) (paren : Token)
    (arguments : List Value), (∀ body, P fun stop => sequence (exec stop) body) →
    P fun stop => invoke (exec stop) value paren arguments
  print : ∀ {fuel : Nat} {running : List Expr} {expr : Expr},
    (P fun stop => evalAmid stop fuel running expr) →
    P fun stop => execAmid stop (fuel + 1) running (.print expr)

namespace Law

variable {P : ∀ {α : Type}, (Stops → Run α) → Prop} (h : Law P) {α : Type}
  {eval : Stops → Expr → Run Value} {exec : Stops → Stmt → Run Flow}
include h

theorem fault (token : Token) (cause : RunCause) : P fun _ => (fault token cause : Run α) :=
  h.ofExcept (x := .error (.operation token cause)) fun _ heq => ⟨token, cause, by cases heq; rfl⟩

theorem collect (heval : ∀ expr, P fun stop => eval stop expr) (exprs : List Expr) :
    P fun stop => collect (eval stop) exprs := by
  induction exprs with
  | nil => exact h.pure []
  | cons expr exprs ih =>
    apply h.bind (heval expr)
    intro value
    apply h.bind ih
    intro values
    exact h.pure (value :: values)

theorem evalOption (heval : ∀ expr, P fun stop => eval stop expr) (expr : Option Expr) :
    P fun stop => evalOption (eval stop) expr := by
  cases expr with
  | none => exact h.pure _
  | some expr => exact heval expr

theorem sequence (hexec : ∀ stmt, P fun stop => exec stop stmt) (stmts : List Stmt) :
    P fun stop => sequence (exec stop) stmts := by
  induction stmts with
  | nil => exact h.pure _
  | cons stmt stmts ih =>
    apply h.bind (hexec stmt)
    rintro (_ | value)
    · exact ih
    · exact h.pure _

/-- One step of evaluation, one case for each kind of expression. -/
theorem evalWith (heval : ∀ expr, P fun stop => eval stop expr)
    (hexec : ∀ stmt, P fun stop => exec stop stmt) (expr : Expr) :
    P fun stop => evalWith (eval stop) (exec stop) expr := by
  cases expr with
  | literal id value => exact h.pure _
  | grouping id inner => exact heval inner
  | unary id operator right =>
    apply h.bind (heval right)
    intro value
    exact h.ofExcept fun _ => Value.unary_isOperation
  | binary id left operator right =>
    apply h.bind (heval left)
    intro value
    apply h.bind (heval right)
    intro value'
    exact h.ofExcept fun _ => Value.binary_isOperation
  | logical id left operator right =>
    apply h.bind (heval left)
    intro value
    split
    · exact h.pure _
    · exact heval right
  | var id name => exact h.readName id name
  | this id keyword => exact h.readName id keyword
  | assign id name value =>
    apply h.bind (heval value)
    intro v
    apply h.bind (h.writeName id name v)
    intro _
    exact h.pure v
  | call id callee paren arguments =>
    apply h.bind (heval callee)
    intro value
    apply h.bind (h.collect heval arguments)
    intro values
    exact h.invoke value paren values (h.sequence hexec)
  | get id object name =>
    apply h.bind (heval object)
    intro value
    split
    · exact h.readProperty _ name
    · exact h.fault name _
  | set id object name value =>
    apply h.bind (heval object)
    intro target
    split
    · apply h.bind (heval value)
      intro v
      apply h.bind (h.writeField _ name.lexeme v)
      intro _
      exact h.pure v
    · exact h.fault name _

/-- One step of execution, one case for each kind of statement but `print`. -/
theorem execWith (heval : ∀ expr, P fun stop => eval stop expr)
    (hexec : ∀ stmt, P fun stop => exec stop stmt) (stmt : Stmt)
    (hprint : ∀ expr, stmt ≠ .print expr) :
    P fun stop => execWith (eval stop) (exec stop) stmt := by
  cases stmt with
  | expression expr =>
    apply h.bind (heval expr)
    intro _
    exact h.pure _
  | print expr => exact absurd rfl (hprint expr)
  | varDecl name initializer =>
    apply h.bind (h.evalOption heval initializer)
    intro value
    apply h.bind (h.define name.lexeme value)
    intro _
    exact h.pure _
  | block body => exact h.block body (h.sequence hexec body)
  | ifThen condition thenBranch =>
    apply h.bind (heval condition)
    intro value
    split
    · exact hexec thenBranch
    · exact h.pure _
  | ifElse condition thenBranch elseBranch =>
    apply h.bind (heval condition)
    intro value
    split
    · exact hexec thenBranch
    · exact hexec elseBranch
  | whileLoop condition body =>
    apply h.bind (heval condition)
    intro value
    split
    · apply h.bind (hexec body)
      rintro (_ | returned)
      · exact hexec _
      · exact h.pure _
    · exact h.pure _
  | funDecl declaration =>
    apply h.bind (h.declareFunction declaration)
    intro _
    exact h.pure _
  | returnStmt keyword value =>
    apply h.bind (h.evalOption heval value)
    intro v
    exact h.pure _
  | classDecl name methods =>
    apply h.bind (h.declareClass name methods)
    intro _
    exact h.pure _

/-- Whole runs, by induction over the fuel. -/
theorem evalAmid_execAmid (fuel : Nat) :
    (∀ running expr, P fun stop => evalAmid stop fuel running expr) ∧
      ∀ running stmt, P fun stop => execAmid stop fuel running stmt := by
  induction fuel with
  | zero =>
    constructor
    · intro running expr
      simp only [evalAmid]
      exact h.exhausted
    · intro running stmt
      simp only [execAmid]
      exact h.exhausted
  | succ fuel ih =>
    constructor
    · intro running expr
      simp only [evalAmid]
      apply h.bind (h.pause running (.expression expr))
      intro _
      exact h.evalWith (ih.1 running) (ih.2 (expr :: running)) expr
    · intro running stmt
      by_cases hprint : ∃ expr, stmt = .print expr
      · obtain ⟨expr, rfl⟩ := hprint
        exact h.print (ih.1 running expr)
      · simp only [execAmid]
        apply h.bind (h.pause running (.statement stmt))
        intro _
        exact h.execWith (ih.1 running) (ih.2 running) stmt (not_exists.mp hprint)

/-- A program ends by flushing the sink. -/
theorem programWith (hflush : P fun _ => flush) (fuel : Nat) (stmts : List Stmt) :
    P fun stop => programWith (execAmid stop fuel []) stmts := by
  induction stmts with
  | nil => exact hflush
  | cons stmt stmts ih =>
    apply h.bind ((h.evalAmid_execAmid fuel).2 [] stmt)
    intro _
    exact ih

end Law

/-! ## Quiet steps -/

/-- The step has nothing to do with the depth of calls or the sink, and only an operation can make
it fail. On the heap it does nothing but elementary changes. -/
structure Quiet {α : Type} (x : Run α) : Prop where
  unaware : ∀ m, x.Ensures m
    (fun a m' => ∀ depth sink, x { m with depth, sink } = .done a { m' with depth, sink })
    fun fault m' => fault.IsOperation ∧
      ∀ depth sink, x { m with depth, sink } = .failed fault { m' with depth, sink }
  preserves : ∀ {R : Machine → Machine → Prop}, Machine.Stable R → Preserves R x

section Quiet

variable {α β : Type}

theorem Quiet.ensures {x : Run α} (hx : Quiet x) (m : Machine) : x.Ensures m
    (fun a m' => m'.depth = m.depth ∧ m'.sink = m.sink ∧
      ∀ depth sink, x { m with depth, sink } = .done a { m' with depth, sink })
    fun fault m' => m'.depth = m.depth ∧ m'.sink = m.sink ∧ fault.IsOperation ∧
      ∀ depth sink, x { m with depth, sink } = .failed fault { m' with depth, sink } := by
  have hx := hx.unaware m
  unfold Action.Ensures at hx ⊢
  split
  · next a m' hrun =>
    rw [hrun] at hx
    have hself : m' = { m' with depth := m.depth, sink := m.sink } :=
      (Outcome.done.inj (hrun.symm.trans (hx m.depth m.sink))).2
    have hdepth := congrArg Machine.depth hself
    have hsink := congrArg Machine.sink hself
    exact ⟨hdepth, hsink, hx⟩
  · next fault m' hrun =>
    rw [hrun] at hx
    have hself : m' = { m' with depth := m.depth, sink := m.sink } :=
      (Outcome.failed.inj (hrun.symm.trans (hx.2 m.depth m.sink))).2
    have hdepth := congrArg Machine.depth hself
    have hsink := congrArg Machine.sink hself
    exact ⟨hdepth, hsink, hx⟩
  · trivial

theorem Quiet.bind {x : Run α} {f : α → Run β} (hx : Quiet x) (hf : ∀ a, Quiet (f a)) :
    Quiet (x >>= f) := by
  refine ⟨fun m => ?_, fun hR => (hx.preserves hR).bind hR fun a => (hf a).preserves hR⟩
  rw [Action.ensures_bind]
  apply (hx.unaware m).mono
  · intro a m₁ hdone
    apply ((hf a).unaware m₁).mono
    · intro b m₂ hdone' depth sink
      rw [Action.bind_apply, hdone]
      exact hdone' depth sink
    · rintro fault m₂ ⟨hfault, hfailed⟩
      refine ⟨hfault, fun depth sink => ?_⟩
      rw [Action.bind_apply, hdone]
      exact hfailed depth sink
  · rintro fault m₁ ⟨hfault, hfailed⟩
    refine ⟨hfault, fun depth sink => ?_⟩
    rw [Action.bind_apply, hfailed]

theorem quiet_pure (a : α) : Quiet (Pure.pure a : Run α) where
  unaware _ _ _ := rfl
  preserves hR := preserves_pure hR a

theorem quiet_ofExcept {x : Except RunFault α}
    (h : ∀ fault, x = .error fault → fault.IsOperation) : Quiet (Action.ofExcept x) := by
  refine ⟨fun m => ?_, fun hR => preserves_ofExcept hR x⟩
  rw [Action.ensures_ofExcept]
  constructor
  · rintro a rfl _ _
    rfl
  · rintro fault rfl
    exact ⟨h fault rfl, fun _ _ => rfl⟩

theorem quiet_fault (token : Token) (cause : RunCause) : Quiet (fault token cause : Run α) where
  unaware _ := ⟨⟨token, cause, rfl⟩, fun _ _ => rfl⟩
  preserves hR := preserves_fault hR token cause

theorem quiet_view {f : Machine → α}
    (h : ∀ (m : Machine) depth sink, f { m with depth, sink } = f m) : Quiet (Action.view f) where
  unaware m depth sink := by rw [Action.view, h]
  preserves hR := preserves_view hR f

/-- An elementary change of the heap that depends on neither the depth nor the sink. -/
theorem quiet_change {f : Machine → Heap}
    (h : ∀ (m : Machine) depth sink, f { m with depth, sink } = f m)
    (hstep : ∀ m : Machine, m.heap.Step (f m)) :
    Quiet (Action.change fun m => { m with heap := f m }) where
  unaware m depth sink := by rw [Action.change, h]
  preserves hR m := hR.heap m (hstep m)

theorem quiet_onHeap {f : Heap → α × Heap} (h : ∀ heap : Heap, heap.Step (f heap).2) :
    Quiet (onHeap f) where
  unaware _ _ _ := rfl
  preserves hR := preserves_onHeap hR h

theorem quiet_define (name : String) (value : Value) : Quiet (define name value) :=
  quiet_change (fun _ _ _ => rfl) fun m => .define m.current name value

theorem quiet_rebind (name : Token) (value : Value) {holder? : Machine → Option Nat}
    (h : ∀ (m : Machine) depth sink, holder? { m with depth, sink } = holder? m) :
    Quiet (rebind name value holder?) := by
  apply (quiet_view h).bind
  rintro (_ | frame)
  · exact quiet_fault name _
  · exact quiet_change (fun _ _ _ => rfl) fun _ => .define frame name.lexeme value

theorem quiet_readName (id : Nat) (name : Token) : Quiet (readName id name) := by
  apply (quiet_view fun _ _ _ => rfl).bind
  rintro (_ | value)
  · exact quiet_fault name _
  · exact quiet_pure value

theorem quiet_bindMethod (method : Closure) (place : Nat) :
    Quiet (onHeap (·.bind method place)) :=
  quiet_onHeap fun _ => .frame _ _

theorem quiet_readProperty (place : Nat) (name : Token) : Quiet (readProperty place name) := by
  apply (quiet_view fun _ _ _ => rfl).bind
  rintro (_ | value)
  · apply (quiet_view fun _ _ _ => rfl).bind
    rintro (_ | method)
    · exact quiet_fault name _
    · apply (quiet_bindMethod method place).bind
      intro bound
      exact quiet_onHeap fun _ => .closure bound
  · exact quiet_pure value

theorem quiet_writeField (place : Nat) (name : String) (value : Value) :
    Quiet (writeField place name value) :=
  quiet_change (fun _ _ _ => rfl) fun _ => .field place name value

theorem quiet_declareFunction (declaration : FunctionDecl) :
    Quiet (declareFunction declaration) := by
  apply (quiet_view fun _ _ _ => rfl).bind
  intro frame
  apply (quiet_onHeap fun _ => .closure _).bind
  intro value
  exact quiet_define _ value

theorem quiet_declareClass (name : Token) (methods : List FunctionDecl) :
    Quiet (declareClass name methods) := by
  apply (quiet_define _ _).bind
  intro _
  apply (quiet_view fun _ _ _ => rfl).bind
  intro frame
  apply (quiet_onHeap fun _ => .cls _).bind
  intro value
  exact quiet_rebind name value fun _ _ _ => rfl

end Quiet

/-- A law that does not mind quiet steps. -/
structure QuietLaw (P : ∀ {α : Type}, (Stops → Run α) → Prop) : Prop where
  exhausted : ∀ {α : Type}, P fun _ => (Action.exhausted : Run α)
  bind : ∀ {α β : Type} {X : Stops → Run α} {F : α → Stops → Run β}, P X → (∀ a, P (F a)) →
    P fun stop => X stop >>= fun a => F a stop
  quiet : ∀ {α : Type} {x : Run α}, Quiet x → P fun _ => x
  pause : ∀ running point, P fun stop => pause (stop running point)
  inFrame : ∀ {α : Type} {X : Stops → Run α} (frame : Nat), P X →
    P fun stop => inFrame frame (X stop)
  native : ∀ n arguments, P fun _ => callNative n arguments
  invoke : ∀ {exec : Stops → Stmt → Run Flow} (value : Value) (paren : Token)
    (arguments : List Value), (∀ callee, P fun stop => call (exec stop) callee arguments) →
    P fun stop => invoke (exec stop) value paren arguments
  print : ∀ {fuel : Nat} {running : List Expr} {expr : Expr},
    (P fun stop => evalAmid stop fuel running expr) →
    P fun stop => execAmid stop (fuel + 1) running (.print expr)

namespace QuietLaw

variable {P : ∀ {α : Type}, (Stops → Run α) → Prop} (h : QuietLaw P)
  {exec : Stops → Stmt → Run Flow} (hbody : ∀ body, P fun stop => sequence (exec stop) body)
include h

include hbody in
theorem callClosure (c : Closure) (arguments : List Value) :
    P fun stop => callClosure (exec stop) c arguments := by
  apply h.bind (h.quiet (quiet_onHeap fun _ => .frame _ _))
  intro frame
  apply h.bind (h.inFrame frame (hbody _))
  intro flow
  split
  · exact h.quiet (quiet_view fun _ _ _ => rfl)
  · cases flow <;> exact h.quiet (quiet_pure _)

include hbody in
theorem call (callee : Callee) (arguments : List Value) :
    P fun stop => call (exec stop) callee arguments := by
  cases callee with
  | native n => exact h.native n arguments
  | function c => exact h.callClosure hbody c arguments
  | cls place cls =>
    apply h.bind (h.quiet (quiet_onHeap fun _ => .inst _))
    intro new
    split
    · apply h.bind (h.quiet (quiet_bindMethod _ new))
      intro bound
      apply h.bind (h.callClosure hbody bound arguments)
      intro _
      exact h.quiet (quiet_pure _)
    · exact h.quiet (quiet_pure _)

theorem law : Law P where
  pure a := h.quiet (quiet_pure a)
  exhausted := h.exhausted
  bind := h.bind
  ofExcept hx := h.quiet (quiet_ofExcept hx)
  readName id name := h.quiet (quiet_readName id name)
  writeName _ name value := h.quiet (quiet_rebind name value fun _ _ _ => rfl)
  define name value := h.quiet (quiet_define name value)
  readProperty place name := h.quiet (quiet_readProperty place name)
  writeField place name value := h.quiet (quiet_writeField place name value)
  declareFunction declaration := h.quiet (quiet_declareFunction declaration)
  declareClass name methods := h.quiet (quiet_declareClass name methods)
  pause := h.pause
  block body hbody := by
    have hframe : Quiet (Action.update fun m => ((m.heap.addFrame (some m.current) ∅).1,
        { m with heap := (m.heap.addFrame (some m.current) ∅).2 })) :=
      ⟨fun _ _ _ => rfl, fun hR m => hR.heap m (.frame m.current ∅)⟩
    apply h.bind (h.quiet hframe)
    intro frame
    exact h.inFrame frame hbody
  invoke value paren arguments hbody :=
    h.invoke value paren arguments fun callee => h.call hbody callee arguments
  print := h.print

end QuietLaw

/-! ## Points to stop at -/

section Stopping

variable {α β : Type} {m : Machine}

def Stopped (outcome : Outcome Machine RunFault α) : Prop := ∃ m', outcome = .failed .stopped m'

theorem Stopped.bind {x : Run α} (h : Stopped (x m)) (f : α → Run β) : Stopped ((x >>= f) m) := by
  obtain ⟨m', hrun⟩ := h
  exact ⟨m', by rw [Action.bind_apply, hrun]⟩

theorem stopped_execAmid {stop : Stops} {running : List Expr} {stmt : Stmt}
    (h : stop running (.statement stmt) m) (fuel : Nat) :
    Stopped (execAmid stop (fuel + 1) running stmt m) := by
  have hpause : Stopped (pause (stop running (.statement stmt)) m) := ⟨m, if_pos h⟩
  rw [execAmid]
  exact hpause.bind _

theorem write_ne_stopped (piece : String) (m m' : Machine) :
    write piece m ≠ .failed .stopped m' := by
  intro h
  unfold write at h
  cases hwrite : m.sink.write piece with
  | ok sink =>
    rw [hwrite] at h
    cases h
  | error cause =>
    obtain rfl := Sink.cause_eq_closed hwrite
    rw [hwrite] at h
    cases h

theorem print_ne_stopped (value : Value) (m m' : Machine) :
    print value m ≠ .failed .stopped m' := by
  intro h
  rcases Action.bind_eq_failed_iff.mp h with hview | ⟨text, m₁, -, hwrites⟩
  · cases hview
  rcases Action.bind_eq_failed_iff.mp hwrites with hwrite | ⟨_, m₂, -, hwrite⟩
  · exact write_ne_stopped _ _ _ hwrite
  · exact write_ne_stopped _ _ _ hwrite

theorem flush_ne_stopped (m m' : Machine) : flush m ≠ .failed .stopped m' := by
  unfold flush Sink.flush
  cases m.sink.flushFails <;> nofun

theorem callNative_ne_stopped (n : Native) (arguments : List Value) (m m' : Machine) :
    callNative n arguments m ≠ .failed .stopped m' := by
  unfold callNative
  dsimp only
  generalize n.run _ = result
  cases result <;> nofun

theorem Quiet.ne_stopped {x : Run α} (hx : Quiet x) (m m' : Machine) :
    x m ≠ .failed .stopped m' := by
  intro h
  obtain ⟨⟨token, cause, hfault⟩, -⟩ := (hx.unaware m).of_failed h
  cases hfault

/-- The points to stop at are among those of `stop`. -/
def Stops.Within (stop' stop : Stops) : Prop :=
  ∀ running point m, stop' running point m → stop running point m

theorem never_within (stop : Stops) : Stops.Within never stop := fun _ _ _ h => h.elim

/-- With fewer points to stop at the run comes to the same, unless it was stopped. -/
def Resumes (X : Stops → Outcome Machine RunFault α) : Prop :=
  ∀ stop stop' : Stops, stop'.Within stop → X stop' = X stop ∨ Stopped (X stop)

theorem resumes_const (outcome : Outcome Machine RunFault α) : Resumes fun _ => outcome :=
  fun _ _ _ => .inl rfl

theorem Resumes.bind {X : Stops → Run α} {F : α → Stops → Run β}
    (hX : Resumes fun stop => X stop m) (hF : ∀ a m', Resumes fun stop => F a stop m') :
    Resumes fun stop => (X stop >>= fun a => F a stop) m := by
  intro stop stop' hstop
  rcases hX stop stop' hstop with heq | hstopped
  · simp only at heq
    simp only [Action.bind_apply, heq]
    cases X stop m with
    | done a m₁ => exact hF a m₁ stop stop' hstop
    | failed fault m₁ => exact .inl rfl
    | exhausted => exact .inl rfl
  · exact .inr (hstopped.bind _)

theorem resumes_pause (running : List Expr) (point : Point) (m : Machine) :
    Resumes fun stop => pause (stop running point) m := by
  intro stop stop' hstop
  by_cases h : stop running point m
  · exact .inr ⟨m, if_pos h⟩
  · have h' : ¬ stop' running point m := fun hm => h (hstop _ _ m hm)
    exact .inl ((pause_of_not h').trans (pause_of_not h).symm)

/-- What is made of an outcome where a frame or a call is left: values and faults of the sink stay
what they are, and the machine is the same but for its context. -/
structure Leaves (f : Outcome Machine RunFault α → Outcome Machine RunFault α) : Prop where
  done : ∀ a m, ∃ current depth, f (.done a m) = .done a { m with current, depth }
  failed : ∀ fault m, ∃ fault' current depth,
    f (.failed fault m) = .failed fault' { m with current, depth } ∧
      ∀ cause, fault' = .output cause ↔ fault = .output cause
  exhausted : f .exhausted = .exhausted

theorem leaves_ensuring {restore : Machine → Machine}
    (h : ∀ m, ∃ current depth, restore m = { m with current, depth }) (m : Machine) :
    Leaves fun outcome : Outcome Machine RunFault α =>
      Action.ensuring (fun _ => outcome) restore m where
  done a m' := by
    obtain ⟨current, depth, heq⟩ := h m'
    exact ⟨current, depth, congrArg (Outcome.done a) heq⟩
  failed fault m' := by
    obtain ⟨current, depth, heq⟩ := h m'
    exact ⟨fault, current, depth, congrArg (Outcome.failed fault) heq, fun _ => Iff.rfl⟩
  exhausted := rfl

theorem leaves_blaming (paren : Token) (m : Machine) :
    Leaves fun outcome : Outcome Machine RunFault α => blaming paren (fun _ => outcome) m where
  done a m' := ⟨m'.current, m'.depth, rfl⟩
  failed fault m' := by
    refine ⟨fault.blame paren, m'.current, m'.depth, rfl, fun cause => ?_⟩
    cases fault <;> simp [RunFault.blame]
  exhausted := rfl

variable {f : Outcome Machine RunFault α → Outcome Machine RunFault α}

theorem Leaves.comp {g : Outcome Machine RunFault α → Outcome Machine RunFault α}
    (hf : Leaves f) (hg : Leaves g) : Leaves fun outcome => g (f outcome) where
  done a m := by
    obtain ⟨current, depth, heq⟩ := hf.done a m
    obtain ⟨current', depth', heq'⟩ := hg.done a { m with current, depth }
    exact ⟨current', depth', by rw [heq, heq']⟩
  failed fault m := by
    obtain ⟨fault₁, current, depth, heq, hfault⟩ := hf.failed fault m
    obtain ⟨fault₂, current', depth', heq', hfault'⟩ := hg.failed fault₁ { m with current, depth }
    exact ⟨fault₂, current', depth', by rw [heq, heq'],
      fun cause => (hfault' cause).trans (hfault cause)⟩
  exhausted := by rw [hf.exhausted, hg.exhausted]

theorem Leaves.stopped (hf : Leaves f) {outcome : Outcome Machine RunFault α}
    (h : Stopped outcome) : Stopped (f outcome) := by
  obtain ⟨m, rfl⟩ := h
  obtain ⟨fault, current, depth, heq, hfault⟩ := hf.failed .stopped m
  obtain rfl : fault = .stopped := (hfault _).mpr rfl
  exact ⟨_, heq⟩

theorem Leaves.of_output (hf : Leaves f) {outcome : Outcome Machine RunFault α}
    {cause : OutputCause} {m' : Machine} (h : f outcome = .failed (.output cause) m') :
    ∃ m₁ current depth, outcome = .failed (.output cause) m₁ ∧ m' = { m₁ with current, depth } := by
  cases outcome with
  | done a m =>
    obtain ⟨_, _, heq⟩ := hf.done a m
    cases heq.symm.trans h
  | failed fault m =>
    obtain ⟨fault', current, depth, heq, hfault⟩ := hf.failed fault m
    cases heq.symm.trans h
    obtain rfl := (hfault cause).mp rfl
    exact ⟨m, current, depth, rfl, rfl⟩
  | exhausted => cases hf.exhausted.symm.trans h

theorem Resumes.leave {X : Stops → Outcome Machine RunFault α} (hX : Resumes X) (hf : Leaves f) :
    Resumes fun stop => f (X stop) :=
  fun stop stop' hstop => (hX stop stop' hstop).imp (congrArg f) hf.stopped

end Stopping

/-- A law that speaks of where a run is stopped, or of what it does to the heap and the sink. Frames
and calls can be entered and left. -/
structure StopLaw (P : ∀ {α : Type}, (Stops → Run α) → Prop) : Prop where
  exhausted : ∀ {α : Type}, P fun _ => (Action.exhausted : Run α)
  bind : ∀ {α β : Type} {X : Stops → Run α} {F : α → Stops → Run β}, P X → (∀ a, P (F a)) →
    P fun stop => X stop >>= fun a => F a stop
  quiet : ∀ {α : Type} {x : Run α}, Quiet x → P fun _ => x
  view : ∀ {α : Type} (f : Machine → α), P fun _ => Action.view f
  pause : ∀ running point, P fun stop => pause (stop running point)
  leave : ∀ {α : Type} {X : Stops → Run α}
    {f : Machine → Outcome Machine RunFault α → Outcome Machine RunFault α}
    (enter : Machine → Machine),
    (∀ m, (enter m).heap = m.heap) → (∀ m, Leaves (f m)) → P X →
      P fun stop m => f m (X stop (enter m))
  native : ∀ n arguments, P fun _ => callNative n arguments
  print : ∀ {fuel : Nat} {running : List Expr} {expr : Expr},
    (P fun stop => evalAmid stop fuel running expr) →
    P fun stop => execAmid stop (fuel + 1) running (.print expr)

namespace StopLaw

variable {P : ∀ {α : Type}, (Stops → Run α) → Prop} (h : StopLaw P)
include h

theorem quietLaw : QuietLaw P where
  exhausted := h.exhausted
  bind := h.bind
  quiet := h.quiet
  pause := h.pause
  inFrame frame hX :=
    h.leave (fun m => { m with current := frame }) (fun _ => rfl)
      (fun m => leaves_ensuring (fun m' => ⟨m.current, m'.depth, rfl⟩) m) hX
  native := h.native
  invoke value paren arguments hcall := by
    apply h.bind (h.view _)
    intro depth
    apply h.bind (h.view _)
    rintro (_ | callee)
    · exact h.quiet (quiet_fault paren _)
    · dsimp only
      split
      · exact h.quiet (quiet_fault paren _)
      split
      · exact h.quiet (quiet_fault paren _)
      · have hdeeper := h.leave (fun m => { m with depth := m.depth + 1 }) (fun _ => rfl)
          (leaves_ensuring fun m' => ⟨m'.current, m'.depth - 1, rfl⟩) (hcall callee)
        exact h.leave id (fun _ => rfl) (leaves_blaming paren) hdeeper
  print := h.print

end StopLaw

end Run
end LoxLang
