import LoxLang.Proofs.Execution.Breakpoints
import LoxLang.Proofs.Execution.Mirror
import LoxLang.Proofs.Source.Words

/-!
# Runs evaluate what the walk has met

`V` holds of what the walk over the programs of a session has met. In a sound machine every function
and every method was met under scopes that its frame mirrors. A sound machine stays sound, and at
every point of a run the current frame mirrors the scopes under which the expression was met. The
proof is one induction over the fuel: each statement and each expression keeps this, provided that
its parts do.
-/
namespace LoxLang

variable {V : Encounter → Prop} {stop : Expr → Machine → Prop} {m m' m'' : Machine} {α β : Type}

/-- The expression is formed, and the walk has met it under these scopes. -/
def Expr.Met (V : Encounter → Prop) (scopes : List Scope) (inClass : Bool) (expr : Expr) : Prop :=
  expr.Formed Token.TellsThis ∧ ∀ x ∈ expr.encounters scopes inClass, V x

def Stmt.Met (V : Encounter → Prop) (scopes : List Scope) (inFunction inClass : Bool)
    (stmt : Stmt) : Prop :=
  stmt.Formed Token.TellsThis ∧ ∀ x ∈ stmt.encounters scopes inFunction inClass, V x

def FunctionDecl.Met (V : Encounter → Prop) (scopes : List Scope) (inClass : Bool)
    (declaration : FunctionDecl) : Prop :=
  declaration.Formed Token.TellsThis ∧ ∀ x ∈ declaration.encounters scopes inClass, V x

theorem Expr.mem_encounters_self (scopes : List Scope) (inClass : Bool) (expr : Expr) :
    .expression scopes inClass expr ∈ expr.encounters scopes inClass := by
  cases expr <;> simp [Expr.encounters]

theorem FunctionDecl.forall_met {scopes : List Scope} {methods : List FunctionDecl}
    (hform : FunctionDecl.FormedAll Token.TellsThis methods)
    (hmet : ∀ x ∈ FunctionDecl.encountersMethods scopes methods, V x) :
    ∀ method ∈ methods, method.Met V (Scopes.ofThis :: scopes) true := by
  induction methods with
  | nil => simp
  | cons method methods ih =>
    rw [FunctionDecl.encountersMethods, List.forall_mem_append] at hmet
    rw [List.forall_mem_cons]
    exact ⟨⟨hform.1, hmet.1⟩, ih hform.2 hmet.2⟩

/-- Without a fault, the name that an expression reads does not wait for its initializer. -/
theorem Encounter.ready_of_reads {scopes : List Scope} {inClass : Bool} {expr : Expr} {id : Nat}
    {name : Token} (hexpr : expr = .var id name ∨ expr = .this id name)
    (hfault : (Encounter.expression scopes inClass expr).fault? = none)
    (hform : expr.Formed Token.TellsThis) (hscopes : Scopes.Readable scopes) :
    scopes.head?.bind (·.get? name.lexeme) ≠ some false := by
  rcases hexpr with rfl | rfl
  · intro hwaits
    simp [fault?, hwaits] at hfault
  · rw [hform.2.2 hform.1]
    exact hscopes.2

namespace Closure

/-- The function was met under the scopes that its frame mirrors, with `around` opened inside of
them. -/
def Callable (V : Encounter → Prop) (fs : Frames) (around : List Scope) (c : Closure) : Prop :=
  ∃ scopes inClass, fs.Mirrors c.frame scopes ∧ Scopes.Ready scopes ∧
    c.declaration.Met V (around ++ scopes) inClass

theorem Callable.mono {fs fs' : Frames} {around : List Scope} {c : Closure}
    (h : c.Callable V fs around) (hgrow : fs.Grows fs') : c.Callable V fs' around := by
  obtain ⟨scopes, inClass, hmirrors, hmet⟩ := h
  exact ⟨scopes, inClass, hmirrors.mono hgrow, hmet⟩

end Closure

namespace Heap

/-- All functions can be called, and all methods once they are bound. -/
structure Sound (V : Encounter → Prop) (h : Heap) : Prop where
  closures : ∀ c ∈ h.closures, c.Callable V h.frames []
  methods : ∀ cls ∈ h.classes, ∀ name c, cls.methods.get? name = some c →
    c.Callable V h.frames [Scopes.ofThis]

theorem Sound.mono {h h' : Heap} (hsound : h.Sound V) (hgrow : h.frames.Grows h'.frames)
    (hclosures : h'.closures = h.closures) (hclasses : h'.classes = h.classes) : h'.Sound V where
  closures c hc := (hsound.closures c (hclosures ▸ hc)).mono hgrow
  methods cls hcls name c hc := (hsound.methods cls (hclasses ▸ hcls) name c hc).mono hgrow

theorem Sound.weaken {h : Heap} {V' : Encounter → Prop} (hsound : h.Sound V)
    (hV : ∀ x, V x → V' x) : h.Sound V' := by
  have hcallable {around c} (hc : Closure.Callable V h.frames around c) :
      c.Callable V' h.frames around := by
    obtain ⟨scopes, inClass, hmirrors, hready, hform, hmet⟩ := hc
    exact ⟨scopes, inClass, hmirrors, hready, hform, fun x hx => hV x (hmet x hx)⟩
  exact ⟨fun c hc => hcallable (hsound.closures c hc),
    fun cls hcls name c hc => hcallable (hsound.methods cls hcls name c hc)⟩

theorem Sound.addClosure {h : Heap} (hsound : h.Sound V) {c : Closure}
    (hc : c.Callable V h.frames []) : (h.addClosure c).2.Sound V where
  closures d hd := by
    rcases Array.mem_push.mp hd with hd | rfl
    · exact hsound.closures d hd
    · exact hc
  methods := hsound.methods

theorem Sound.addClass {h : Heap} (hsound : h.Sound V) {cls : Class}
    (hcls : ∀ name c, cls.methods.get? name = some c → c.Callable V h.frames [Scopes.ofThis]) :
    (h.addClass cls).2.Sound V where
  closures := hsound.closures
  methods d hd := by
    rcases Array.mem_push.mp hd with hd | rfl
    · exact hsound.methods d hd
    · exact hcls

theorem Sound.of_callee? {h : Heap} (hsound : h.Sound V) {value : Value} {c : Closure}
    (hc : h.callee? value = some (.function c)) : c.Callable V h.frames [] := by
  cases value <;> simp only [callee?, Option.map_eq_some_iff, reduceCtorEq] at hc
  case native => simp at hc
  case cls => simp at hc
  case function place =>
    obtain ⟨d, hd, heq⟩ := hc
    cases heq
    exact hsound.closures c (Array.mem_of_getElem? hd)

theorem Sound.of_class {h : Heap} (hsound : h.Sound V) {value : Value} {place : Nat} {cls : Class}
    (hcls : h.callee? value = some (.cls place cls)) {name : String} {c : Closure}
    (hc : cls.methods.get? name = some c) : c.Callable V h.frames [Scopes.ofThis] := by
  cases value <;> simp only [callee?, Option.map_eq_some_iff, reduceCtorEq] at hcls
  case native => simp at hcls
  case function => simp at hcls
  case cls =>
    obtain ⟨d, hd, heq⟩ := hcls
    cases heq
    exact hsound.methods cls (Array.mem_of_getElem? hd) name c hc

theorem Sound.of_method? {h : Heap} (hsound : h.Sound V) {place : Nat} {name : String}
    {c : Closure} (hc : h.method? place name = some c) :
    c.Callable V h.frames [Scopes.ofThis] := by
  obtain ⟨cls, hcls, hmethod⟩ := Option.bind_eq_some_iff.mp hc
  obtain ⟨inst, -, hplace⟩ := Option.bind_eq_some_iff.mp hcls
  exact hsound.methods cls (Array.mem_of_getElem? hplace) name c hmethod

theorem callable_bind {h : Heap} {c : Closure} (hc : c.Callable V h.frames [Scopes.ofThis])
    (place : Nat) : (h.bind c place).1.Callable V (h.bind c place).2.frames [] := by
  obtain ⟨scopes, inClass, hmirrors, hready, hmet⟩ := hc
  refine ⟨Scopes.ofThis :: scopes, inClass, hmirrors.push ?_, hready.ofThis, hmet⟩
  intro name hname
  by_cases hthis : "this" = name
  · simp [← hthis]
  · simp [Scopes.ofThis, Table.get?_set, hthis] at hname

end Heap

namespace Machine

/-- Functions can be called, and the distances of what was met are noted. -/
structure Sound (V : Encounter → Prop) (m : Machine) : Prop where
  heap : m.heap.Sound V
  noted : ∀ scopes inClass expr, V (.expression scopes inClass expr) →
    m.distance? expr.id = (Encounter.expression scopes inClass expr).note?.map Prod.snd

structure Grows (m m' : Machine) : Prop where
  frames : m.heap.frames.Grows m'.heap.frames
  current : m'.current = m.current

theorem Grows.refl (m : Machine) : m.Grows m := ⟨.refl _, rfl⟩

theorem Grows.trans (h : m.Grows m') (h' : m'.Grows m'') : m.Grows m'' :=
  ⟨h.frames.trans h'.frames, h'.current.trans h.current⟩

/-- The machine is sound, and its current frame mirrors the scopes. -/
structure Fits (V : Encounter → Prop) (scopes : List Scope) (m : Machine) : Prop where
  sound : m.Sound V
  mirrors : m.heap.frames.Mirrors m.current scopes

theorem Fits.mono {scopes : List Scope} (h : m.Fits V scopes) (hsound : m'.Sound V)
    (hgrow : m.Grows m') : m'.Fits V scopes := by
  refine ⟨hsound, ?_⟩
  rw [hgrow.current]
  exact h.mirrors.mono hgrow.frames

theorem Sound.withFrames (h : m.Sound V) {frames : Frames} (hgrow : m.heap.frames.Grows frames) :
    ({ m with heap := { m.heap with frames } } : Machine).Sound V :=
  ⟨h.heap.mono hgrow rfl rfl, h.noted⟩

end Machine

namespace Run

/-- Some breakpoint was met under scopes that the current frame mirrored there. -/
def Seen (V : Encounter → Prop) (stop : Expr → Machine → Prop) : Prop :=
  ∃ expr m scopes inClass, stop expr m ∧ V (.expression scopes inClass expr) ∧
    expr.Formed Token.TellsThis ∧ Scopes.Readable scopes ∧ m.Fits V scopes

/-- The run keeps the machine sound, adds frames only, and is stopped only where it may be. -/
def Visits (V : Encounter → Prop) (stop : Expr → Machine → Prop) (m : Machine) (x : Run α)
    (Q : α → Machine → Prop) : Prop :=
  x.Ensures m (fun a m' => m'.Sound V ∧ m.Grows m' ∧ Q a m')
    fun fault m' => m'.Sound V ∧ m.Grows m' ∧ (fault = .stopped → Seen V stop)

section Rules

variable {Q Q' : α → Machine → Prop}

theorem Visits.bind {x : Run α} {f : α → Run β} {Q' : β → Machine → Prop}
    (hx : Visits V stop m x Q)
    (hf : ∀ a m', m'.Sound V → m.Grows m' → Q a m' → Visits V stop m' (f a) Q') :
    Visits V stop m (x >>= f) Q' := by
  unfold Visits
  rw [Action.ensures_bind]
  apply Action.Ensures.mono hx
  · intro a m' h
    obtain ⟨hsound, hgrow, hQ⟩ := h
    apply Action.Ensures.mono (hf a m' hsound hgrow hQ)
    · intro b m'' h'
      exact ⟨h'.1, hgrow.trans h'.2.1, h'.2.2⟩
    · intro fault m'' h'
      exact ⟨h'.1, hgrow.trans h'.2.1, h'.2.2⟩
  · intro fault m' h
    exact h

theorem Visits.mono {x : Run α} (hx : Visits V stop m x Q) (hQ : ∀ a m', Q a m' → Q' a m') :
    Visits V stop m x Q' :=
  Action.Ensures.mono hx (fun a m' h => ⟨h.1, h.2.1, hQ a m' h.2.2⟩) fun _ _ h => h

theorem visits_pure {a : α} (hm : m.Sound V) (hQ : Q a m) : Visits V stop m (pure a) Q :=
  ⟨hm, .refl m, hQ⟩

theorem visits_view (f : Machine → α) (hm : m.Sound V) :
    Visits V stop m (Action.view f) fun a m' => f m' = a := ⟨hm, .refl m, rfl⟩

theorem visits_fault (hm : m.Sound V) (token : Token) (cause : RunCause) :
    Visits V stop m (fault token cause) Q :=
  ⟨hm, .refl m, fun h => by simp [RunFault.stopped] at h⟩

theorem visits_ofExcept {x : Except RunFault α} (hm : m.Sound V)
    (hx : ∀ fault, x = .error fault → fault ≠ .stopped) :
    Visits V stop m (Action.ofExcept x) fun _ _ => True := by
  unfold Visits
  rw [Action.ensures_ofExcept]
  constructor
  · intro a _
    exact ⟨hm, .refl m, trivial⟩
  · intro fault hfault
    exact ⟨hm, .refl m, fun h => absurd h (hx fault hfault)⟩

/-- A change of the frames in which the current frame stays the same. -/
theorem visits_frames {frames : Machine → Frames} {Q : Unit → Machine → Prop} (hm : m.Sound V)
    (hgrow : m.heap.frames.Grows (frames m))
    (hQ : Q () { m with heap := { m.heap with frames := frames m } }) :
    Visits V stop m
      (Action.change fun m => { m with heap := { m.heap with frames := frames m } }) Q :=
  ⟨hm.withFrames hgrow, ⟨hgrow, rfl⟩, hQ⟩

theorem visits_onHeap {f : Heap → α × Heap} (hm : m.Sound V) (hheap : (f m.heap).2.Sound V)
    (hgrow : m.heap.frames.Grows (f m.heap).2.frames)
    (hQ : Q (f m.heap).1 { m with heap := (f m.heap).2 }) : Visits V stop m (onHeap f) Q :=
  ⟨⟨hheap, hm.noted⟩, ⟨hgrow, rfl⟩, hQ⟩

theorem visits_write (hm : m.Sound V) (piece : String) :
    Visits V stop m (write piece) fun _ _ => True := by
  unfold Visits Action.Ensures write Sink.write
  split_ifs
  · exact ⟨⟨hm.heap, hm.noted⟩, ⟨.refl _, rfl⟩, trivial⟩
  · exact ⟨hm, .refl m, fun h => by simp [RunFault.stopped] at h⟩
  · exact ⟨⟨hm.heap, hm.noted⟩, ⟨.refl _, rfl⟩, trivial⟩

theorem visits_print (hm : m.Sound V) (value : Value) :
    Visits V stop m (print value) fun _ _ => True := by
  apply Visits.bind (visits_view _ hm)
  intro text m₁ hm₁ _ _
  apply Visits.bind (visits_write hm₁ text)
  intro _ m₂ hm₂ _ _
  exact visits_write hm₂ "\n"

theorem visits_flush (hm : m.Sound V) : Visits V stop m flush fun _ _ => True := by
  unfold Visits Action.Ensures flush Sink.flush
  cases m.sink.flushFails
  · exact ⟨hm, .refl m, trivial⟩
  · exact ⟨hm, .refl m, fun h => by simp [RunFault.stopped] at h⟩

theorem visits_callNative (hm : m.Sound V) (n : Native) (arguments : List Value) :
    Visits V stop m (callNative n arguments) fun _ _ => True := by
  unfold Visits Action.Ensures callNative
  dsimp only
  generalize n.run _ = result
  cases result with
  | ok value => exact ⟨⟨hm.heap, hm.noted⟩, ⟨.refl _, rfl⟩, trivial⟩
  | error text =>
    exact ⟨⟨hm.heap, hm.noted⟩, ⟨.refl _, rfl⟩, fun h => by simp [RunFault.stopped] at h⟩

theorem Visits.inFrame {x : Run α} {frame : Nat}
    (hx : Visits V stop { m with current := frame } x Q) :
    Visits V stop m (inFrame frame x) fun _ _ => True := by
  change (x.ensuring _).Ensures { m with current := frame } _ _
  rw [Action.ensures_ensuring]
  apply Action.Ensures.mono hx
  · intro a m' h
    exact ⟨⟨h.1.heap, h.1.noted⟩, ⟨h.2.1.frames, rfl⟩, trivial⟩
  · intro fault m' h
    exact ⟨⟨h.1.heap, h.1.noted⟩, ⟨h.2.1.frames, rfl⟩, h.2.2⟩

theorem Visits.deeper {x : Run α} (hx : Visits V stop { m with depth := m.depth + 1 } x Q) :
    Visits V stop m (deeper x) fun _ _ => True := by
  change (x.ensuring _).Ensures { m with depth := m.depth + 1 } _ _
  rw [Action.ensures_ensuring]
  apply Action.Ensures.mono hx
  · intro a m' h
    exact ⟨⟨h.1.heap, h.1.noted⟩, ⟨h.2.1.frames, h.2.1.current⟩, trivial⟩
  · intro fault m' h
    exact ⟨⟨h.1.heap, h.1.noted⟩, ⟨h.2.1.frames, h.2.1.current⟩, h.2.2⟩

theorem Visits.blaming {x : Run α} (hx : Visits V stop m x Q) (paren : Token) :
    Visits V stop m (blaming paren x) Q := by
  unfold Visits Action.Ensures Run.blaming at *
  cases hm : x m with
  | done a m' => simpa [hm] using hx
  | exhausted => trivial
  | failed fault m' =>
    rw [hm] at hx
    refine ⟨hx.1, hx.2.1, fun hstopped => hx.2.2 ?_⟩
    cases fault with
    | operation token cause => exact hstopped
    | native text => simp [RunFault.blame, RunFault.stopped] at hstopped
    | output cause => exact hstopped

end Rules

theorem visits_readName (hm : m.Sound V) (id : Nat) (name : Token) :
    Visits V stop m (readName id name) fun _ _ => True := by
  apply Visits.bind (visits_view _ hm)
  intro found m₁ hm₁ _ _
  cases found with
  | some value => exact visits_pure hm₁ trivial
  | none => exact visits_fault hm₁ _ _

theorem visits_rebind (hm : m.Sound V) (name : Token) (value : Value)
    (holder? : Machine → Option Nat) :
    Visits V stop m (rebind name value holder?) fun _ _ => True := by
  apply Visits.bind (visits_view _ hm)
  intro frame? m₁ hm₁ _ _
  cases frame? with
  | some frame => exact visits_frames hm₁ (Frames.grows_define _ _ _ _) trivial
  | none => exact visits_fault hm₁ _ _

theorem visits_readProperty (hm : m.Sound V) (place : Nat) (name : Token) :
    Visits V stop m (readProperty place name) fun _ _ => True := by
  apply Visits.bind (visits_view _ hm)
  intro field? m₁ hm₁ _ _
  cases field? with
  | some value => exact visits_pure hm₁ trivial
  | none =>
    apply Visits.bind (visits_view _ hm₁)
    intro method? m₂ hm₂ _ hfound
    cases method? with
    | none => exact visits_fault hm₂ _ _
    | some method =>
      have hgrow := Frames.grows_push m₂.heap.frames (some method.frame)
        (Table.set ∅ "this" (.inst place))
      have hcallable := Heap.callable_bind (hm₂.heap.of_method? hfound) place
      have hbind : Visits V stop m₂ (onHeap (·.bind method place))
          fun bound m₃ => bound.Callable V m₃.heap.frames [] :=
        visits_onHeap hm₂ (hm₂.heap.mono hgrow rfl rfl) hgrow hcallable
      apply hbind.bind
      intro bound m₃ hm₃ _ hbound
      exact visits_onHeap hm₃ (hm₃.heap.addClosure hbound) (.refl _) trivial

theorem visits_writeField (hm : m.Sound V) (place : Nat) (name : String) (value : Value) :
    Visits V stop m (writeField place name value) fun _ _ => True :=
  ⟨⟨hm.heap.mono (.refl _) rfl rfl, hm.noted⟩, ⟨.refl _, rfl⟩, trivial⟩

theorem visits_define {scopes : List Scope} (hm : m.Fits V scopes) (name : String)
    (value : Value) :
    Visits V stop m (define name value) fun _ m' => m'.Fits V (Scopes.introduce name scopes) := by
  have hgrow := Frames.grows_define m.heap.frames m.current name value
  exact visits_frames hm.sound hgrow
    ⟨hm.sound.withFrames hgrow, hm.mirrors.define name value⟩

/-- What evaluation and execution keep. Behind a statement that did not return, the names that it
declares are ready. -/
structure Keeps (V : Encounter → Prop) (stop : Expr → Machine → Prop) (eval : Expr → Run Value)
    (exec : Stmt → Run Flow) : Prop where
  eval : ∀ {scopes inClass expr m}, m.Fits V scopes → Scopes.Readable scopes →
    expr.Met V scopes inClass → Visits V stop m (eval expr) fun _ _ => True
  exec : ∀ {scopes inFunction inClass stmt m}, m.Fits V scopes → Scopes.Ready scopes →
    stmt.Met V scopes inFunction inClass →
      Visits V stop m (exec stmt) fun flow m' =>
        flow = .normal → m'.Fits V (stmt.scopesAfter scopes)

section Evaluation

variable {eval : Expr → Run Value} {exec : Stmt → Run Flow} {scopes : List Scope}
  {inFunction inClass : Bool}

theorem Keeps.collect (h : Keeps V stop eval exec) {exprs : List Expr} (hm : m.Fits V scopes)
    (hscopes : Scopes.Readable scopes) (hform : Expr.FormedAll Token.TellsThis exprs)
    (hmet : ∀ x ∈ Expr.encountersAll scopes inClass exprs, V x) :
    Visits V stop m (collect eval exprs) fun _ _ => True := by
  induction exprs generalizing m with
  | nil => exact visits_pure hm.sound trivial
  | cons expr exprs ih =>
    rw [Expr.encountersAll, List.forall_mem_append] at hmet
    apply Visits.bind (h.eval hm hscopes ⟨hform.1, hmet.1⟩)
    intro value m₁ hm₁ hgrow₁ _
    apply Visits.bind (ih (hm.mono hm₁ hgrow₁) hform.2 hmet.2)
    intro values m₂ hm₂ _ _
    exact visits_pure hm₂ trivial

theorem Keeps.evalOption (h : Keeps V stop eval exec) {expr : Option Expr} (hm : m.Fits V scopes)
    (hscopes : Scopes.Readable scopes) (hform : Expr.FormedOption Token.TellsThis expr)
    (hmet : ∀ x ∈ Expr.encountersOption scopes inClass expr, V x) :
    Visits V stop m (evalOption eval expr) fun _ _ => True := by
  cases expr with
  | none => exact visits_pure hm.sound trivial
  | some expr => exact h.eval hm hscopes ⟨hform, hmet⟩

theorem Keeps.sequence (h : Keeps V stop eval exec) {stmts : List Stmt} (hm : m.Fits V scopes)
    (hscopes : Scopes.Ready scopes) (hform : Stmt.FormedAll Token.TellsThis stmts)
    (hmet : ∀ x ∈ Stmt.encountersAll scopes inFunction inClass stmts, V x) :
    Visits V stop m (sequence exec stmts) fun _ _ => True := by
  induction stmts generalizing m scopes with
  | nil => exact visits_pure hm.sound trivial
  | cons stmt stmts ih =>
    rw [Stmt.encountersAll, List.forall_mem_append] at hmet
    apply Visits.bind (h.exec hm hscopes ⟨hform.1, hmet.1⟩)
    intro flow m₁ hm₁ _ hnormal
    cases flow with
    | normal => exact ih (hnormal rfl) (hscopes.scopesAfter stmt) hform.2 hmet.2
    | returned value => exact visits_pure hm₁ trivial

/-- The body of a function runs in a frame that mirrors the scope of its parameters. -/
theorem Keeps.callClosure (h : Keeps V stop eval exec) {c : Closure} {arguments : List Value}
    (hm : m.Sound V) (hc : c.Callable V m.heap.frames [])
    (hlength : arguments.length = c.declaration.params.length) :
    Visits V stop m (callClosure exec c arguments) fun _ _ => True := by
  obtain ⟨outer, inClass, hmirrors, hready, hform, hmet⟩ := hc
  obtain ⟨⟨name, params, body⟩, frame, isInitializer⟩ := c
  simp only [FunctionDecl.Formed] at hform
  simp only [FunctionDecl.encounters, List.nil_append, List.forall_mem_append] at hmet
  obtain ⟨inner, hinner, hbound⟩ :=
    readyWithin_bindAll hlength (Scope.readyWithin_empty _) outer
  have hgrow := Frames.grows_push m.heap.frames (some frame) (bindAll params arguments ∅)
  have hframe := hmirrors.push hbound
  rw [← hinner] at hframe
  have hpush : Visits V stop m (onHeap (·.addFrame (some frame) (bindAll params arguments ∅)))
      fun new m' => m'.heap.frames.Mirrors new (Scopes.introduceAll params (∅ :: outer)) :=
    visits_onHeap hm (hm.heap.mono hgrow rfl rfl) hgrow hframe
  apply hpush.bind
  intro new m₁ hm₁ _ hnew
  have hinside : ({ m₁ with current := new } : Machine).Fits V
      (Scopes.introduceAll params (∅ :: outer)) := ⟨⟨hm₁.heap, hm₁.noted⟩, hnew⟩
  have hbody := h.sequence hinside (hready.enter.introduceAll params) hform.2.2 hmet.2
  apply Visits.bind hbody.inFrame
  intro flow m₂ hm₂ _ _
  cases isInitializer with
  | true => exact (visits_view _ hm₂).mono fun _ _ _ => trivial
  | false => cases flow <;> exact visits_pure hm₂ trivial

theorem Keeps.construct (h : Keeps V stop eval exec) {place : Nat} {cls : Class}
    {arguments : List Value} (hm : m.Sound V)
    (hcls : ∀ name c, cls.methods.get? name = some c → c.Callable V m.heap.frames [Scopes.ofThis])
    (hlength : arguments.length = cls.arity) :
    Visits V stop m (construct exec place cls arguments) fun _ _ => True := by
  have hnew : Visits V stop m (onHeap (·.addInstance place)) fun _ _ => True :=
    visits_onHeap hm (hm.heap.mono (.refl _) rfl rfl) (.refl _) trivial
  apply hnew.bind
  intro new m₁ hm₁ hgrow₁ _
  cases hinit : cls.initializer? with
  | none => exact visits_pure hm₁ trivial
  | some method =>
    have hmethod := (hcls "init" method hinit).mono hgrow₁.frames
    have hgrow := Frames.grows_push m₁.heap.frames (some method.frame)
      (Table.set ∅ "this" (.inst new))
    have hbind : Visits V stop m₁ (onHeap (·.bind method new)) fun bound m₂ =>
        bound.Callable V m₂.heap.frames [] ∧ bound.declaration = method.declaration :=
      visits_onHeap hm₁ (hm₁.heap.mono hgrow rfl rfl) hgrow ⟨Heap.callable_bind hmethod new, rfl⟩
    apply hbind.bind
    intro bound m₂ hm₂ _ hbound
    have hparams : arguments.length = bound.declaration.params.length := by
      rw [hlength, Class.arity, hinit, hbound.2]
      rfl
    apply Visits.bind (h.callClosure hm₂ hbound.1 hparams)
    intro _ m₃ hm₃ _ _
    exact visits_pure hm₃ trivial

theorem Keeps.invoke (h : Keeps V stop eval exec) (hm : m.Sound V) (value : Value) (paren : Token)
    (arguments : List Value) :
    Visits V stop m (invoke exec value paren arguments) fun _ _ => True := by
  apply Visits.bind (visits_view _ hm)
  intro depth m₁ hm₁ _ _
  apply Visits.bind (visits_view _ hm₁)
  intro callee? m₂ hm₂ _ hcallee
  cases callee? with
  | none => exact visits_fault hm₂ _ _
  | some callee =>
    dsimp only
    split_ifs with harity hdepth
    · exact visits_fault hm₂ _ _
    · exact visits_fault hm₂ _ _
    · have hlength : arguments.length = callee.arity := not_not.mp harity
      have hdeeper : ({ m₂ with depth := m₂.depth + 1 } : Machine).Sound V :=
        ⟨hm₂.heap, hm₂.noted⟩
      have hcall : Visits V stop { m₂ with depth := m₂.depth + 1 } (call exec callee arguments)
          fun _ _ => True := by
        cases callee with
        | native n => exact visits_callNative hdeeper n arguments
        | function c => exact h.callClosure hdeeper (hm₂.heap.of_callee? hcallee) hlength
        | cls place cls =>
          exact h.construct hdeeper (fun _ _ => hm₂.heap.of_class hcallee) hlength
      exact hcall.deeper.blaming paren

theorem unary_ne_stopped {operator : Token} {right : Value} {fault : RunFault}
    (h : right.unary operator = .error fault) : fault ≠ .stopped := by
  rintro rfl
  unfold Value.unary at h
  split at h
  · cases right <;> simp [RunFault.stopped] at h
  · simp at h
  · simp [RunFault.stopped] at h

theorem binary_ne_stopped {operator : Token} {left right : Value} {fault : RunFault}
    (h : left.binary operator right = .error fault) : fault ≠ .stopped := by
  rintro rfl
  unfold Value.binary at h
  split at h
  · split at h <;> simp [RunFault.stopped] at h
  · simp at h
  · simp at h
  · split at h
    · split at h <;> simp [RunFault.stopped] at h
    · simp [RunFault.stopped] at h

/-- One step of evaluation, one case for each kind of expression. -/
theorem Keeps.evalWith (h : Keeps V stop eval exec) {expr : Expr} (hm : m.Fits V scopes)
    (hscopes : Scopes.Readable scopes) (hexpr : expr.Met V scopes inClass) :
    Visits V stop m (evalWith eval exec expr) fun _ _ => True := by
  obtain ⟨hform, hmet⟩ := hexpr
  cases expr with
  | literal id value => exact visits_pure hm.sound trivial
  | grouping id inner =>
    simp only [Expr.encounters, List.forall_mem_append] at hmet
    exact h.eval hm hscopes ⟨hform, hmet.1⟩
  | unary id operator right =>
    simp only [Expr.encounters, List.forall_mem_append] at hmet
    apply Visits.bind (h.eval hm hscopes ⟨hform.2, hmet.1⟩)
    intro value m₁ hm₁ _ _
    exact visits_ofExcept hm₁ fun _ => unary_ne_stopped
  | binary id left operator right =>
    simp only [Expr.encounters, List.forall_mem_append] at hmet
    obtain ⟨hleft, -, hright⟩ := hform
    apply Visits.bind (h.eval hm hscopes ⟨hleft, hmet.1.1⟩)
    intro value m₁ hm₁ hgrow₁ _
    apply Visits.bind (h.eval (hm.mono hm₁ hgrow₁) hscopes ⟨hright, hmet.1.2⟩)
    intro value' m₂ hm₂ _ _
    exact visits_ofExcept hm₂ fun _ => binary_ne_stopped
  | logical id left operator right =>
    simp only [Expr.encounters, List.forall_mem_append] at hmet
    obtain ⟨hleft, -, hright⟩ := hform
    apply Visits.bind (h.eval hm hscopes ⟨hleft, hmet.1.1⟩)
    intro value m₁ hm₁ hgrow₁ _
    split_ifs
    · exact visits_pure hm₁ trivial
    · exact h.eval (hm.mono hm₁ hgrow₁) hscopes ⟨hright, hmet.1.2⟩
  | var id name => exact visits_readName hm.sound id name
  | assign id name value =>
    simp only [Expr.encounters, List.forall_mem_append] at hmet
    apply Visits.bind (h.eval hm hscopes ⟨hform.2, hmet.1⟩)
    intro v m₁ hm₁ _ _
    apply Visits.bind (visits_rebind hm₁ name v _)
    intro _ m₂ hm₂ _ _
    exact visits_pure hm₂ trivial
  | call id callee paren arguments =>
    simp only [Expr.encounters, List.forall_mem_append] at hmet
    obtain ⟨hcallee, -, harguments⟩ := hform
    apply Visits.bind (h.eval hm hscopes ⟨hcallee, hmet.1.1⟩)
    intro value m₁ hm₁ hgrow₁ _
    apply Visits.bind (h.collect (hm.mono hm₁ hgrow₁) hscopes harguments hmet.1.2)
    intro values m₂ hm₂ _ _
    exact h.invoke hm₂ value paren values
  | get id object name =>
    simp only [Expr.encounters, List.forall_mem_append] at hmet
    apply Visits.bind (h.eval hm hscopes ⟨hform.1, hmet.1⟩)
    intro value m₁ hm₁ _ _
    split
    · exact visits_readProperty hm₁ _ name
    · exact visits_fault hm₁ _ _
  | set id object name value =>
    simp only [Expr.encounters, List.forall_mem_append] at hmet
    obtain ⟨hobject, -, hvalue⟩ := hform
    apply Visits.bind (h.eval hm hscopes ⟨hobject, hmet.1.2⟩)
    intro target m₁ hm₁ hgrow₁ _
    split
    · apply Visits.bind (h.eval (hm.mono hm₁ hgrow₁) hscopes ⟨hvalue, hmet.1.1⟩)
      intro v m₂ hm₂ _ _
      apply Visits.bind (visits_writeField hm₂ _ name.lexeme v)
      intro _ m₃ hm₃ _ _
      exact visits_pure hm₃ trivial
    · exact visits_fault hm₁ _ _
  | this id keyword => exact visits_readName hm.sound id keyword

/-- The methods of a class, each in the frame of the class; the one called `init` initializes. -/
theorem exists_of_methodTable {frame : Nat} {methods : List FunctionDecl} {table : Table Closure}
    {name : String} {c : Closure} (h : (methodTable frame methods table).get? name = some c) :
    table.get? name = some c ∨ ∃ method ∈ methods, c.declaration = method ∧ c.frame = frame ∧
      c.isInitializer = decide (name = "init") := by
  induction methods generalizing table with
  | nil => exact .inl h
  | cons method methods ih =>
    rcases ih h with htable | ⟨d, hd, heq⟩
    · rw [Table.get?_set] at htable
      split at htable
      · next hname =>
        cases htable
        exact .inr ⟨method, List.mem_cons_self, rfl, rfl, by rw [hname]⟩
      · exact .inl htable
    · exact .inr ⟨d, List.mem_cons_of_mem _ hd, heq⟩

/-- A function is made before its name is bound, so both are one step here: the body may refer to
the function itself. -/
theorem visits_declareFunction (hm : m.Fits V scopes) (hscopes : Scopes.Ready scopes)
    {declaration : FunctionDecl}
    (hmet : declaration.Met V (Scopes.introduce declaration.name.lexeme scopes) inClass) :
    Visits V stop m (declareFunction declaration) fun _ m' =>
      m'.Fits V (Scopes.introduce declaration.name.lexeme scopes) := by
  have hgrow := Frames.grows_define m.heap.frames m.current declaration.name.lexeme
    (m.heap.addClosure ⟨declaration, m.current, false⟩).1
  have hmirrors := hm.mirrors.define declaration.name.lexeme
    (m.heap.addClosure ⟨declaration, m.current, false⟩).1
  have hcallable : Closure.Callable V _ [] ⟨declaration, m.current, false⟩ :=
    ⟨_, inClass, hmirrors, hscopes.introduce _, hmet⟩
  have hheap := (hm.sound.withFrames hgrow).heap.addClosure hcallable
  exact ⟨⟨hheap, hm.sound.noted⟩, ⟨hgrow, rfl⟩, ⟨hheap, hm.sound.noted⟩, hmirrors⟩

theorem visits_declareClass (hm : m.Fits V scopes) (hscopes : Scopes.Ready scopes) {name : Token}
    {methods : List FunctionDecl} (hform : FunctionDecl.FormedAll Token.TellsThis methods)
    (hmet : ∀ x ∈ FunctionDecl.encountersMethods (Scopes.introduce name.lexeme scopes) methods,
      V x) :
    Visits V stop m (declareClass name methods) fun _ m' =>
      m'.Fits V (Scopes.introduce name.lexeme scopes) := by
  apply Visits.bind (visits_define hm name.lexeme .nil)
  intro _ m₁ _ _ hfits₁
  apply Visits.bind (visits_view _ hfits₁.sound)
  rintro frame m₂ hm₂ hgrow₂ rfl
  have hfits₂ := hfits₁.mono hm₂ hgrow₂
  have hcls : ∀ other c, (methodTable m₂.current methods ∅).get? other = some c →
      c.Callable V m₂.heap.frames [Scopes.ofThis] := by
    intro other c hc
    rcases exists_of_methodTable hc with hnone | ⟨method, hmethod, hdecl, hframe, -⟩
    · simp at hnone
    · refine ⟨_, true, hframe ▸ hfits₂.mirrors, hscopes.introduce _, ?_⟩
      rw [hdecl]
      exact FunctionDecl.forall_met hform hmet method hmethod
  have hadd : Visits V stop m₂
      (onHeap (·.addClass ⟨name.lexeme, methodTable m₂.current methods ∅⟩)) fun _ _ => True :=
    visits_onHeap hm₂ (hm₂.heap.addClass hcls) (.refl _) trivial
  apply hadd.bind
  intro value m₃ hm₃ hgrow₃ _
  have hfits₃ := hfits₂.mono hm₃ hgrow₃
  -- the class replaces the `nil` that its name was bound to before
  apply Action.Ensures.mono (visits_rebind hm₃ name value _)
  · intro _ m₄ h
    exact ⟨h.1, h.2.1, hfits₃.mono h.1 h.2.1⟩
  · intro _ _ h
    exact h

/-- One step of execution, one case for each kind of statement. -/
theorem Keeps.execWith (h : Keeps V stop eval exec) {stmt : Stmt} (hm : m.Fits V scopes)
    (hscopes : Scopes.Ready scopes) (hstmt : stmt.Met V scopes inFunction inClass) :
    Visits V stop m (execWith eval exec stmt) fun flow m' =>
      flow = .normal → m'.Fits V (stmt.scopesAfter scopes) := by
  obtain ⟨hform, hmet⟩ := hstmt
  cases stmt with
  | expression expr =>
    apply Visits.bind (h.eval hm hscopes.readable ⟨hform, hmet⟩)
    intro _ m₁ hm₁ hgrow₁ _
    exact visits_pure hm₁ fun _ => hm.mono hm₁ hgrow₁
  | print expr =>
    apply Visits.bind (h.eval hm hscopes.readable ⟨hform, hmet⟩)
    intro value m₁ hm₁ hgrow₁ _
    have hfits₁ := hm.mono hm₁ hgrow₁
    apply Visits.bind (visits_print hm₁ value)
    intro _ m₂ hm₂ hgrow₂ _
    exact visits_pure hm₂ fun _ => hfits₁.mono hm₂ hgrow₂
  | varDecl name initializer =>
    obtain ⟨⟨hkind, hname⟩, hinit⟩ := hform
    simp only [Stmt.encounters, List.forall_mem_cons] at hmet
    have hdeclared : m.Fits V (Scopes.declare name.lexeme scopes) :=
      ⟨hm.sound, hm.mirrors.declare name.lexeme⟩
    apply Visits.bind (h.evalOption hdeclared (hscopes.declare (hname.1 hkind)) hinit hmet.2)
    intro value m₁ hm₁ hgrow₁ _
    apply Visits.bind (visits_define (hm.mono hm₁ hgrow₁) name.lexeme value)
    intro _ m₂ hm₂ _ hfits₂
    exact visits_pure hm₂ fun _ => hfits₂
  | block body =>
    have hgrow := Frames.grows_push m.heap.frames (some m.current) ∅
    have hpush : Visits V stop m (Action.update fun m =>
          ((m.heap.addFrame (some m.current) ∅).1,
            { m with heap := (m.heap.addFrame (some m.current) ∅).2 }))
        fun frame m' => m'.heap.frames.Mirrors frame (∅ :: scopes) :=
      ⟨hm.sound.withFrames hgrow, ⟨hgrow, rfl⟩, hm.mirrors.push (Scope.readyWithin_empty _)⟩
    apply hpush.bind
    intro frame m₁ hm₁ hgrow₁ hframe
    have hinside : ({ m₁ with current := frame } : Machine).Fits V (∅ :: scopes) :=
      ⟨⟨hm₁.heap, hm₁.noted⟩, hframe⟩
    have hbody := h.sequence hinside hscopes.enter hform hmet
    apply Action.Ensures.mono hbody.inFrame
    · intro flow m₂ hrun
      exact ⟨hrun.1, hrun.2.1, fun _ => (hm.mono hm₁ hgrow₁).mono hrun.1 hrun.2.1⟩
    · intro _ _ hrun
      exact hrun
  | ifThen condition thenBranch =>
    simp only [Stmt.encounters, List.forall_mem_append] at hmet
    obtain ⟨hcondition, hbranch⟩ := hform
    apply Visits.bind (h.eval hm hscopes.readable ⟨hcondition, hmet.1⟩)
    intro value m₁ hm₁ hgrow₁ _
    have hfits₁ := hm.mono hm₁ hgrow₁
    split_ifs
    · exact h.exec hfits₁ hscopes ⟨hbranch.2, hmet.2⟩
    · refine visits_pure hm₁ fun _ => ?_
      rw [Stmt.scopesAfter, Stmt.IsStatement.scopesAfter_eq hbranch]
      exact hfits₁
  | ifElse condition thenBranch elseBranch =>
    simp only [Stmt.encounters, List.forall_mem_append] at hmet
    obtain ⟨hcondition, hthen, helse⟩ := hform
    apply Visits.bind (h.eval hm hscopes.readable ⟨hcondition, hmet.1.1⟩)
    intro value m₁ hm₁ hgrow₁ _
    have hfits₁ := hm.mono hm₁ hgrow₁
    rw [Stmt.IsStatement.scopesAfter_eq hthen] at hmet
    rw [Stmt.scopesAfter, Stmt.IsStatement.scopesAfter_eq hthen,
      Stmt.IsStatement.scopesAfter_eq helse]
    split_ifs
    · have hrun := h.exec hfits₁ hscopes ⟨hthen.2, hmet.1.2⟩
      rw [Stmt.IsStatement.scopesAfter_eq hthen] at hrun
      exact hrun
    · have hrun := h.exec hfits₁ hscopes ⟨helse.2, hmet.2⟩
      rw [Stmt.IsStatement.scopesAfter_eq helse] at hrun
      exact hrun
  | whileLoop condition body =>
    have hloop := hmet
    simp only [Stmt.encounters, List.forall_mem_append] at hmet
    have hbody : body.IsStatement Token.TellsThis := hform.2
    apply Visits.bind (h.eval hm hscopes.readable ⟨hform.1, hmet.1⟩)
    intro value m₁ hm₁ hgrow₁ _
    have hfits₁ := hm.mono hm₁ hgrow₁
    split_ifs
    · apply Visits.bind (h.exec hfits₁ hscopes ⟨hbody.2, hmet.2⟩)
      intro flow m₂ hm₂ hgrow₂ _
      cases flow with
      | normal => exact h.exec (hfits₁.mono hm₂ hgrow₂) hscopes ⟨hform, hloop⟩
      | returned value => exact visits_pure hm₂ fun hflow => by simp at hflow
    · refine visits_pure hm₁ fun _ => ?_
      rw [Stmt.scopesAfter, hbody.scopesAfter_eq]
      exact hfits₁
  | funDecl declaration =>
    simp only [Stmt.encounters, List.forall_mem_cons] at hmet
    apply Visits.bind (visits_declareFunction hm hscopes ⟨hform, hmet.2⟩)
    intro _ m₁ hm₁ _ hfits₁
    exact visits_pure hm₁ fun _ => hfits₁
  | returnStmt keyword value =>
    simp only [Stmt.encounters, List.forall_mem_cons] at hmet
    apply Visits.bind (h.evalOption hm hscopes.readable hform.2 hmet.2)
    intro value m₁ hm₁ _ _
    exact visits_pure hm₁ fun hflow => by simp at hflow
  | classDecl name methods =>
    simp only [Stmt.encounters, List.forall_mem_cons] at hmet
    apply Visits.bind (visits_declareClass hm hscopes hform.2 hmet.2)
    intro _ m₁ hm₁ _ hfits₁
    exact visits_pure hm₁ fun _ => hfits₁

end Evaluation

theorem keeps_until (V : Encounter → Prop) (stop : Expr → Machine → Prop) (fuel : Nat) :
    Keeps V stop (evalUntil stop fuel) (execUntil stop fuel) := by
  induction fuel with
  | zero =>
    constructor
    · intros
      rw [evalUntil]
      trivial
    · intros
      rw [execUntil]
      trivial
  | succ fuel ih =>
    constructor
    · intro scopes inClass expr m hm hscopes hexpr
      rw [evalUntil]
      have hcheck : Visits V stop m (checkpoint stop expr) fun _ _ => True := by
        unfold Visits
        rw [ensures_checkpoint]
        constructor
        · intro hstop
          have hseen := hexpr.2 _ (expr.mem_encounters_self scopes inClass)
          exact ⟨hm.sound, .refl m, fun _ =>
            ⟨expr, m, scopes, inClass, hstop, hseen, hexpr.1, hscopes, hm⟩⟩
        · intro _
          exact ⟨hm.sound, .refl m, trivial⟩
      apply hcheck.bind
      intro _ m₁ hm₁ hgrow₁ _
      exact ih.evalWith (hm.mono hm₁ hgrow₁) hscopes hexpr
    · intro scopes inFunction inClass stmt m hm hscopes hstmt
      rw [execUntil]
      exact ih.execWith hm hscopes hstmt

/-- A program runs outside all scopes, statement after statement. -/
theorem Keeps.programWith {eval : Expr → Run Value} {exec : Stmt → Run Flow}
    (h : Keeps V stop eval exec) {program : List Stmt} (hm : m.Fits V [])
    (hform : Stmt.FormedAll Token.TellsThis program) (hmet : ∀ x ∈ encountersOf program, V x) :
    Visits V stop m (programWith exec program) fun _ _ => True := by
  induction program generalizing m with
  | nil => exact visits_flush hm.sound
  | cons stmt program ih =>
    rw [encountersOf, Stmt.encountersAll, List.forall_mem_append, Stmt.scopesAfter_nil] at hmet
    apply Visits.bind (h.exec hm Scopes.ready_nil ⟨hform.1, hmet.1⟩)
    intro _ m₁ hm₁ hgrow₁ _
    exact ih (hm.mono hm₁ hgrow₁) hform.2 hmet.2

end Run
end LoxLang
