import LoxLang.Proofs.Execution.Growth

/-!
# Frames are anchored in the globals

What is added to the heap fits to what is there. The chain of every frame ends in the frame of the
globals, functions were declared in frames that exist, and a class has the methods of its
declaration, of two with the same name the later one (`Heap.Anchored`). The steps that add a frame
take its parent from the machine or from a function on the heap. So a run keeps all this, and has it
at each of its points (`Run.anchors`).
-/
namespace LoxLang

/-- The method that the body of a class declares under this name: the last one. -/
def FunctionDecl.last? (methods : List FunctionDecl) (name : String) : Option FunctionDecl :=
  methods.reverse.find? (·.name.lexeme = name)

theorem FunctionDecl.last?_cons (method : FunctionDecl) (methods : List FunctionDecl)
    (name : String) :
    last? (method :: methods) name =
      (last? methods name).or (if method.name.lexeme = name then some method else none) := by
  simp only [last?, List.reverse_cons, List.find?_append, List.find?_singleton, decide_eq_true_eq]

theorem Run.get?_methodTable (frame : Nat) (methods : List FunctionDecl) (table : Table Closure)
    (name : String) :
    (methodTable frame methods table).get? name =
      ((FunctionDecl.last? methods name).map fun method => ⟨method, frame, name = "init"⟩).or
        (table.get? name) := by
  induction methods generalizing table with
  | nil => rfl
  | cons method methods ih =>
    rw [methodTable, ih, FunctionDecl.last?_cons, Table.get?_set]
    cases FunctionDecl.last? methods name with
    | some later => rfl
    | none =>
      by_cases hname : method.name.lexeme = name
      · simp [hname]
      · simp [hname]

/-- The class is what this declaration makes in this frame. -/
structure Class.DeclaredBy (cls : Class) (name : Token) (methods : List FunctionDecl)
    (frame : Nat) : Prop where
  name : cls.name = name.lexeme
  methods : ∀ key, cls.methods.get? key =
    (FunctionDecl.last? methods key).map fun method => ⟨method, frame, key = "init"⟩

theorem Class.declaredBy_methodTable (name : Token) (methods : List FunctionDecl) (frame : Nat) :
    Class.DeclaredBy ⟨name.lexeme, Run.methodTable frame methods ∅⟩ name methods frame where
  name := rfl
  methods key := by rw [Run.get?_methodTable, Table.get?_empty, Option.or_none]

theorem Class.DeclaredBy.frame_eq {cls : Class} {name : Token} {methods : List FunctionDecl}
    {frame : Nat} (h : cls.DeclaredBy name methods frame) {key : String} {c : Closure}
    (hc : cls.methods.get? key = some c) : c.frame = frame := by
  rw [h.methods] at hc
  obtain ⟨method, -, rfl⟩ := Option.map_eq_some_iff.mp hc
  rfl

/-- Every chain of frames ends in the frame of the globals, functions were declared in frames that
exist, and classes are what a declaration made. -/
structure Heap.Anchored (h : Heap) : Prop where
  chain : ∀ i, i < h.frames.next → ∃ locals, h.frames.chain i = locals ++ [Heap.globals]
  closures : ∀ c ∈ h.closures, c.frame < h.frames.next
  classes : ∀ cls ∈ h.classes, ∃ name methods frame, cls.DeclaredBy name methods frame ∧
    frame < h.frames.next

def Callee.OnHeap (h : Heap) : Callee → Prop
  | .native n => n ∈ h.natives
  | .function c => c ∈ h.closures
  | .cls _ k => k ∈ h.classes

theorem Heap.onHeap_of_callee? {h : Heap} {value : Value} {callee : Callee}
    (hcallee : h.callee? value = some callee) : callee.OnHeap h := by
  cases value <;> simp only [callee?, Option.map_eq_some_iff, reduceCtorEq] at hcallee
  all_goals
    obtain ⟨found, hfound, rfl⟩ := hcallee
    exact Array.mem_of_getElem? hfound

/-- The current frame is one of the frames of an anchored heap. -/
structure Machine.Anchored (m : Machine) : Prop where
  heap : m.heap.Anchored
  current : m.current < m.heap.frames.next

namespace Heap.Anchored

variable {h : Heap} (ha : h.Anchored)
include ha

theorem withFrames {frames : Frames} (hgrow : h.frames.Grows frames)
    (hnext : frames.next = h.frames.next) : Heap.Anchored { h with frames } where
  chain i hi := by
    have hi' : i < h.frames.next := hnext ▸ hi
    rw [hgrow.chain hi']
    exact ha.chain i hi'
  closures c hc := (ha.closures c hc).trans_le hgrow.next_le
  classes cls hcls := by
    obtain ⟨name, methods, frame, hdeclared, hframe⟩ := ha.classes cls hcls
    exact ⟨name, methods, frame, hdeclared, hframe.trans_le hgrow.next_le⟩

theorem define (frame : Nat) (name : String) (value : Value) :
    Heap.Anchored { h with frames := h.frames.define frame name value } :=
  ha.withFrames (Frames.grows_define _ frame name value) (Frames.next_define _ frame name value)

theorem addFrame {parent : Nat} (hparent : parent < h.frames.next) (vars : Table Value) :
    (h.addFrame (some parent) vars).2.Anchored where
  chain i hi := by
    have hgrow := Frames.grows_push h.frames (some parent) vars
    rcases Nat.lt_succ_iff_lt_or_eq.mp ((Frames.next_push _ _ _) ▸ hi) with hold | rfl
    · obtain ⟨locals, hchain⟩ := ha.chain i hold
      exact ⟨locals, (hgrow.chain hold).trans hchain⟩
    · obtain ⟨locals, hchain⟩ := ha.chain parent hparent
      refine ⟨h.frames.next :: locals, (Frames.chain_push hparent vars).trans ?_⟩
      rw [hchain, List.cons_append]
  closures c hc := (ha.closures c hc).trans_le (Frames.grows_push _ _ _).next_le
  classes cls hcls := by
    obtain ⟨name, methods, frame, hdeclared, hframe⟩ := ha.classes cls hcls
    exact ⟨name, methods, frame, hdeclared, hframe.trans_le (Frames.grows_push _ _ _).next_le⟩

theorem addClosure {c : Closure} (hc : c.frame < h.frames.next) : (h.addClosure c).2.Anchored where
  chain := ha.chain
  closures c' hc' := by
    rcases Array.mem_push.mp hc' with hold | rfl
    · exact ha.closures c' hold
    · exact hc
  classes := ha.classes

theorem addClass {name : Token} {methods : List FunctionDecl} {frame : Nat}
    (hframe : frame < h.frames.next) :
    (h.addClass ⟨name.lexeme, Run.methodTable frame methods ∅⟩).2.Anchored where
  chain := ha.chain
  closures := ha.closures
  classes cls hcls := by
    rcases Array.mem_push.mp hcls with hold | rfl
    · exact ha.classes cls hold
    · exact ⟨name, methods, frame, Class.declaredBy_methodTable name methods frame, hframe⟩

theorem addInstance (cls : Nat) : (h.addInstance cls).2.Anchored :=
  ⟨ha.chain, ha.closures, ha.classes⟩

theorem setField (place : Nat) (name : String) (value : Value) :
    (h.setField place name value).Anchored :=
  ⟨ha.chain, ha.closures, ha.classes⟩

theorem of_getMethod? {cls : Class} (hcls : cls ∈ h.classes) {name : String} {c : Closure}
    (hc : cls.methods.get? name = some c) : c.frame < h.frames.next := by
  obtain ⟨_, _, frame, hdeclared, hframe⟩ := ha.classes cls hcls
  rw [hdeclared.frame_eq hc]
  exact hframe

theorem of_method? {place : Nat} {name : String} {c : Closure}
    (hc : h.method? place name = some c) : c.frame < h.frames.next := by
  obtain ⟨cls, hplace, hmethod⟩ := Option.bind_eq_some_iff.mp hc
  obtain ⟨i, -, hcls⟩ := Option.bind_eq_some_iff.mp hplace
  exact ha.of_getMethod? (Array.mem_of_getElem? hcls) hmethod

end Heap.Anchored

theorem Heap.anchored_initial : Heap.initial.Anchored where
  chain i hi := by
    obtain rfl : i = Heap.globals := Nat.lt_one_iff.mp hi
    have hparent : Heap.initial.frames.parent? Heap.globals = none := rfl
    exact ⟨[], Frames.chain_of_outermost hparent⟩
  closures := nofun
  classes := nofun

/-- The machine is anchored, and its heap has grown out of that of `m`. -/
structure Machine.Develops (m m' : Machine) : Prop where
  anchored : m'.Anchored
  grows : m.heap.Grows m'.heap

namespace Machine

variable {m m' m'' : Machine}

theorem Anchored.develops (h : m.Anchored) : m.Develops m := ⟨h, .refl _⟩

theorem Develops.trans (h : m.Develops m') (h' : m'.Develops m'') : m.Develops m'' :=
  ⟨h'.anchored, h.grows.trans h'.grows⟩

end Machine

namespace Run

section Anchors

variable {α β : Type} {stop : Stops} {m : Machine}

def DevelopsTo (stop : Stops) (m : Machine) : Prop :=
  ∃ running point n, stop running point n ∧ m.Develops n

theorem DevelopsTo.of_grows {m' : Machine} (h : DevelopsTo stop m')
    (hgrow : m.heap.Grows m'.heap) : DevelopsTo stop m := by
  obtain ⟨running, point, n, hn, hdevelops⟩ := h
  exact ⟨running, point, n, hn, hdevelops.anchored, hgrow.trans hdevelops.grows⟩

/-- The machine is anchored in the end and its heap has grown, also up to the point where the run is
stopped. -/
def AnchorsAt (stop : Stops) (m : Machine) (x : Run α) : Prop :=
  x.Ensures m (fun _ m' => m.Develops m') fun fault m' =>
    m.Develops m' ∧ (fault = .stopped → DevelopsTo stop m)

theorem AnchorsAt.bind {x : Run α} {f : α → Run β} (hx : AnchorsAt stop m x)
    (hf : ∀ a m', m'.Anchored → AnchorsAt stop m' (f a)) : AnchorsAt stop m (x >>= f) := by
  unfold AnchorsAt
  rw [Action.ensures_bind]
  refine Action.Ensures.mono hx (fun a m₁ h₁ => ?_) fun _ _ h => h
  apply (hf a m₁ h₁.anchored).mono
  · intro b m₂ h₂
    exact h₁.trans h₂
  · rintro fault m₂ ⟨h₂, hstopped⟩
    exact ⟨h₁.trans h₂, fun hfault => (hstopped hfault).of_grows h₁.grows⟩

theorem anchorsAt_pure (hm : m.Anchored) (a : α) : AnchorsAt stop m (pure a) := hm.develops

theorem anchorsAt_view (hm : m.Anchored) (f : Machine → α) : AnchorsAt stop m (Action.view f) :=
  hm.develops

/-- What goes on from the heap that a step has made. -/
theorem anchorsAt_onHeap {f : Heap → α × Heap} {g : α → Run β} (hgrow : m.heap.Grows (f m.heap).2)
    (hg : AnchorsAt stop { m with heap := (f m.heap).2 } (g (f m.heap).1)) :
    AnchorsAt stop m (onHeap f >>= g) := by
  change (g (f m.heap).1).Ensures { m with heap := (f m.heap).2 } _ _
  refine Action.Ensures.mono hg (fun _ _ h => ⟨h.anchored, hgrow.trans h.grows⟩) ?_
  rintro fault m' ⟨h, hstopped⟩
  exact ⟨⟨h.anchored, hgrow.trans h.grows⟩, fun hfault => (hstopped hfault).of_grows hgrow⟩

theorem AnchorsAt.inFrame {x : Run α} {frame : Nat} (hm : m.Anchored)
    (hx : AnchorsAt stop { m with current := frame } x) : AnchorsAt stop m (inFrame frame x) := by
  -- the frame that is put back is still there, since no frame goes away
  have hback : ∀ m', Machine.Develops { m with current := frame } m' →
      m.Develops { m' with current := m.current } := fun m' h =>
    ⟨⟨h.anchored.heap, hm.current.trans_le h.grows.frames.next_le⟩, h.grows⟩
  change (x.ensuring _).Ensures { m with current := frame } _ _
  rw [Action.ensures_ensuring]
  refine Action.Ensures.mono hx (fun _ m' h => hback m' h) ?_
  rintro fault m' ⟨h, hstopped⟩
  exact ⟨hback m' h, fun hfault => (hstopped hfault).of_grows (.refl _)⟩

theorem AnchorsAt.deeper {x : Run α} (hx : AnchorsAt stop { m with depth := m.depth + 1 } x) :
    AnchorsAt stop m (deeper x) := by
  change (x.ensuring _).Ensures { m with depth := m.depth + 1 } _ _
  rw [Action.ensures_ensuring]
  refine Action.Ensures.mono hx
    (fun _ _ h => ⟨⟨h.anchored.heap, h.anchored.current⟩, h.grows⟩) ?_
  rintro fault m' ⟨h, hstopped⟩
  exact ⟨⟨⟨h.anchored.heap, h.anchored.current⟩, h.grows⟩,
    fun hfault => (hstopped hfault).of_grows (.refl _)⟩

theorem AnchorsAt.blaming {x : Run α} (hx : AnchorsAt stop m x) (paren : Token) :
    AnchorsAt stop m (blaming paren x) := by
  unfold AnchorsAt Action.Ensures Run.blaming at *
  cases hrun : x m with
  | done a m' => simpa only [hrun] using hx
  | failed fault m' =>
    simp only [hrun] at hx ⊢
    refine ⟨hx.1, fun hfault => hx.2 ?_⟩
    cases fault with
    | native text => cases hfault
    | output cause => exact hfault
    | operation token cause => exact hfault
  | exhausted => trivial

/-- A law of runs from anchored machines. -/
def Anchors (X : Stops → Run α) : Prop := ∀ stop m, m.Anchored → AnchorsAt stop m (X stop)

/-- Of a quiet step only what it does to frames, functions and classes has to be shown. -/
theorem anchors_of_quiet {x : Run α} (hx : Quiet x)
    (h : ∀ m : Machine, m.Anchored →
      x.Ensures m (fun _ m' => m'.Anchored) fun _ m' => m'.Anchored) :
    Anchors fun _ => x := by
  intro stop m hm
  have hgrows := hx.preserves Machine.stable_heapGrows m
  apply (((h m hm).and hgrows).and (hx.unaware m)).mono
  · rintro a m' ⟨⟨hanchored, hgrow⟩, -⟩
    exact ⟨hanchored, hgrow⟩
  · rintro fault m' ⟨⟨hanchored, hgrow⟩, ⟨token, cause, rfl⟩, -⟩
    exact ⟨⟨hanchored, hgrow⟩, nofun⟩

theorem anchored_define (hm : m.Anchored) (frame : Nat) (name : String) (value : Value) :
    Machine.Anchored { m with
      heap := { m.heap with frames := m.heap.frames.define frame name value } } := by
  refine ⟨hm.heap.define frame name value, ?_⟩
  rw [Frames.next_define]
  exact hm.current

theorem anchored_addFrame (hm : m.Anchored) {parent : Nat} (hparent : parent < m.heap.frames.next)
    (vars : Table Value) :
    Machine.Anchored { m with heap := (m.heap.addFrame (some parent) vars).2 } :=
  ⟨hm.heap.addFrame hparent vars, hm.current.trans_le (Frames.grows_push _ _ _).next_le⟩

theorem next_lt_addFrame (h : Heap) (parent : Option Nat) (vars : Table Value) :
    h.frames.next < (h.addFrame parent vars).2.frames.next := by
  simp [Heap.addFrame]

theorem anchors_rebind (name : Token) (value : Value) {holder? : Machine → Option Nat}
    (hquiet : ∀ (m : Machine) depth sink, holder? { m with depth, sink } = holder? m) :
    Anchors fun _ => rebind name value holder? := by
  apply anchors_of_quiet (quiet_rebind name value hquiet)
  intro m hm
  simp only [rebind, Action.ensures_bind, Action.ensures_view]
  split
  · exact anchored_define hm _ name.lexeme value
  · exact hm

theorem anchors_readProperty (place : Nat) (name : Token) :
    Anchors fun _ => readProperty place name := by
  apply anchors_of_quiet (quiet_readProperty place name)
  intro m hm
  simp only [readProperty, Action.ensures_bind, Action.ensures_view]
  split
  · exact hm
  · simp only [Action.ensures_bind, Action.ensures_view]
    split
    · next method hmethod =>
      have hframe := hm.heap.of_method? hmethod
      have hbound := anchored_addFrame hm hframe (Table.set ∅ "this" (.inst place))
      exact ⟨hbound.heap.addClosure (next_lt_addFrame _ _ _), hbound.current⟩
    · exact hm

theorem anchors_declareFunction (declaration : FunctionDecl) :
    Anchors fun _ => declareFunction declaration := by
  apply anchors_of_quiet (quiet_declareFunction declaration)
  intro m hm
  have hadded : Machine.Anchored { m with
      heap := (m.heap.addClosure ⟨declaration, m.current, false⟩).2 } :=
    ⟨hm.heap.addClosure hm.current, hm.current⟩
  exact anchored_define hadded _ _ _

def withClass (m : Machine) (name : Token) (methods : List FunctionDecl) : Machine :=
  { m with heap := { m.heap with
    frames := (m.heap.frames.define m.current name.lexeme .nil).define m.current name.lexeme
      (.cls m.heap.classes.size)
    classes := m.heap.classes.push ⟨name.lexeme, methodTable m.current methods ∅⟩ } }

/-- A class is declared in two steps. The second finds the name where the first has bound it. -/
theorem declareClass_apply (hm : m.current < m.heap.frames.next) (name : Token)
    (methods : List FunctionDecl) :
    declareClass name methods m = .done () (withClass m name methods) := by
  have hbound : ((m.heap.frames.define m.current name.lexeme .nil).getHere? m.current
      name.lexeme).isSome := by
    rw [Frames.getHere?_define, if_pos ⟨rfl, rfl, hm⟩]
    rfl
  have hholder : (m.heap.frames.define m.current name.lexeme .nil).holder? m.current name.lexeme =
      some m.current := by
    rw [Frames.holder?, if_pos hbound]
  simp only [declareClass, define, assignAlong, rebind, onHeap, Action.bind_apply, Action.change,
    Action.view, Action.update, Heap.addClass, hholder, withClass]

theorem anchors_declareClass (name : Token) (methods : List FunctionDecl) :
    Anchors fun _ => declareClass name methods := by
  apply anchors_of_quiet (quiet_declareClass name methods)
  intro m hm
  have hdefined := anchored_define hm m.current name.lexeme .nil
  have hadded : Machine.Anchored { m with heap := ({ m.heap with
      frames := m.heap.frames.define m.current name.lexeme .nil }.addClass
        ⟨name.lexeme, methodTable m.current methods ∅⟩).2 } :=
    ⟨hdefined.heap.addClass hdefined.current, hdefined.current⟩
  unfold Action.Ensures
  rw [declareClass_apply hm.current]
  exact anchored_define hadded m.current name.lexeme _

theorem anchorsAt_callNative (hm : m.Anchored) (n : Native) (arguments : List Value) :
    AnchorsAt stop m (callNative n arguments) := by
  have htaken : m.Develops { m with taken := m.taken + 1 } := ⟨⟨hm.heap, hm.current⟩, .refl _⟩
  unfold AnchorsAt Action.Ensures callNative
  dsimp only
  generalize n.run _ = result
  cases result with
  | ok value => exact htaken
  | error text => exact ⟨htaken, nofun⟩

section Calls

variable {exec : Stops → Stmt → Run Flow}

theorem anchorsAt_block {body : List Stmt} (hbody : Anchors fun stop => sequence (exec stop) body)
    (hm : m.Anchored) {parent : Nat} (hparent : parent < m.heap.frames.next)
    (vars : Table Value) :
    AnchorsAt stop { m with heap := (m.heap.addFrame (some parent) vars).2 }
      (block (exec stop) body (m.heap.addFrame (some parent) vars).1) := by
  have hnew := anchored_addFrame hm hparent vars
  exact .inFrame hnew (hbody stop _ ⟨hnew.heap, next_lt_addFrame _ _ _⟩)

variable (hbody : ∀ body, Anchors fun stop => sequence (exec stop) body) (hm : m.Anchored)
include hbody hm

theorem anchorsAt_callClosure {c : Closure} (hc : c.frame < m.heap.frames.next)
    (arguments : List Value) : AnchorsAt stop m (callClosure (exec stop) c arguments) := by
  apply anchorsAt_onHeap (Heap.Step.frame c.frame _).grows
  apply (anchorsAt_block (hbody c.declaration.body) hm hc _).bind
  intro flow m' hm'
  split
  · exact anchorsAt_view hm' _
  · cases flow with
    | normal => exact anchorsAt_pure hm' _
    | returned value => exact anchorsAt_pure hm' _

theorem anchorsAt_construct {place : Nat} {cls : Class} (hcls : cls ∈ m.heap.classes)
    (arguments : List Value) : AnchorsAt stop m (construct (exec stop) place cls arguments) := by
  have hnew : Machine.Anchored { m with heap := (m.heap.addInstance place).2 } :=
    ⟨hm.heap.addInstance place, hm.current⟩
  apply anchorsAt_onHeap (Heap.Step.inst place).grows
  split
  · next method hmethod =>
    have hframe : method.frame < m.heap.frames.next := hm.heap.of_getMethod? hcls hmethod
    have hbound := anchored_addFrame hnew hframe
      (Table.set ∅ "this" (.inst (m.heap.addInstance place).1))
    apply anchorsAt_onHeap (Heap.Step.frame _ _).grows
    refine (anchorsAt_callClosure hbody hbound (next_lt_addFrame _ _ _) arguments).bind ?_
    intro _ m' hm'
    exact anchorsAt_pure hm' _
  · exact anchorsAt_pure hnew _

theorem anchorsAt_invoke (value : Value) (paren : Token) (arguments : List Value) :
    AnchorsAt stop m (invoke (exec stop) value paren arguments) := by
  unfold AnchorsAt Action.Ensures
  rw [invoke_apply]
  cases hcallee : m.heap.callee? value with
  | none => exact ⟨hm.develops, nofun⟩
  | some callee =>
    dsimp only
    by_cases harity : arguments.length ≠ callee.arity
    · rw [if_pos harity]
      exact ⟨hm.develops, nofun⟩
    rw [if_neg harity]
    by_cases hdeep : maxDepth ≤ m.depth
    · rw [if_pos hdeep]
      exact ⟨hm.develops, nofun⟩
    rw [if_neg hdeep]
    have honHeap := Heap.onHeap_of_callee? hcallee
    have hm' : Machine.Anchored { m with depth := m.depth + 1 } := ⟨hm.heap, hm.current⟩
    have hcall : AnchorsAt stop { m with depth := m.depth + 1 }
        (call (exec stop) callee arguments) := by
      cases callee with
      | native n => exact anchorsAt_callNative hm' n arguments
      | function c => exact anchorsAt_callClosure hbody hm' (hm.heap.closures c honHeap) arguments
      | cls place cls => exact anchorsAt_construct hbody hm' honHeap arguments
    exact hcall.deeper.blaming paren

end Calls

theorem anchors_pause (running : List Expr) (point : Point) :
    Anchors fun stop => pause (stop running point) := fun _ m hm =>
  ensures_pause.mpr
    ⟨fun h => ⟨hm.develops, fun _ => ⟨running, point, m, h, hm.develops⟩⟩, fun _ => hm.develops⟩

theorem anchorsAt_write (hm : m.Anchored) (piece : String) : AnchorsAt stop m (write piece) := by
  unfold AnchorsAt Action.Ensures write
  cases hwrite : m.sink.write piece with
  | ok sink => exact ⟨⟨hm.heap, hm.current⟩, .refl _⟩
  | error cause =>
    obtain rfl := Sink.cause_eq_closed hwrite
    exact ⟨hm.develops, nofun⟩

theorem anchorsAt_print (hm : m.Anchored) (value : Value) : AnchorsAt stop m (print value) := by
  apply (anchorsAt_view hm _).bind
  intro text m₁ hm₁
  apply (anchorsAt_write hm₁ text).bind
  intro _ m₂ hm₂
  exact anchorsAt_write hm₂ "\n"

theorem anchorsAt_flush (hm : m.Anchored) : AnchorsAt stop m flush := by
  unfold AnchorsAt Action.Ensures flush Sink.flush
  cases m.sink.flushFails with
  | false => exact hm.develops
  | true => exact ⟨hm.develops, nofun⟩

/-- Runs keep to anchored machines. -/
theorem anchors : Law Anchors where
  pure a := fun _ _ hm => anchorsAt_pure hm a
  exhausted := fun _ _ _ => trivial
  bind hX hF := fun stop m hm => (hX stop m hm).bind fun a m' hm' => hF a stop m' hm'
  ofExcept hx := by
    apply anchors_of_quiet (quiet_ofExcept hx)
    intro m hm
    rw [Action.ensures_ofExcept]
    exact ⟨fun _ _ => hm, fun _ _ => hm⟩
  readName id name := by
    apply anchors_of_quiet (quiet_readName id name)
    intro m hm
    simp only [readName, Action.ensures_bind, Action.ensures_view]
    split <;> exact hm
  writeName id name value := anchors_rebind name value fun _ _ _ => rfl
  define name value :=
    anchors_of_quiet (quiet_define name value) fun m hm => anchored_define hm m.current name value
  readProperty := anchors_readProperty
  writeField place name value :=
    anchors_of_quiet (quiet_writeField place name value) fun _ hm =>
      ⟨hm.heap.setField place name value, hm.current⟩
  declareFunction := anchors_declareFunction
  declareClass := anchors_declareClass
  pause := anchors_pause
  block body hbody := by
    intro stop m hm
    change AnchorsAt stop m (onHeap (·.addFrame (some m.current) ∅) >>= _)
    apply anchorsAt_onHeap (Heap.Step.frame m.current ∅).grows
    exact anchorsAt_block hbody hm hm.current ∅
  invoke value paren arguments hbody := fun _ _ hm =>
    anchorsAt_invoke hbody hm value paren arguments
  print := by
    intro fuel running expr heval stop m hm
    simp only [execAmid]
    apply (anchors_pause running _ stop m hm).bind
    intro _ m₁ hm₁
    apply (heval stop m₁ hm₁).bind
    intro value m₂ hm₂
    apply (anchorsAt_print hm₂ value).bind
    intro _ m₃ hm₃
    exact anchorsAt_pure hm₃ _

theorem anchors_program (fuel : Nat) (stmts : List Stmt) :
    Anchors fun stop => programWith (execAmid stop fuel []) stmts :=
  anchors.programWith (fun _ _ hm => anchorsAt_flush hm) fuel stmts

section Points

variable {fuel : Nat} {stmts : List Stmt}

/-- A program leaves an anchored machine, however it ends. -/
theorem develops_program (hm : m.Anchored) :
    (program fuel stmts).Ensures m (fun _ m' => m.Develops m') fun _ m' => m.Develops m' := by
  have h := anchors_program fuel stmts never m hm
  simp only [(evalAmid_execAmid_never fuel []).2] at h
  exact Action.Ensures.mono h (fun _ _ h => h) fun _ _ h => h.1

theorem ReachesAmid.develops {running : List Expr} {point : Point} {n : Machine}
    (hm : m.Anchored) (h : ReachesAmid fuel stmts m running point n) : m.Develops n := by
  obtain ⟨m', hrun⟩ := h
  obtain ⟨-, hstopped⟩ := (anchors_program fuel stmts _ m hm).of_failed hrun
  obtain ⟨_, _, _, ⟨rfl, rfl, rfl⟩, hdevelops⟩ := hstopped rfl
  exact hdevelops

end Points

end Anchors
end Run
end LoxLang
