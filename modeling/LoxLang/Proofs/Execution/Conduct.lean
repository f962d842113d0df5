import LoxLang.Proofs.Execution.Laws
import LoxLang.Proofs.Execution.Visits
import LoxLang.Proofs.Grammar.Canonical

/-!
# The conduct of code that was read

More is known of code that was read from tokens than of any tree: operators are operators, lists of
arguments and parameters are not too long, and no name is `this`. Whatever such code calls, its runs
keep to some rules. They fail in a few ways only (`RunFault.Arises`), they never touch what a `this`
is bound to, and the depth of the machine counts the calls that are running. The proof is one
induction over the fuel, with one lemma for each step. It speaks of runs that depend on the points
to stop at (`Conducts`), so that it compares not only the ends of a run with its start, but also
each later point of a run with each earlier one.
-/
namespace LoxLang

/-- Where code comes from: the tokens that it is read from, and the native functions that it finds
when it runs. -/
structure Origin where
  IsToken : Token → Prop
  natives : Array Native
  tellsThis : ∀ {token}, IsToken token → token.TellsThis

section Code

variable (o : Origin)

def Expr.Proper (expr : Expr) : Prop := expr.Formed o.IsToken ∧ expr.Canonical

def Expr.ProperAll (exprs : List Expr) : Prop :=
  Expr.FormedAll o.IsToken exprs ∧ Expr.CanonicalAll exprs

def Expr.ProperOption (expr : Option Expr) : Prop :=
  Expr.FormedOption o.IsToken expr ∧ Expr.CanonicalOption expr

def Stmt.Proper (stmt : Stmt) : Prop := stmt.Formed o.IsToken ∧ stmt.Canonical

def Stmt.ProperAll (stmts : List Stmt) : Prop :=
  Stmt.FormedAll o.IsToken stmts ∧ Stmt.CanonicalAll stmts

def FunctionDecl.Proper (declaration : FunctionDecl) : Prop :=
  declaration.Formed o.IsToken ∧ declaration.Canonical

variable {o}

theorem FunctionDecl.proper_of_mem {methods : List FunctionDecl}
    (hformed : FunctionDecl.FormedAll o.IsToken methods)
    (hcanonical : FunctionDecl.CanonicalAll methods) :
    ∀ method ∈ methods, method.Proper o := by
  induction methods with
  | nil => simp
  | cons method methods ih =>
    rw [List.forall_mem_cons]
    exact ⟨⟨hformed.1, hcanonical.1⟩, ih hformed.2 hcanonical.2⟩

theorem FunctionDecl.Proper.isName {declaration : FunctionDecl} (h : declaration.Proper o) :
    declaration.name.IsName o.IsToken := by
  obtain ⟨name, params, body⟩ := declaration
  exact h.1.1

theorem FunctionDecl.Proper.body {declaration : FunctionDecl} (h : declaration.Proper o) :
    Stmt.ProperAll o declaration.body := by
  obtain ⟨name, params, body⟩ := declaration
  exact ⟨h.1.2.2, h.2.2.2.2⟩

theorem FunctionDecl.Proper.length_params_le {declaration : FunctionDecl}
    (h : declaration.Proper o) : declaration.params.length ≤ 255 := by
  obtain ⟨name, params, body⟩ := declaration
  exact h.2.2.2.1

/-- No name is `this`. -/
theorem Token.IsName.lexeme_ne {name : Token} (h : name.IsName o.IsToken) :
    name.lexeme ≠ "this" :=
  (o.tellsThis h.2).1 h.1

end Code

/-- What code that was read can take as arguments: at most 255, or what a native function takes. -/
def Native.CanTake (natives : Array Native) (count : Nat) : Prop :=
  count ≤ 255 ∨ ∃ n ∈ natives, n.arity = count

/-- One of the native functions can fail with this text. -/
def Native.CanFail (natives : Array Native) (text : String) : Prop :=
  ∃ n ∈ natives, ∃ call, n.run call = .error text

/-- Why an operation at this token can have no result. -/
inductive RunCause.Arises (natives : Array Native) (token : Token) : RunCause → Prop
  | operandNotNumber : Arises natives token .operandNotNumber
  | operandsNotNumbers : Arises natives token .operandsNotNumbers
  | operandsNotAddable : Arises natives token .operandsNotAddable
  | undefinedVariable : Arises natives token (.undefinedVariable token.lexeme)
  | undefinedProperty : Arises natives token (.undefinedProperty token.lexeme)
  | notCallable : Arises natives token .notCallable
  | wrongArity {expected got : Nat} : expected ≠ got → Native.CanTake natives expected →
    got ≤ 255 → Arises natives token (.wrongArity expected got)
  | propertyOfNonInstance : Arises natives token .propertyOfNonInstance
  | fieldOfNonInstance : Arises natives token .fieldOfNonInstance
  | stackOverflow : Arises natives token .stackOverflow
  | native {text : String} : Native.CanFail natives text → Arises natives token (.other text)

/-- What can end a run of code of this origin, which is stopped only if `S` holds. -/
inductive RunFault.Arises (o : Origin) (S : Prop) : RunFault → Prop
  | operation {token : Token} {cause : RunCause} : o.IsToken token →
    cause.Arises o.natives token → Arises o S (.operation token cause)
  | closed : Arises o S (.output .closed)
  | flushFailed : Arises o S (.output .flushFailed)
  | stopped : S → Arises o S .stopped

theorem RunFault.Arises.mono {o : Origin} {S S' : Prop} {fault : RunFault}
    (h : fault.Arises o S) (hS : S → S') : fault.Arises o S' := by
  cases h with
  | operation htoken hcause => exact .operation htoken hcause
  | closed => exact .closed
  | flushFailed => exact .flushFailed
  | stopped h => exact .stopped (hS h)

namespace Value

variable {o : Origin} {S : Prop} {operator : Token} {left right : Value} {fault : RunFault}

theorem unary_arises (htoken : o.IsToken operator)
    (hkind : operator.kind = .bang ∨ operator.kind = .minus)
    (h : right.unary operator = .error fault) : fault.Arises o S := by
  rcases hkind with hkind | hkind
  · simp [unary, hkind] at h
  · cases right <;> simp only [unary, hkind, reduceCtorEq, Except.error.injEq] at h
    all_goals
      subst h
      exact .operation htoken .operandNotNumber

theorem isSome_arithmetic? {kind : Kind} {level : Level}
    (hlevel : level ∈ [.equality, .comparison, .term, .factor])
    (hrank : kind.rank? = some (.operation level)) (hplus : kind ≠ .plus)
    (hequal : kind ≠ .equalEqual) (hnotEqual : kind ≠ .bangEqual) (a b : Float) :
    (arithmetic? a b kind).isSome := by
  cases kind <;> simp_all [Kind.rank?, arithmetic?]
  all_goals
    subst hrank
    simp at hlevel

theorem binary_arises {left' right' : Expr} (htoken : o.IsToken operator)
    (hfit : Expr.FitAround [.equality, .comparison, .term, .factor] operator.kind left' right')
    (h : left.binary operator right = .error fault) : fault.Arises o S := by
  obtain ⟨level, hlevel, hrank, -⟩ := hfit
  unfold binary at h
  split at h
  · split at h
    · cases h
    · cases h
    · cases h
      exact .operation htoken .operandsNotAddable
  · cases h
  · cases h
  · next hplus hequal hnotEqual =>
    split at h
    · next a b =>
      have hsome := isSome_arithmetic? hlevel hrank hplus hequal hnotEqual a b
      split at h
      · cases h
      · next hnone => simp [hnone] at hsome
    · cases h
      exact .operation htoken .operandsNotNumbers

end Value

namespace Frames

variable {fs fs' fs'' : Frames}

/-- Frames are added, and what `this` is bound to in a frame stays as it is. -/
structure KeepsThis (fs fs' : Frames) : Prop where
  next_le : fs.next ≤ fs'.next
  this : ∀ i < fs.next, fs'.getHere? i "this" = fs.getHere? i "this"

theorem KeepsThis.refl (fs : Frames) : fs.KeepsThis fs := ⟨le_rfl, fun _ _ => rfl⟩

theorem KeepsThis.trans (h : fs.KeepsThis fs') (h' : fs'.KeepsThis fs'') : fs.KeepsThis fs'' where
  next_le := h.next_le.trans h'.next_le
  this i hi := (h'.this i (hi.trans_le h.next_le)).trans (h.this i hi)

theorem keepsThis_push (fs : Frames) (parent : Option Nat) (vars : Table Value) :
    fs.KeepsThis (fs.push parent vars) where
  next_le := by simp
  this i hi := by rw [getHere?_push, if_neg hi.ne]

theorem keepsThis_define (fs : Frames) (i : Nat) {name : String} (hname : name ≠ "this")
    (value : Value) : fs.KeepsThis (fs.define i name value) where
  next_le := by simp
  this j _ := by
    rw [getHere?_define, if_neg]
    exact fun h => hname h.2.1

theorem KeepsThis.getHere? (h : fs.KeepsThis fs') {i : Nat} {value : Value}
    (hi : fs.getHere? i "this" = some value) : fs'.getHere? i "this" = some value := by
  rw [h.this i (lt_next_of_getHere? hi), hi]

end Frames

namespace Closure

/-- In the frame of an initializer, `this` is an instance. -/
def Bound (fs : Frames) (c : Closure) : Prop :=
  c.isInitializer = true → ∃ place, fs.getHere? c.frame "this" = some (.inst place)

theorem Bound.mono {fs fs' : Frames} {c : Closure} (h : c.Bound fs) (hkeep : fs.KeepsThis fs') :
    c.Bound fs' := by
  intro hinit
  obtain ⟨place, hplace⟩ := h hinit
  exact ⟨place, hkeep.getHere? hplace⟩

/-- A method of this name: code of this origin, and an initializer if it is called `init`. -/
structure IsMethod (o : Origin) (name : String) (c : Closure) : Prop where
  code : c.declaration.Proper o
  isInitializer : c.isInitializer = decide (name = "init")

end Closure

namespace Heap

variable {o : Origin} {h h' : Heap}

/-- All code in the heap is of this origin, and so are its native functions. -/
structure Proper (o : Origin) (h : Heap) : Prop where
  closures : ∀ c ∈ h.closures, c.declaration.Proper o ∧ c.Bound h.frames
  methods : ∀ cls ∈ h.classes, ∀ name c, cls.methods.get? name = some c → c.IsMethod o name
  natives : h.natives = o.natives

theorem Proper.withFrames (hproper : h.Proper o) {frames : Frames}
    (hkeep : h.frames.KeepsThis frames) : ({ h with frames } : Heap).Proper o where
  closures c hc := ⟨(hproper.closures c hc).1, (hproper.closures c hc).2.mono hkeep⟩
  methods := hproper.methods
  natives := hproper.natives

theorem Proper.addClosure (hproper : h.Proper o) {c : Closure} (hc : c.declaration.Proper o)
    (hbound : c.Bound h.frames) : (h.addClosure c).2.Proper o where
  closures d hd := by
    rcases Array.mem_push.mp hd with hd | rfl
    · exact hproper.closures d hd
    · exact ⟨hc, hbound⟩
  methods := hproper.methods
  natives := hproper.natives

theorem Proper.addClass (hproper : h.Proper o) {cls : Class}
    (hcls : ∀ name c, cls.methods.get? name = some c → c.IsMethod o name) :
    (h.addClass cls).2.Proper o where
  closures := hproper.closures
  methods d hd := by
    rcases Array.mem_push.mp hd with hd | rfl
    · exact hproper.methods d hd
    · exact hcls
  natives := hproper.natives

theorem Proper.of_method? (hproper : h.Proper o) {place : Nat} {name : String} {c : Closure}
    (hc : h.method? place name = some c) : c.IsMethod o name := by
  obtain ⟨cls, hcls, hmethod⟩ := Option.bind_eq_some_iff.mp hc
  obtain ⟨inst, -, hplace⟩ := Option.bind_eq_some_iff.mp hcls
  exact hproper.methods cls (Array.mem_of_getElem? hplace) name c hmethod

theorem Proper.addInstance (hproper : h.Proper o) (cls : Nat) :
    (h.addInstance cls).2.Proper o :=
  ⟨hproper.closures, hproper.methods, hproper.natives⟩

theorem keepsThis_bind (h : Heap) (c : Closure) (place : Nat) :
    h.frames.KeepsThis (h.bind c place).2.frames :=
  h.frames.keepsThis_push (some c.frame) (Table.set ∅ "this" (.inst place))

theorem Proper.bind (hproper : h.Proper o) (c : Closure) (place : Nat) :
    (h.bind c place).2.Proper o :=
  hproper.withFrames (h.keepsThis_bind c place)

theorem getHere?_bind (h : Heap) (c : Closure) (place : Nat) :
    (h.bind c place).2.frames.getHere? (h.bind c place).1.frame "this" = some (.inst place) := by
  simp [bind, addFrame, Frames.getHere?_push]

end Heap

def Callee.Proper (o : Origin) (h : Heap) : Callee → Prop
  | .native n => n ∈ o.natives
  | .function c => c.declaration.Proper o ∧ c.Bound h.frames
  | .cls _ k => ∀ name c, k.methods.get? name = some c → c.IsMethod o name

theorem Heap.Proper.of_callee? {o : Origin} {h : Heap} (hproper : h.Proper o) {value : Value}
    {callee : Callee} (hcallee : h.callee? value = some callee) : callee.Proper o h := by
  cases value <;> simp only [callee?, Option.map_eq_some_iff, reduceCtorEq] at hcallee
  case native =>
    obtain ⟨n, hn, rfl⟩ := hcallee
    have hmem := Array.mem_of_getElem? hn
    rwa [hproper.natives] at hmem
  case function =>
    obtain ⟨c, hc, rfl⟩ := hcallee
    exact hproper.closures c (Array.mem_of_getElem? hc)
  case cls =>
    obtain ⟨cls, hcls, rfl⟩ := hcallee
    exact hproper.methods cls (Array.mem_of_getElem? hcls)

theorem Callee.Proper.canTake_arity {o : Origin} {h : Heap} {callee : Callee}
    (hproper : callee.Proper o h) : Native.CanTake o.natives callee.arity := by
  cases callee with
  | native n => exact .inr ⟨n, hproper, rfl⟩
  | function c => exact .inl hproper.1.length_params_le
  | cls place k =>
    left
    change k.arity ≤ 255
    unfold Class.arity
    cases hinit : k.initializer? with
    | none => simp
    | some method => exact (hproper "init" method hinit).code.length_params_le

/-- What `this` is bound to is kept, and as many calls are running. -/
structure Machine.Retains (m m' : Machine) : Prop where
  frames : m.heap.frames.KeepsThis m'.heap.frames
  depth : m'.depth = m.depth

theorem Machine.Retains.refl (m : Machine) : m.Retains m := ⟨.refl _, rfl⟩

theorem Machine.Retains.trans {m m' m'' : Machine} (h : m.Retains m') (h' : m'.Retains m'') :
    m.Retains m'' :=
  ⟨h.frames.trans h'.frames, h'.depth.trans h.depth⟩

namespace Run

variable {o : Origin} {S : Prop} {m : Machine} {α β : Type}

/-- The run leaves the heap proper, keeps to what has to be kept, and ends in `Q` or by a fault that
can arise. -/
def Minds (o : Origin) (S : Prop) (m : Machine) (x : Run α) (Q : α → Machine → Prop) : Prop :=
  x.Ensures m (fun a m' => m'.heap.Proper o ∧ m.Retains m' ∧ Q a m')
    fun fault m' => m'.heap.Proper o ∧ m.Retains m' ∧ fault.Arises o S

section Rules

variable {Q Q' : α → Machine → Prop}

theorem Minds.bind {x : Run α} {f : α → Run β} {Q' : β → Machine → Prop} (hx : Minds o S m x Q)
    (hf : ∀ a m', m'.heap.Proper o → m.Retains m' → Q a m' → Minds o S m' (f a) Q') :
    Minds o S m (x >>= f) Q' := by
  unfold Minds
  rw [Action.ensures_bind]
  apply Action.Ensures.mono hx
  · rintro a m₁ ⟨hproper, hretain, hQ⟩
    apply Action.Ensures.mono (hf a m₁ hproper hretain hQ)
    · rintro b m₂ ⟨hproper', hretain', hQ'⟩
      exact ⟨hproper', hretain.trans hretain', hQ'⟩
    · rintro fault m₂ ⟨hproper', hretain', hfault⟩
      exact ⟨hproper', hretain.trans hretain', hfault⟩
  · intro fault m₁ h
    exact h

theorem minds_pure {a : α} (hm : m.heap.Proper o) (hQ : Q a m) : Minds o S m (pure a) Q :=
  ⟨hm, .refl m, hQ⟩

theorem minds_view (f : Machine → α) (hm : m.heap.Proper o) :
    Minds o S m (Action.view f) fun a m' => f m' = a := ⟨hm, .refl m, rfl⟩

theorem minds_fault {token : Token} {cause : RunCause} (hm : m.heap.Proper o)
    (htoken : o.IsToken token) (hcause : cause.Arises o.natives token) :
    Minds o S m (fault token cause) Q :=
  ⟨hm, .refl m, .operation htoken hcause⟩

theorem minds_ofExcept {x : Except RunFault α} (hm : m.heap.Proper o)
    (hx : ∀ fault, x = .error fault → fault.Arises o S) :
    Minds o S m (Action.ofExcept x) fun _ _ => True := by
  unfold Minds
  rw [Action.ensures_ofExcept]
  constructor
  · intro a _
    exact ⟨hm, .refl m, trivial⟩
  · intro fault hfault
    exact ⟨hm, .refl m, hx fault hfault⟩

theorem minds_onHeap {f : Heap → α × Heap} (hheap : (f m.heap).2.Proper o)
    (hkeep : m.heap.frames.KeepsThis (f m.heap).2.frames)
    (hQ : Q (f m.heap).1 { m with heap := (f m.heap).2 }) : Minds o S m (onHeap f) Q :=
  ⟨hheap, ⟨hkeep, rfl⟩, hQ⟩

theorem Minds.inFrame {x : Run α} {frame : Nat}
    (hx : Minds o S { m with current := frame } x Q) :
    Minds o S m (inFrame frame x) fun _ _ => True := by
  change (x.ensuring _).Ensures { m with current := frame } _ _
  rw [Action.ensures_ensuring]
  apply Action.Ensures.mono hx
  · rintro a m₁ ⟨hproper, hretain, -⟩
    exact ⟨hproper, ⟨hretain.frames, hretain.depth⟩, trivial⟩
  · rintro fault m₁ ⟨hproper, hretain, hfault⟩
    exact ⟨hproper, ⟨hretain.frames, hretain.depth⟩, hfault⟩

/-- The faults of a native function are blamed on the call, one call less deep. -/
theorem minds_blaming {x : Run α} {paren : Token} (hparen : o.IsToken paren)
    (hx : x.Ensures { m with depth := m.depth + 1 }
      (fun _ m' => m'.heap.Proper o ∧ Machine.Retains { m with depth := m.depth + 1 } m')
      fun fault m' => m'.heap.Proper o ∧ Machine.Retains { m with depth := m.depth + 1 } m' ∧
        (fault.Arises o S ∨ ∃ text, Native.CanFail o.natives text ∧ fault = .native text)) :
    Minds o S m (blaming paren (deeper x)) fun _ _ => True := by
  have hcounted : ∀ m', Machine.Retains { m with depth := m.depth + 1 } m' →
      m.Retains { m' with depth := m'.depth - 1 } := by
    intro m' h
    have hdepth : m'.depth = m.depth + 1 := h.depth
    exact ⟨h.frames, by simp [hdepth]⟩
  unfold Minds Action.Ensures blaming deeper Action.ensuring at *
  cases hrun : x { m with depth := m.depth + 1 } with
  | exhausted => trivial
  | done a m₁ =>
    rw [hrun] at hx
    exact ⟨hx.1, hcounted m₁ hx.2, trivial⟩
  | failed fault m₁ =>
    rw [hrun] at hx
    obtain ⟨hproper, hretain, hfault⟩ := hx
    refine ⟨hproper, hcounted m₁ hretain, ?_⟩
    rcases hfault with hfault | ⟨text, htext, rfl⟩
    · cases hfault with
      | operation htoken hcause => exact .operation htoken hcause
      | closed => exact .closed
      | flushFailed => exact .flushFailed
      | stopped hS => exact .stopped hS
    · exact .operation hparen (.native htext)

/-- Other faults are blamed on something already. -/
theorem Minds.blaming {x : Run α} {paren : Token} (hparen : o.IsToken paren)
    (hx : Minds o S { m with depth := m.depth + 1 } x Q) :
    Minds o S m (blaming paren (deeper x)) fun _ _ => True := by
  apply minds_blaming hparen
  apply Action.Ensures.mono hx
  · rintro a m₁ ⟨hproper, hretain, -⟩
    exact ⟨hproper, hretain⟩
  · rintro fault m₁ ⟨hproper, hretain, hfault⟩
    exact ⟨hproper, hretain, .inl hfault⟩

end Rules

section Steps

theorem minds_define (hm : m.heap.Proper o) {name : String} (hname : name ≠ "this")
    (value : Value) : Minds o S m (define name value) fun _ _ => True := by
  have hkeep := m.heap.frames.keepsThis_define m.current hname value
  exact ⟨hm.withFrames hkeep, ⟨hkeep, rfl⟩, trivial⟩

theorem minds_rebind (hm : m.heap.Proper o) {name : Token} (hname : name.IsName o.IsToken)
    (value : Value) (holder? : Machine → Option Nat) :
    Minds o S m (rebind name value holder?) fun _ _ => True := by
  apply Minds.bind (minds_view _ hm)
  intro frame? m₁ hm₁ _ _
  cases frame? with
  | some frame =>
    have hkeep := m₁.heap.frames.keepsThis_define frame hname.lexeme_ne value
    exact ⟨hm₁.withFrames hkeep, ⟨hkeep, rfl⟩, trivial⟩
  | none => exact minds_fault hm₁ hname.2 .undefinedVariable

theorem minds_readName (hm : m.heap.Proper o) {name : Token} (hname : o.IsToken name) (id : Nat) :
    Minds o S m (readName id name) fun _ _ => True := by
  apply Minds.bind (minds_view _ hm)
  intro found m₁ hm₁ _ _
  cases found with
  | some value => exact minds_pure hm₁ trivial
  | none => exact minds_fault hm₁ hname .undefinedVariable

theorem minds_bind (hm : m.heap.Proper o) (c : Closure) (place : Nat) :
    Minds o S m (onHeap (·.bind c place)) fun bound m' =>
      bound.declaration = c.declaration ∧
        m'.heap.frames.getHere? bound.frame "this" = some (.inst place) :=
  minds_onHeap (hm.bind c place) (m.heap.keepsThis_bind c place)
    ⟨rfl, m.heap.getHere?_bind c place⟩

theorem minds_readProperty (hm : m.heap.Proper o) {name : Token} (hname : o.IsToken name)
    (place : Nat) : Minds o S m (readProperty place name) fun _ _ => True := by
  apply Minds.bind (minds_view _ hm)
  intro field? m₁ hm₁ _ _
  cases field? with
  | some value => exact minds_pure hm₁ trivial
  | none =>
    apply Minds.bind (minds_view _ hm₁)
    intro method? m₂ hm₂ _ hfound
    cases method? with
    | none => exact minds_fault hm₂ hname .undefinedProperty
    | some method =>
      apply Minds.bind (minds_bind hm₂ method place)
      rintro bound m₃ hm₃ _ ⟨hcode, hthis⟩
      have hproper := hcode ▸ (hm₂.of_method? hfound).code
      exact minds_onHeap (hm₃.addClosure hproper fun _ => ⟨place, hthis⟩) (.refl _) trivial

theorem minds_writeField (hm : m.heap.Proper o) (place : Nat) (name : String) (value : Value) :
    Minds o S m (writeField place name value) fun _ _ => True :=
  ⟨⟨hm.closures, hm.methods, hm.natives⟩, ⟨.refl _, rfl⟩, trivial⟩

theorem minds_write (hm : m.heap.Proper o) (piece : String) :
    Minds o S m (write piece) fun _ _ => True := by
  unfold Minds Action.Ensures write Sink.write
  split_ifs
  · exact ⟨hm, ⟨.refl _, rfl⟩, trivial⟩
  · exact ⟨hm, .refl m, .closed⟩
  · exact ⟨hm, ⟨.refl _, rfl⟩, trivial⟩

theorem minds_print (hm : m.heap.Proper o) (value : Value) :
    Minds o S m (print value) fun _ _ => True := by
  apply Minds.bind (minds_view _ hm)
  intro text m₁ hm₁ _ _
  apply Minds.bind (minds_write hm₁ text)
  intro _ m₂ hm₂ _ _
  exact minds_write hm₂ "\n"

theorem minds_flush (hm : m.heap.Proper o) : Minds o S m flush fun _ _ => True := by
  unfold Minds Action.Ensures flush Sink.flush
  cases m.sink.flushFails
  · exact ⟨hm, .refl m, trivial⟩
  · exact ⟨hm, .refl m, .flushFailed⟩

end Steps

/-! ### Points of a run -/

def Point.Proper (o : Origin) : Point → Prop
  | .expression expr => expr.Proper o
  | .statement stmt => stmt.Proper o

/-- Where a run of code of this origin can be: amid so many calls as the machine counts, and not too
many. -/
structure Situated (o : Origin) (running : List Expr) (point : Point) (m : Machine) : Prop where
  heap : m.heap.Proper o
  code : point.Proper o
  depth : m.depth = running.length
  depth_le : m.depth ≤ maxDepth
  calls : ∀ expr ∈ running, expr.isCall = true

def Halts (o : Origin) (stop : Stops) : Prop :=
  ∃ running point n, Situated o running point n ∧ stop running point n

/-- However the run ends, what `this` was bound to in these frames is kept. -/
def Kept (fs : Frames) : Outcome Machine RunFault α → Prop
  | .done _ m => fs.KeepsThis m.heap.frames
  | .failed _ m => fs.KeepsThis m.heap.frames
  | .exhausted => True

/-- The run minds, whatever points there are to stop at. With fewer points to stop at it goes on
from where it was stopped, and keeps what `this` was bound to there. -/
structure Conducts (o : Origin) (m : Machine) (X : Stops → Run α) (Q : α → Machine → Prop) :
    Prop where
  minds : ∀ stop, Minds o (Halts o stop) m (X stop) Q
  same : Resumes fun stop => X stop m
  later : ∀ {stop stop' : Stops} {n}, stop'.Within stop → X stop m = .failed .stopped n →
    Kept n.heap.frames (X stop' m)

section Rules

variable {Q Q' : α → Machine → Prop} {fs : Frames}

theorem Minds.mono {S' : Prop} {x : Run α} (h : Minds o S m x Q) (hS : S → S')
    (hQ : ∀ a m', Q a m' → Q' a m') : Minds o S' m x Q' :=
  Action.Ensures.mono h (fun a m' h => ⟨h.1, h.2.1, hQ a m' h.2.2⟩)
    fun _ _ h => ⟨h.1, h.2.1, h.2.2.mono hS⟩

theorem Minds.kept {x : Run α} (h : Minds o S m x Q) (hfs : fs.KeepsThis m.heap.frames) :
    Kept fs (x m) := by
  cases hrun : x m with
  | done a m' => exact hfs.trans (h.of_done hrun).2.1.frames
  | failed fault m' => exact hfs.trans (h.of_failed hrun).2.1.frames
  | exhausted => trivial

theorem Kept.leave {f : Outcome Machine RunFault α → Outcome Machine RunFault α} (hf : Leaves f)
    {outcome : Outcome Machine RunFault α} (h : Kept fs outcome) : Kept fs (f outcome) := by
  cases outcome with
  | done a m =>
    obtain ⟨current, depth, heq⟩ := hf.done a m
    rw [heq]
    exact h
  | failed fault m =>
    obtain ⟨fault', current, depth, heq, -⟩ := hf.failed fault m
    rw [heq]
    exact h
  | exhausted =>
    rw [hf.exhausted]
    trivial

theorem Minds.conducts {x : Run α} (h : Minds o False m x Q) : Conducts o m (fun _ => x) Q where
  minds stop := h.mono False.elim fun _ _ h => h
  same := resumes_const _
  later _ hstopped := by cases (h.of_failed hstopped).2.2 with | stopped h => exact h.elim

theorem Conducts.bind {X : Stops → Run α} {F : α → Stops → Run β} {Q' : β → Machine → Prop}
    (hX : Conducts o m X Q) (hF : ∀ a m', m'.heap.Proper o → m.Retains m' → Q a m' →
      Conducts o m' (F a) Q') : Conducts o m (fun stop => X stop >>= fun a => F a stop) Q' where
  minds stop := (hX.minds stop).bind fun a m' hm' hretain hQ => (hF a m' hm' hretain hQ).minds stop
  same stop stop' hstop := by
    rcases hX.same stop stop' hstop with heq | hstopped
    · simp only at heq
      simp only [Action.bind_apply, heq]
      cases hrun : X stop m with
      | done a m₁ =>
        obtain ⟨hm₁, hretain, hQ⟩ := (hX.minds stop).of_done hrun
        exact (hF a m₁ hm₁ hretain hQ).same stop stop' hstop
      | failed fault m₁ => exact .inl rfl
      | exhausted => exact .inl rfl
    · exact .inr (hstopped.bind _)
  later {stop stop' n} hstop hstopped := by
    rw [Action.bind_apply]
    rcases Action.bind_eq_failed_iff.mp hstopped with hfirst | ⟨a, m₁, hdone, hsecond⟩
    · have hkept := hX.later hstop hfirst
      cases hrun : X stop' m with
      | done a m₁ =>
        rw [hrun] at hkept
        obtain ⟨hm₁, hretain, hQ⟩ := (hX.minds stop').of_done hrun
        exact ((hF a m₁ hm₁ hretain hQ).minds stop').kept hkept
      | failed fault m₁ =>
        rw [hrun] at hkept
        exact hkept
      | exhausted => trivial
    · -- the first part was not stopped, so it comes to the same with fewer points
      have hsame : X stop' m = .done a m₁ := by
        rcases hX.same stop stop' hstop with heq | ⟨m', hfirst⟩
        · exact heq.trans hdone
        · cases hdone.symm.trans hfirst
      obtain ⟨hm₁, hretain, hQ⟩ := (hX.minds stop').of_done hsame
      simp only [hsame]
      exact (hF a m₁ hm₁ hretain hQ).later hstop hsecond

theorem conducts_exhausted : Conducts o m (fun _ => (Action.exhausted : Run α)) Q where
  minds _ := trivial
  same := resumes_const _
  later _ h := by cases h

theorem conducts_pure {a : α} (hm : m.heap.Proper o) (hQ : Q a m) :
    Conducts o m (fun _ => (pure a : Run α)) Q := (minds_pure hm hQ).conducts

theorem conducts_view (f : Machine → α) (hm : m.heap.Proper o) :
    Conducts o m (fun _ => Action.view f) fun a m' => f m' = a := (minds_view f hm).conducts

theorem conducts_fault {token : Token} {cause : RunCause} (hm : m.heap.Proper o)
    (htoken : o.IsToken token) (hcause : cause.Arises o.natives token) :
    Conducts o m (fun _ => (fault token cause : Run α)) Q :=
  (minds_fault hm htoken hcause).conducts

theorem Conducts.leave {X : Stops → Run α} {m₀ : Machine} (hX : Conducts o m₀ X Q)
    {f : Outcome Machine RunFault α → Outcome Machine RunFault α} (hf : Leaves f)
    {Y : Stops → Run α} (hY : ∀ stop, Y stop m = f (X stop m₀))
    (hminds : ∀ stop, Minds o (Halts o stop) m (Y stop) Q') : Conducts o m Y Q' where
  minds := hminds
  same := by
    simp only [hY]
    exact hX.same.leave hf
  later {stop stop' n} hstop hstopped := by
    rw [hY] at hstopped ⊢
    obtain ⟨m₁, current, depth, hrun, rfl⟩ := hf.of_output hstopped
    have hkept : Kept m₁.heap.frames (X stop' m₀) := hX.later hstop hrun
    exact hkept.leave hf

theorem Conducts.inFrame {X : Stops → Run α} {frame : Nat}
    (hX : Conducts o { m with current := frame } X Q) :
    Conducts o m (fun stop => Run.inFrame frame (X stop)) fun _ _ => True :=
  hX.leave (leaves_ensuring (fun m' => ⟨m.current, m'.depth, rfl⟩) m) (fun _ => rfl)
    fun stop => (hX.minds stop).inFrame

theorem Conducts.blaming {X : Stops → Run α} {paren : Token} (hparen : o.IsToken paren)
    (hX : Conducts o { m with depth := m.depth + 1 } X Q) :
    Conducts o m (fun stop => Run.blaming paren (deeper (X stop))) fun _ _ => True := by
  have hdeeper : Leaves fun outcome : Outcome Machine RunFault α =>
      Action.ensuring (fun _ => outcome) (fun m' => { m' with depth := m'.depth - 1 }) m :=
    leaves_ensuring (fun m' => ⟨m'.current, m'.depth - 1, rfl⟩) m
  exact hX.leave (hdeeper.comp (leaves_blaming paren m)) (fun _ => rfl)
    fun stop => (hX.minds stop).blaming hparen

theorem minds_pause {stop : Stops} {running : List Expr} {point : Point}
    (hm : Situated o running point m) (hstop : stop running point m → S) :
    Minds o S m (pause (stop running point)) fun _ _ => True := by
  unfold Minds
  rw [ensures_pause]
  constructor
  · intro h
    exact ⟨hm.heap, .refl m, .stopped (hstop h)⟩
  · intro _
    exact ⟨hm.heap, .refl m, trivial⟩

theorem conducts_pause {running : List Expr} {point : Point} (hm : Situated o running point m) :
    Conducts o m (fun stop => pause (stop running point)) fun _ _ => True where
  minds stop := minds_pause hm fun h => ⟨running, point, m, hm, h⟩
  same := resumes_pause running point m
  later {stop stop' n} hstop hstopped := by
    by_cases h : stop running point m
    · have hhere : pause (stop running point) m = .failed .stopped m := if_pos h
      cases hhere.symm.trans hstopped
      have hstay : Minds o (Halts o stop') m (pause (stop' running point)) fun _ _ => True :=
        minds_pause hm fun h' => ⟨running, point, m, hm, h'⟩
      exact hstay.kept (.refl _)
    · cases (pause_of_not h).symm.trans hstopped

end Rules

/-! ### Evaluation and execution -/

def ConductsExpr (o : Origin) (depth : Nat) (eval : Stops → Expr → Run Value) : Prop :=
  ∀ ⦃expr m⦄, m.heap.Proper o → m.depth = depth → expr.Proper o →
    Conducts o m (fun stop => eval stop expr) fun _ _ => True

def ConductsStmt (o : Origin) (depth : Nat) (exec : Stops → Stmt → Run Flow) : Prop :=
  ∀ ⦃stmt m⦄, m.heap.Proper o → m.depth = depth → stmt.Proper o →
    Conducts o m (fun stop => exec stop stmt) fun _ _ => True

section Evaluation

variable {eval : Stops → Expr → Run Value} {exec : Stops → Stmt → Run Flow} {depth : Nat}

theorem ConductsExpr.collect (h : ConductsExpr o depth eval) {exprs : List Expr}
    (hm : m.heap.Proper o) (hdepth : m.depth = depth) (hexprs : Expr.ProperAll o exprs) :
    Conducts o m (fun stop => collect (eval stop) exprs) fun values _ =>
      values.length = exprs.length := by
  induction exprs generalizing m with
  | nil => exact conducts_pure hm rfl
  | cons expr exprs ih =>
    apply Conducts.bind (h hm hdepth ⟨hexprs.1.1, hexprs.2.1⟩)
    intro value m₁ hm₁ hretain₁ _
    apply Conducts.bind (ih hm₁ (hretain₁.depth.trans hdepth) ⟨hexprs.1.2, hexprs.2.2⟩)
    intro values m₂ hm₂ _ hlength
    exact conducts_pure hm₂ (by simp [hlength])

theorem ConductsExpr.evalOption (h : ConductsExpr o depth eval) {expr : Option Expr}
    (hm : m.heap.Proper o) (hdepth : m.depth = depth) (hexpr : Expr.ProperOption o expr) :
    Conducts o m (fun stop => evalOption (eval stop) expr) fun _ _ => True := by
  cases expr with
  | none => exact conducts_pure hm trivial
  | some expr => exact h hm hdepth hexpr

theorem ConductsStmt.sequence (h : ConductsStmt o depth exec) {stmts : List Stmt}
    (hm : m.heap.Proper o) (hdepth : m.depth = depth) (hstmts : Stmt.ProperAll o stmts) :
    Conducts o m (fun stop => sequence (exec stop) stmts) fun _ _ => True := by
  induction stmts generalizing m with
  | nil => exact conducts_pure hm trivial
  | cons stmt stmts ih =>
    apply Conducts.bind (h hm hdepth ⟨hstmts.1.1, hstmts.2.1⟩)
    intro flow m₁ hm₁ hretain₁ _
    cases flow with
    | normal => exact ih hm₁ (hretain₁.depth.trans hdepth) ⟨hstmts.1.2, hstmts.2.2⟩
    | returned value => exact conducts_pure hm₁ trivial

/-- A call of an initializer results in the instance that `this` was bound to before. -/
theorem ConductsStmt.callClosure (h : ConductsStmt o depth exec) {c : Closure}
    (hm : m.heap.Proper o) (hdepth : m.depth = depth) (hc : c.declaration.Proper o)
    (arguments : List Value) :
    Conducts o m (fun stop => callClosure (exec stop) c arguments) fun result _ =>
      c.isInitializer = true →
      ∀ place, m.heap.frames.getHere? c.frame "this" = some (.inst place) →
        result = .inst place := by
  have hkeep := m.heap.frames.keepsThis_push (some c.frame)
    (bindAll c.declaration.params arguments ∅)
  have hpush : Minds o False m (onHeap (·.addFrame (some c.frame)
      (bindAll c.declaration.params arguments ∅))) fun _ _ => True :=
    minds_onHeap (hm.withFrames hkeep) hkeep trivial
  apply hpush.conducts.bind
  intro frame m₁ hm₁ hretain₁ _
  have hbody := h.sequence (m := { m₁ with current := frame }) hm₁
    (hretain₁.depth.trans hdepth) hc.body
  apply Conducts.bind hbody.inFrame
  intro flow m₂ hm₂ hretain₂ _
  split
  · refine Minds.conducts ⟨hm₂, .refl m₂, fun _ place hplace => ?_⟩
    change (m₂.heap.frames.getHere? c.frame "this").getD .nil = .inst place
    rw [(hretain₁.trans hretain₂).frames.getHere? hplace]
    rfl
  · next hinit =>
    cases flow <;> exact conducts_pure hm₂ fun htrue => absurd htrue hinit

theorem ConductsStmt.construct (h : ConductsStmt o depth exec) {cls : Class}
    (hm : m.heap.Proper o) (hdepth : m.depth = depth)
    (hcls : ∀ name c, cls.methods.get? name = some c → c.IsMethod o name) (place : Nat)
    (arguments : List Value) :
    Conducts o m (fun stop => construct (exec stop) place cls arguments) fun _ _ => True := by
  have hnew : Minds o False m (onHeap (·.addInstance place)) fun _ _ => True :=
    minds_onHeap (hm.addInstance place) (.refl _) trivial
  apply hnew.conducts.bind
  intro new m₁ hm₁ hretain₁ _
  cases hinit : cls.initializer? with
  | none => exact conducts_pure hm₁ trivial
  | some method =>
    apply Conducts.bind (minds_bind hm₁ method new).conducts
    rintro bound m₂ hm₂ hretain₂ ⟨hcode, -⟩
    have hproper := hcode ▸ (hcls "init" method hinit).code
    have hdepth₂ := (hretain₁.trans hretain₂).depth.trans hdepth
    apply Conducts.bind (h.callClosure hm₂ hdepth₂ hproper arguments)
    intro _ m₃ hm₃ _ _
    exact conducts_pure hm₃ trivial

/-- A native function runs no code. -/
theorem conducts_native (hm : m.heap.Proper o) {n : Native} (hn : n ∈ o.natives) {paren : Token}
    (hparen : o.IsToken paren) (arguments : List Value) :
    Conducts o m (fun _ => Run.blaming paren (deeper (callNative n arguments)))
      fun _ _ => True := by
  refine Minds.conducts (minds_blaming hparen ?_)
  unfold Action.Ensures callNative
  dsimp only
  cases hrun : n.run _ with
  | ok result => exact ⟨hm, ⟨.refl _, rfl⟩⟩
  | error text => exact ⟨hm, ⟨.refl _, rfl⟩, .inr ⟨text, ⟨n, hn, _, hrun⟩, rfl⟩⟩

/-- The body of a callee runs one call deeper, never beyond the deepest nesting of calls. -/
theorem conducts_invoke (hm : m.heap.Proper o) (hdepth : m.depth = depth)
    (h : depth < maxDepth → ConductsStmt o (depth + 1) exec) {paren : Token}
    (hparen : o.IsToken paren) {arguments : List Value} (hlength : arguments.length ≤ 255)
    (value : Value) :
    Conducts o m (fun stop => invoke (exec stop) value paren arguments) fun _ _ => True := by
  apply Conducts.bind (conducts_view Machine.depth hm)
  rintro _ m₁ hm₁ hretain₁ rfl
  apply Conducts.bind (conducts_view _ hm₁)
  intro callee? m₂ hm₂ hretain₂ hcallee
  cases callee? with
  | none => exact conducts_fault hm₂ hparen .notCallable
  | some callee =>
    have hproper := hm₂.of_callee? hcallee
    have hsame : m₂.depth = m₁.depth := hretain₂.depth
    dsimp only
    split_ifs with harity hdeep
    · exact conducts_fault hm₂ hparen (.wrongArity (Ne.symm harity) hproper.canTake_arity hlength)
    · exact conducts_fault hm₂ hparen .stackOverflow
    · have hrunning : m₁.depth = depth := hretain₁.depth.trans hdepth
      have hexec := h (hrunning ▸ Nat.lt_of_not_le hdeep)
      have hdepth' : m₂.depth + 1 = depth + 1 := by rw [hsame, hrunning]
      cases callee with
      | native n => exact conducts_native hm₂ hproper hparen arguments
      | function c =>
        have hbody := hexec.callClosure (m := { m₂ with depth := m₂.depth + 1 }) hm₂ hdepth'
          hproper.1 arguments
        exact hbody.blaming hparen
      | cls place cls =>
        have hbody := hexec.construct (m := { m₂ with depth := m₂.depth + 1 }) hm₂ hdepth' hproper
          place arguments
        exact hbody.blaming hparen

/-- One step of evaluation, one case for each kind of expression. Only a call executes anything. -/
theorem ConductsExpr.evalWith (heval : ConductsExpr o depth eval) {expr : Expr}
    (hexec : expr.isCall = true → depth < maxDepth → ConductsStmt o (depth + 1) exec)
    (hm : m.heap.Proper o) (hdepth : m.depth = depth) (hexpr : expr.Proper o) :
    Conducts o m (fun stop => evalWith (eval stop) (exec stop) expr) fun _ _ => True := by
  obtain ⟨hformed, hcanonical⟩ := hexpr
  cases expr with
  | literal id value => exact conducts_pure hm trivial
  | grouping id inner => exact heval hm hdepth ⟨hformed, hcanonical⟩
  | unary id operator right =>
    obtain ⟨hkind, -, hright⟩ := hcanonical
    apply Conducts.bind (heval hm hdepth ⟨hformed.2, hright⟩)
    intro value m₁ hm₁ _ _
    exact (minds_ofExcept hm₁ fun _ => Value.unary_arises hformed.1 hkind).conducts
  | binary id left operator right =>
    obtain ⟨hfit, hleft, hright⟩ := hcanonical
    apply Conducts.bind (heval hm hdepth ⟨hformed.1, hleft⟩)
    intro a m₁ hm₁ hretain₁ _
    apply Conducts.bind (heval hm₁ (hretain₁.depth.trans hdepth) ⟨hformed.2.2, hright⟩)
    intro b m₂ hm₂ _ _
    exact (minds_ofExcept hm₂ fun _ => Value.binary_arises hformed.2.1 hfit).conducts
  | logical id left operator right =>
    obtain ⟨-, hleft, hright⟩ := hcanonical
    apply Conducts.bind (heval hm hdepth ⟨hformed.1, hleft⟩)
    intro a m₁ hm₁ hretain₁ _
    split_ifs
    · exact conducts_pure hm₁ trivial
    · exact heval hm₁ (hretain₁.depth.trans hdepth) ⟨hformed.2.2, hright⟩
  | var id name => exact (minds_readName hm hformed.2 id).conducts
  | this id keyword => exact (minds_readName hm hformed.2 id).conducts
  | assign id name value =>
    apply Conducts.bind (heval hm hdepth ⟨hformed.2, hcanonical.2⟩)
    intro a m₁ hm₁ _ _
    apply Conducts.bind (minds_rebind hm₁ hformed.1 a _).conducts
    intro _ m₂ hm₂ _ _
    exact conducts_pure hm₂ trivial
  | call id callee paren arguments =>
    obtain ⟨-, hcallee, -, hlength, harguments⟩ := hcanonical
    apply Conducts.bind (heval hm hdepth ⟨hformed.1, hcallee⟩)
    intro value m₁ hm₁ hretain₁ _
    have hdepth₁ := hretain₁.depth.trans hdepth
    apply Conducts.bind (heval.collect hm₁ hdepth₁ ⟨hformed.2.2, harguments⟩)
    intro values m₂ hm₂ hretain₂ hvalues
    exact conducts_invoke hm₂ (hretain₂.depth.trans hdepth₁) (hexec rfl) hformed.2.1
      (hvalues ▸ hlength) value
  | get id object name =>
    apply Conducts.bind (heval hm hdepth ⟨hformed.1, hcanonical.2.1⟩)
    intro a m₁ hm₁ _ _
    split
    · exact (minds_readProperty hm₁ hformed.2.2 _).conducts
    · exact conducts_fault hm₁ hformed.2.2 .propertyOfNonInstance
  | set id object name value =>
    apply Conducts.bind (heval hm hdepth ⟨hformed.1, hcanonical.2.1⟩)
    intro a m₁ hm₁ hretain₁ _
    split
    · apply Conducts.bind
        (heval hm₁ (hretain₁.depth.trans hdepth) ⟨hformed.2.2, hcanonical.2.2.2⟩)
      intro b m₂ hm₂ _ _
      apply Conducts.bind (minds_writeField hm₂ _ _ b).conducts
      intro _ m₃ hm₃ _ _
      exact conducts_pure hm₃ trivial
    · exact conducts_fault hm₁ hformed.2.1.2 .fieldOfNonInstance

theorem minds_declareFunction (hm : m.heap.Proper o) {declaration : FunctionDecl}
    (hdeclaration : declaration.Proper o) :
    Minds o S m (declareFunction declaration) fun _ _ => True := by
  apply Minds.bind (minds_view _ hm)
  intro frame m₁ hm₁ _ _
  have hadd : Minds o S m₁ (onHeap (·.addClosure ⟨declaration, frame, false⟩)) fun _ _ => True :=
    minds_onHeap (hm₁.addClosure hdeclaration nofun) (.refl _) trivial
  apply hadd.bind
  intro value m₂ hm₂ _ _
  exact minds_define hm₂ hdeclaration.isName.lexeme_ne value

theorem minds_declareClass (hm : m.heap.Proper o) {name : Token} (hname : name.IsName o.IsToken)
    {methods : List FunctionDecl} (hmethods : ∀ method ∈ methods, method.Proper o) :
    Minds o S m (declareClass name methods) fun _ _ => True := by
  apply Minds.bind (minds_define hm hname.lexeme_ne .nil)
  intro _ m₁ hm₁ _ _
  apply Minds.bind (minds_view _ hm₁)
  intro frame m₂ hm₂ _ _
  have hcls : ∀ other c, (methodTable frame methods ∅).get? other = some c →
      c.IsMethod o other := by
    intro other c hc
    rcases exists_of_methodTable hc with hnone | ⟨method, hmethod, rfl, -, hinit⟩
    · simp at hnone
    · exact ⟨hmethods _ hmethod, hinit⟩
  have hadd : Minds o S m₂ (onHeap (·.addClass ⟨name.lexeme, methodTable frame methods ∅⟩))
      fun _ _ => True :=
    minds_onHeap (hm₂.addClass hcls) (.refl _) trivial
  apply hadd.bind
  intro value m₃ hm₃ _ _
  exact minds_rebind hm₃ hname value _

/-- One step of execution, one case for each kind of statement. -/
theorem ConductsStmt.execWith (hexec : ConductsStmt o depth exec)
    (heval : ConductsExpr o depth eval) {stmt : Stmt} (hm : m.heap.Proper o)
    (hdepth : m.depth = depth) (hstmt : stmt.Proper o) :
    Conducts o m (fun stop => execWith (eval stop) (exec stop) stmt) fun _ _ => True := by
  obtain ⟨hformed, hcanonical⟩ := hstmt
  cases stmt with
  | expression expr =>
    apply Conducts.bind (heval hm hdepth ⟨hformed, hcanonical⟩)
    intro _ m₁ hm₁ _ _
    exact conducts_pure hm₁ trivial
  | print expr =>
    apply Conducts.bind (heval hm hdepth ⟨hformed, hcanonical⟩)
    intro value m₁ hm₁ _ _
    apply Conducts.bind (minds_print hm₁ value).conducts
    intro _ m₂ hm₂ _ _
    exact conducts_pure hm₂ trivial
  | varDecl name initializer =>
    apply Conducts.bind (heval.evalOption hm hdepth ⟨hformed.2, hcanonical.2⟩)
    intro value m₁ hm₁ _ _
    apply Conducts.bind (minds_define hm₁ hformed.1.lexeme_ne value).conducts
    intro _ m₂ hm₂ _ _
    exact conducts_pure hm₂ trivial
  | block body =>
    have hkeep := m.heap.frames.keepsThis_push (some m.current) ∅
    have hpush : Minds o False m (Action.update fun m =>
        ((m.heap.addFrame (some m.current) ∅).1,
          { m with heap := (m.heap.addFrame (some m.current) ∅).2 })) fun _ _ => True :=
      ⟨hm.withFrames hkeep, ⟨hkeep, rfl⟩, trivial⟩
    apply hpush.conducts.bind
    intro frame m₁ hm₁ hretain₁ _
    have hbody := hexec.sequence (m := { m₁ with current := frame }) hm₁
      (hretain₁.depth.trans hdepth) ⟨hformed, hcanonical⟩
    exact hbody.inFrame
  | ifThen condition thenBranch =>
    apply Conducts.bind (heval hm hdepth ⟨hformed.1, hcanonical.1⟩)
    intro value m₁ hm₁ hretain₁ _
    split_ifs
    · exact hexec hm₁ (hretain₁.depth.trans hdepth) ⟨hformed.2.2, hcanonical.2.2⟩
    · exact conducts_pure hm₁ trivial
  | ifElse condition thenBranch elseBranch =>
    apply Conducts.bind (heval hm hdepth ⟨hformed.1, hcanonical.1⟩)
    intro value m₁ hm₁ hretain₁ _
    have hdepth₁ := hretain₁.depth.trans hdepth
    split_ifs
    · exact hexec hm₁ hdepth₁ ⟨hformed.2.1.2, hcanonical.2.1.2.2⟩
    · exact hexec hm₁ hdepth₁ ⟨hformed.2.2.2, hcanonical.2.2.2⟩
  | whileLoop condition body =>
    apply Conducts.bind (heval hm hdepth ⟨hformed.1, hcanonical.1⟩)
    intro value m₁ hm₁ hretain₁ _
    have hdepth₁ := hretain₁.depth.trans hdepth
    split_ifs
    · apply Conducts.bind (hexec hm₁ hdepth₁ ⟨hformed.2.2, hcanonical.2.2⟩)
      intro flow m₂ hm₂ hretain₂ _
      cases flow with
      | normal => exact hexec hm₂ (hretain₂.depth.trans hdepth₁) ⟨hformed, hcanonical⟩
      | returned value => exact conducts_pure hm₂ trivial
    · exact conducts_pure hm₁ trivial
  | funDecl declaration =>
    apply Conducts.bind (minds_declareFunction hm ⟨hformed, hcanonical⟩).conducts
    intro _ m₁ hm₁ _ _
    exact conducts_pure hm₁ trivial
  | returnStmt keyword value =>
    apply Conducts.bind (heval.evalOption hm hdepth ⟨hformed.2, hcanonical.2⟩)
    intro result m₁ hm₁ _ _
    exact conducts_pure hm₁ trivial
  | classDecl name methods =>
    have hmethods := FunctionDecl.proper_of_mem hformed.2 hcanonical.2
    apply Conducts.bind (minds_declareClass hm hformed.1 hmethods).conducts
    intro _ m₁ hm₁ _ _
    exact conducts_pure hm₁ trivial

end Evaluation

/-- Whole runs, by induction over the fuel: a call is one more that is running while its callee
runs, and the machine counts one more. -/
theorem conducts_evalAmid_execAmid (o : Origin) (fuel : Nat) :
    (∀ running, (∀ expr ∈ running, expr.isCall = true) → running.length ≤ maxDepth →
      ConductsExpr o running.length fun stop => evalAmid stop fuel running) ∧
    ∀ running, (∀ expr ∈ running, expr.isCall = true) → running.length ≤ maxDepth →
      ConductsStmt o running.length fun stop => execAmid stop fuel running := by
  induction fuel with
  | zero =>
    constructor
    · intro running _ _ expr m _ _ _
      simp only [evalAmid]
      exact conducts_exhausted
    · intro running _ _ stmt m _ _ _
      simp only [execAmid]
      exact conducts_exhausted
  | succ fuel ih =>
    obtain ⟨iheval, ihexec⟩ := ih
    constructor
    · intro running hcalls hlength expr m hm hdepth hexpr
      simp only [evalAmid]
      have hpoint : Situated o running (.expression expr) m :=
        ⟨hm, hexpr, hdepth, hdepth ▸ hlength, hcalls⟩
      apply Conducts.bind (conducts_pause hpoint)
      intro _ m₁ hm₁ hretain₁ _
      apply (iheval running hcalls hlength).evalWith _ hm₁ (hretain₁.depth.trans hdepth) hexpr
      intro hcall hless
      exact ihexec (expr :: running) (List.forall_mem_cons.mpr ⟨hcall, hcalls⟩) hless
    · intro running hcalls hlength stmt m hm hdepth hstmt
      simp only [execAmid]
      have hpoint : Situated o running (.statement stmt) m :=
        ⟨hm, hstmt, hdepth, hdepth ▸ hlength, hcalls⟩
      apply Conducts.bind (conducts_pause hpoint)
      intro _ m₁ hm₁ hretain₁ _
      exact (ihexec running hcalls hlength).execWith (iheval running hcalls hlength) hm₁
        (hretain₁.depth.trans hdepth) hstmt

theorem ConductsStmt.programWith {exec : Stops → Stmt → Run Flow} {depth : Nat}
    (h : ConductsStmt o depth exec) {stmts : List Stmt} (hm : m.heap.Proper o)
    (hdepth : m.depth = depth) (hstmts : Stmt.ProperAll o stmts) :
    Conducts o m (fun stop => programWith (exec stop) stmts) fun _ _ => True := by
  induction stmts generalizing m with
  | nil => exact (minds_flush hm).conducts
  | cons stmt stmts ih =>
    apply Conducts.bind (h hm hdepth ⟨hstmts.1.1, hstmts.2.1⟩)
    intro _ m₁ hm₁ hretain₁ _
    exact ih hm₁ (hretain₁.depth.trans hdepth) ⟨hstmts.1.2, hstmts.2.2⟩

section Programs

variable {stmts : List Stmt} (hm : m.heap.Proper o) (hdepth : m.depth = 0)
  (hstmts : Stmt.ProperAll o stmts)

include hm hdepth hstmts

theorem conducts_program (fuel : Nat) :
    Conducts o m (fun stop => programWith (execAmid stop fuel []) stmts) fun _ _ => True := by
  have hexec : ConductsStmt o 0 fun stop => execAmid stop fuel [] :=
    (conducts_evalAmid_execAmid o fuel).2 [] nofun (Nat.zero_le _)
  exact hexec.programWith hm hdepth hstmts

/-- A program of code that was read ends without a fault, or by one that can arise. -/
theorem minds_program (fuel : Nat) : Minds o False m (program fuel stmts) fun _ _ => True := by
  have hminds := (conducts_program hm hdepth hstmts fuel).minds never
  rw [(evalAmid_execAmid_never fuel []).2] at hminds
  exact hminds.mono (fun ⟨_, _, _, _, hstop⟩ => hstop) fun _ _ h => h

/-- Where such a program is stopped, it is amid as many calls as the machine counts. -/
theorem ReachesAmid.situated {fuel : Nat} {running : List Expr} {point : Point} {m' : Machine}
    (h : ReachesAmid fuel stmts m running point m') : Situated o running point m' := by
  obtain ⟨m'', hrun⟩ := h
  have hconducts := conducts_program hm hdepth hstmts fuel
  cases (Action.Ensures.of_failed (hconducts.minds _) hrun).2.2 with
  | stopped hpoint =>
    obtain ⟨_, _, _, hpoint, rfl, rfl, rfl⟩ := hpoint
    exact hpoint

end Programs

end Run
end LoxLang
