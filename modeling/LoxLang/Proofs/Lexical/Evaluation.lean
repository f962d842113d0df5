import LoxLang.Proofs.Lexical.Agreement
import LoxLang.Proofs.Lexical.Initializers

/-!
# Programs agree in both meanings

One step of evaluation agrees when the evaluation of the parts does, one case for each kind of
expression and of statement; so everything agrees, by induction over the fuel. What is needed of a
program is what the walk over it has found: no fault, and no assignment to a name that waits for its
own initializer. There the meanings differ, since the walk has the name in scope already.

The steps that are no assignments and no declarations of variables need only the first of these, and
say of the second meaning only that its parts agree.
-/
namespace LoxLang
namespace Lexical

variable {V : Encounter → Prop} {c : Config V} {α β : Type}

/-- What was met is without fault. -/
def Faultless (V : Encounter → Prop) : Prop := ∀ x, V x → x.fault? = none

/-- What was met is without fault, and assigns to no name that waits. -/
def Admits (V : Encounter → Prop) : Prop := ∀ x, V x → x.fault? = none ∧ x.assignsWaiting = false

theorem Admits.faultless (hV : Admits V) : Faultless V := fun x hx => (hV x hx).1

/-- The evaluation of expressions that stand in these scopes agrees. -/
def EvalAgrees (V : Encounter → Prop) (scopes : List LoxLang.Scope)
    (eval : Expr → LoxLang.Run Value) (eval' : Scope → Expr → Run Value) : Prop :=
  ∀ {c : Config V} {scope inClass expr}, c.Fits scopes scope → expr.Met V scopes inClass →
    Agree false c (eval expr) (eval' scope expr) fun value value' _ => value' = value

/-- The execution of statements agrees. Behind a statement that did not return, the scope that it
yields matches the scopes of the walk. -/
def ExecAgrees (V : Encounter → Prop) (exec : Stmt → LoxLang.Run Flow)
    (exec' : Scope → Stmt → Run (Flow × Scope)) : Prop :=
  ∀ {c : Config V} {scopes scope inFunction inClass stmt}, c.Fits scopes scope →
    Scopes.Ready scopes → stmt.Met V scopes inFunction inClass →
      Agree true c (exec stmt) (exec' scope stmt) fun flow result c' => result.1 = flow ∧
        (flow = .normal → c'.Fits (stmt.scopesAfter scopes) result.2)

structure Agrees (V : Encounter → Prop) (eval : Expr → LoxLang.Run Value)
    (exec : Stmt → LoxLang.Run Flow) (eval' : Scope → Expr → Run Value)
    (exec' : Scope → Stmt → Run (Flow × Scope)) : Prop where
  eval : ∀ {scopes}, Scopes.Readable scopes → EvalAgrees V scopes eval eval'
  exec : ExecAgrees V exec exec'

def Config.deeper (c : Config V) : Config V where
  places := c.places
  machine := { c.machine with depth := c.machine.depth + 1 }
  store := { c.store with depth := c.store.depth + 1 }
  sim := { c.sim with depth := by simp [c.sim.depth] }

theorem Agree.deeper {x : LoxLang.Run α} {y : Run α}
    (h : Agree false c.deeper x y fun a b _ => b = a) :
    Agree false c (LoxLang.Run.deeper x) (Run.deeper y) fun a b _ => b = a := by
  have hback {own : Bool} {c' : Config V} (hleads : c.deeper.Leads own c') :
      ∃ c'' : Config V, c''.machine = { c'.machine with depth := c'.machine.depth - 1 } ∧
        c''.store = { c'.store with depth := c'.store.depth - 1 } ∧ c.Leads own c'' := by
    have hsim : Sim V c'.places { c'.machine with depth := c'.machine.depth - 1 }
        { c'.store with depth := c'.store.depth - 1 } :=
      { c'.sim with depth := by simp [c'.sim.depth] }
    exact ⟨⟨_, _, _, hsim⟩, rfl, rfl,
      ⟨hleads.machine.frames, hleads.machine.current⟩, hleads.places, hleads.fresh⟩
  apply Action.related_ensuring
  apply Action.Related.mono h
  · rintro a b m t ⟨c', rfl, rfl, hleads, hQ⟩
    obtain ⟨c'', hm, ht, hleads'⟩ := hback hleads
    exact ⟨c'', hm, ht, hleads', hQ⟩
  · rintro fault fault' m t ⟨heq, c', rfl, rfl, hleads⟩
    obtain ⟨c'', hm, ht, hleads'⟩ := hback hleads
    exact ⟨heq, c'', hm, ht, hleads'⟩

theorem Agree.blaming {own : Bool} {x : LoxLang.Run α} {y : Run β} {Q : α → β → Config V → Prop}
    (h : Agree own c x y Q) (paren : Token) :
    Agree own c (LoxLang.Run.blaming paren x) (Run.blaming paren y) Q := by
  unfold Agree Action.Related LoxLang.Run.blaming Run.blaming at *
  cases hx : x c.machine <;> cases hy : y c.store <;> simp_all

theorem Agree.keep {own : Bool} {scopes : List LoxLang.Scope} {scope : Scope}
    {x : LoxLang.Run α} {y : Run β} {Q : α → β → Config V → Prop} (h : Agree false c x y Q)
    (hc : c.Fits scopes scope) :
    Agree own c x y fun a b c' => Q a b c' ∧ c'.Fits scopes scope :=
  (h.mono fun _ _ _ hleads hQ => ⟨hQ, hc.mono hleads⟩).weaken

theorem Agree.bind_pure_right {own : Bool} {γ : Type} {x : LoxLang.Run α} {y : Run β} {g : β → γ}
    {Q : α → γ → Config V → Prop} (h : Agree own c x y fun a b c' => Q a (g b) c') :
    Agree own c x (y >>= fun b => Pure.pure (g b)) Q := Action.related_bind_pure_right h

section Evaluation

variable {eval : Expr → LoxLang.Run Value} {exec : Stmt → LoxLang.Run Flow}
  {eval' : Scope → Expr → Run Value} {exec' : Scope → Stmt → Run (Flow × Scope)}
  {scopes : List LoxLang.Scope} {scope : Scope} {inFunction inClass : Bool}

theorem EvalAgrees.collect (h : EvalAgrees V scopes eval eval') {exprs : List Expr}
    (hc : c.Fits scopes scope)
    (hform : Expr.FormedAll Token.TellsThis exprs)
    (hmet : ∀ x ∈ Expr.encountersAll scopes inClass exprs, V x) :
    Agree false c (LoxLang.Run.collect eval exprs) (Run.collect (eval' scope) exprs)
      fun values values' _ => values' = values := by
  induction exprs generalizing c with
  | nil => exact .pure rfl
  | cons expr exprs ih =>
    rw [Expr.encountersAll, List.forall_mem_append] at hmet
    apply (h hc ⟨hform.1, hmet.1⟩).bind
    rintro _ value c₁ hleads₁ rfl
    apply (ih (hc.mono hleads₁) hform.2 hmet.2).bind
    rintro _ values c₂ - rfl
    exact .pure rfl

theorem EvalAgrees.evalOption (h : EvalAgrees V scopes eval eval') {expr : Option Expr}
    (hc : c.Fits scopes scope)
    (hform : Expr.FormedOption Token.TellsThis expr)
    (hmet : ∀ x ∈ Expr.encountersOption scopes inClass expr, V x) :
    Agree false c (LoxLang.Run.evalOption eval expr) (Run.evalOption (eval' scope) expr)
      fun value value' _ => value' = value := by
  cases expr with
  | none => exact .pure rfl
  | some expr => exact h hc ⟨hform, hmet⟩

theorem ExecAgrees.sequence (h : ExecAgrees V exec exec') {stmts : List Stmt}
    (hc : c.Fits scopes scope) (hscopes : Scopes.Ready scopes)
    (hform : Stmt.FormedAll Token.TellsThis stmts)
    (hmet : ∀ x ∈ Stmt.encountersAll scopes inFunction inClass stmts, V x) :
    Agree true c (LoxLang.Run.sequence exec stmts) (Run.sequence exec' scope stmts)
      fun flow flow' _ => flow' = flow := by
  induction stmts generalizing c scopes scope with
  | nil => exact .pure rfl
  | cons stmt stmts ih =>
    rw [Stmt.encountersAll, List.forall_mem_append] at hmet
    apply (h hc hscopes ⟨hform.1, hmet.1⟩).bind
    rintro _ ⟨flow, scope₁⟩ c₁ hleads₁ ⟨rfl, hnormal⟩
    cases flow with
    | normal => exact ih (hnormal rfl) (hscopes.scopesAfter stmt) hform.2 hmet.2
    | returned value => exact .pure rfl

/-- The value that an initializer yields is what `this` stands for around it. -/
theorem Closure.Like.this_eq {f : LoxLang.Closure} {f' : Closure}
    (h : Closure.Like V c.places c.machine.heap.frames [] f f') (hinit : f.isInitializer = true) :
    c.store.valueOf? f'.scope "this" = c.machine.heap.frames.getHere? f.frame "this" := by
  obtain ⟨scopes, inClass, hmatch, hready, -, hthis⟩ := h.met
  have hhead := hthis hinit
  cases scopes with
  | nil => simp at hhead
  | cons inner outer =>
    simp only [List.nil_append, List.head?_cons, Option.some.injEq] at hhead
    subst hhead
    have hfind := hmatch.find? fun s hs => hready s hs "this"
    have hdistance : Scopes.distance? (Scopes.ofThis :: outer) "this" = some 0 := by
      simp [Scopes.distance?, List.findIdx?_cons, Scopes.ofThis, Table.contains]
    rw [hdistance] at hfind
    obtain ⟨location, frame, hlocation, hframe, hplace⟩ := hfind
    cases hframe
    rw [Store.valueOf?, hlocation]
    exact (c.sim.vars.placed location _ _ hplace).symm

theorem ExecAgrees.callClosure (hV : Faultless V) (h : ExecAgrees V exec exec')
    {f : LoxLang.Closure} {f' : Closure} {arguments : List Value}
    (hlike : Closure.Like V c.places c.machine.heap.frames [] f f')
    (hlength : arguments.length = f.declaration.params.length) :
    Agree false c (LoxLang.Run.callClosure exec f arguments) (Run.callClosure exec' f' arguments)
      fun value value' _ => value' = value := by
  obtain ⟨outer, inClass, hmatch, hready, ⟨hform, hmet⟩, -⟩ := hlike.met
  have hdeclaration := hlike.declaration
  have hinitializer := hlike.isInitializer
  obtain ⟨⟨name, params, body⟩, frame, isInitializer⟩ := f
  simp only [FunctionDecl.Formed] at hform
  simp only [FunctionDecl.encounters, List.nil_append, List.forall_mem_append] at hmet
  obtain ⟨inner, hmachine, hstore, hinside, hfits⟩ := Config.exists_inside hmatch
  have hparams : ∀ x ∈ Scopes.parameters (∅ :: outer) params, x.fault? = none :=
    fun x hx => hV x (hmet.1 x hx)
  have hframes : inner.machine.heap.frames = c.machine.heap.frames.push (some frame) ∅ := by
    rw [hmachine]
    rfl
  have hcurrent : inner.machine.current = c.machine.heap.frames.next := by rw [hmachine]
  obtain ⟨inner', scope', hdone, hmachine', hleads, hfits'⟩ :=
    hfits.declareAll hframes hcurrent hlength hparams
  rw [hstore] at hdone
  have hbody := h.sequence hfits' (hready.enter.introduceAll params) hform.2.2 hmet.2
  have hrun := (hinside.trans hleads).inFrame hbody fun _ _ _ heq => heq
  rw [hleads.machine.current, hcurrent, hmachine', hmachine] at hrun
  unfold LoxLang.Run.callClosure Run.callClosure
  rw [hdeclaration]
  apply Action.related_update_left
  apply Action.related_of_done_right hdone
  apply Action.related_bind
  apply Action.Related.mono hrun
  · rintro _ flow m t ⟨c₁, rfl, rfl, hleads₁, rfl⟩
    cases isInitializer with
    | true =>
      simp only [hinitializer, if_true]
      have hlike₁ := hlike.mono hleads₁.machine.frames hleads₁.places
      exact ⟨c₁, rfl, rfl, hleads₁, congrArg (·.getD .nil) (hlike₁.this_eq rfl)⟩
    | false =>
      simp only [hinitializer, Bool.false_eq_true, if_false]
      cases flow <;> exact ⟨c₁, rfl, rfl, hleads₁, rfl⟩
  · intro fault fault' m t hfault
    exact hfault

theorem ExecAgrees.construct (hV : Faultless V) (h : ExecAgrees V exec exec') {place : Nat}
    {cls : LoxLang.Class} {cls' : Class} {arguments : List Value}
    (hlike : Class.Like V c.places c.machine.heap.frames cls cls')
    (hlength : arguments.length = cls.arity) :
    Agree false c (LoxLang.Run.construct exec place cls arguments)
      (Run.construct exec' place cls' arguments) fun value value' _ => value' = value := by
  have hsim : Sim V c.places { c.machine with heap := (c.machine.heap.addInstance place).2 }
      { c.store with instances := c.store.instances.push ⟨place, ∅⟩ } :=
    { c.sim with instances := by simp [Heap.addInstance, c.sim.instances] }
  have hnew : Agree false c (LoxLang.Run.onHeap (·.addInstance place))
      (Action.update fun t =>
        (t.instances.size, { t with instances := t.instances.push ⟨place, ∅⟩ }))
      fun new new' c' => new' = new ∧ Class.Like V c'.places c'.machine.heap.frames cls cls' :=
    ⟨⟨_, _, _, hsim⟩, rfl, rfl, .of_same rfl rfl rfl, congrArg Array.size c.sim.instances, hlike⟩
  apply hnew.bind
  rintro _ new c₁ - ⟨rfl, hlike₁⟩
  rcases rel_cases (hlike₁.methods "init") with ⟨hf, hf'⟩ | ⟨f, f', hf, hf', hmethod⟩
  · have hinit : cls.initializer? = none := hf
    have hinit' : cls'.initializer? = none := hf'
    rw [hinit, hinit']
    exact .pure rfl
  · have hinit : cls.initializer? = some f := hf
    have hinit' : cls'.initializer? = some f' := hf'
    rw [hinit, hinit']
    apply (agree_bind hmethod new).bind
    rintro bound bound' c₂ - ⟨hbound, hdeclaration⟩
    have hparams : arguments.length = bound.declaration.params.length := by
      rw [hlength, LoxLang.Class.arity, hinit, hdeclaration]
      rfl
    apply (h.callClosure hV hbound hparams).bind
    intro _ _ c₃ _ _
    exact .pure rfl

theorem ExecAgrees.invoke (hV : Faultless V) (h : ExecAgrees V exec exec') (value : Value)
    (paren : Token) (arguments : List Value) :
    Agree false c (LoxLang.Run.invoke exec value paren arguments)
      (Run.invoke exec' value paren arguments) fun value value' _ => value' = value := by
  have hdepth : Agree false c (Action.view Machine.depth) (Action.view Store.depth)
      fun a b _ => b = a := .view c.sim.depth
  apply hdepth.bind
  rintro _ depth c₁ - rfl
  have hcallee : Agree false c₁ (Action.view (·.heap.callee? value))
      (Action.view (·.callee? value)) fun a b c' =>
        Option.Rel (Sim.LikeCallee V c'.places c'.machine.heap.frames) a b :=
    .view (c₁.sim.callee? value)
  apply hcallee.bind
  intro callee? callee?' c₂ _ hrel
  rcases rel_cases hrel with ⟨rfl, rfl⟩ | ⟨callee, callee', rfl, rfl, hlike⟩
  · exact .fault _ _
  · dsimp only
    rw [hlike.arity]
    split_ifs with harity hdeep
    · exact .fault _ _
    · exact .fault _ _
    · have hlength : arguments.length = callee.arity := not_not.mp harity
      refine (Agree.deeper ?_).blaming paren
      cases hlike with
      | native n => exact agree_callNative n arguments
      | function hf => exact h.callClosure hV (c := c₂.deeper) hf hlength
      | cls place hcls => exact h.construct hV (c := c₂.deeper) hcls hlength

theorem agree_readProperty (place : Nat) (name : Token) :
    Agree false c (LoxLang.Run.readProperty place name) (Run.readProperty place name)
      fun value value' _ => value' = value := by
  have hfield : c.store.field? place name.lexeme = c.machine.heap.field? place name.lexeme := by
    simp [Store.field?, Heap.field?, c.sim.instances]
  have hview : Agree false c (Action.view (·.heap.field? place name.lexeme))
      (Action.view (·.field? place name.lexeme)) fun a b _ => b = a := .view hfield
  apply hview.bind
  rintro _ field? c₁ - rfl
  cases field? with
  | some value => exact .pure rfl
  | none =>
    have hmethod : Agree false c₁ (Action.view (·.heap.method? place name.lexeme))
        (Action.view (·.method? place name.lexeme)) fun a b c' =>
          Option.Rel (Closure.Like V c'.places c'.machine.heap.frames [Scopes.ofThis]) a b :=
      .view (c₁.sim.method? place name.lexeme)
    apply hmethod.bind
    intro method? method?' c₂ _ hrel
    rcases rel_cases hrel with ⟨rfl, rfl⟩ | ⟨method, method', rfl, rfl, hlike⟩
    · exact .fault _ _
    · apply (agree_bind hlike place).bind
      rintro bound bound' c₃ - ⟨hbound, -⟩
      exact ⟨⟨_, _, _, c₃.sim.addClosure hbound⟩, rfl, rfl, .of_same rfl rfl rfl,
        congrArg Value.function c₃.sim.closures.size⟩

theorem EvalAgrees.evalWith (hV : Faultless V) (h : EvalAgrees V scopes eval eval')
    (hexec : ExecAgrees V exec exec') {expr : Expr} (hc : c.Fits scopes scope)
    (hscopes : Scopes.Readable scopes) (hexpr : expr.Met V scopes inClass)
    (hassign : ∀ id name value, expr ≠ .assign id name value) :
    Agree false c (LoxLang.Run.evalWith eval exec expr) (Run.evalWith eval' exec' scope expr)
      fun value value' _ => value' = value := by
  have hself := hexpr.2 _ (expr.mem_encounters_self scopes inClass)
  obtain ⟨hform, hmet⟩ := hexpr
  cases expr with
  | literal id value => exact .pure rfl
  | grouping id inner =>
    simp only [Expr.encounters, List.forall_mem_append] at hmet
    exact h hc ⟨hform, hmet.1⟩
  | unary id operator right =>
    simp only [Expr.encounters, List.forall_mem_append] at hmet
    apply (h hc ⟨hform.2, hmet.1⟩).bind
    rintro _ value c₁ - rfl
    exact .ofExcept _
  | binary id left operator right =>
    simp only [Expr.encounters, List.forall_mem_append] at hmet
    obtain ⟨hleft, -, hright⟩ := hform
    apply (h hc ⟨hleft, hmet.1.1⟩).bind
    rintro _ value c₁ hleads₁ rfl
    apply (h (hc.mono hleads₁) ⟨hright, hmet.1.2⟩).bind
    rintro _ value' c₂ - rfl
    exact .ofExcept _
  | logical id left operator right =>
    simp only [Expr.encounters, List.forall_mem_append] at hmet
    obtain ⟨hleft, -, hright⟩ := hform
    apply (h hc ⟨hleft, hmet.1.1⟩).bind
    rintro _ value c₁ hleads₁ rfl
    split_ifs
    · exact .pure rfl
    · exact h (hc.mono hleads₁) ⟨hright, hmet.1.2⟩
  | var id name =>
    have hready := Scopes.Readable.get?_ne hscopes
      (Encounter.ready_of_reads (.inl rfl) (hV _ hself) hform hscopes)
    exact agree_readName hc hself rfl hready
  | assign id name value => exact absurd rfl (hassign id name value)
  | call id callee paren arguments =>
    simp only [Expr.encounters, List.forall_mem_append] at hmet
    obtain ⟨hcallee, -, harguments⟩ := hform
    apply (h hc ⟨hcallee, hmet.1.1⟩).bind
    rintro _ value c₁ hleads₁ rfl
    apply (h.collect (hc.mono hleads₁) harguments hmet.1.2).bind
    rintro _ values c₂ - rfl
    exact hexec.invoke hV value paren values
  | get id object name =>
    simp only [Expr.encounters, List.forall_mem_append] at hmet
    apply (h hc ⟨hform.1, hmet.1⟩).bind
    rintro _ value c₁ - rfl
    cases value with
    | inst place => exact agree_readProperty place name
    | _ => exact .fault _ _
  | set id object name value =>
    simp only [Expr.encounters, List.forall_mem_append] at hmet
    obtain ⟨hobject, -, hvalue⟩ := hform
    apply (h hc ⟨hobject, hmet.1.2⟩).bind
    rintro _ target c₁ hleads₁ rfl
    cases target with
    | inst place =>
      apply (h (hc.mono hleads₁) ⟨hvalue, hmet.1.1⟩).bind
      rintro _ v c₂ - rfl
      apply (agree_writeField place name.lexeme v).bind
      intro _ _ c₃ _ _
      exact .pure rfl
    | _ => exact .fault _ _
  | this id keyword =>
    have hready := Scopes.Readable.get?_ne hscopes
      (Encounter.ready_of_reads (.inr rfl) (hV _ hself) hform hscopes)
    have hclass : inClass = true := by
      have hfault := (hV _ hself)
      cases inClass with
      | true => rfl
      | false => simp [Encounter.fault?] at hfault
    exact agree_readName hc hself (by simp [Expr.reference?, hclass]) hready

/-- An assignment to a name that does not wait for its own initializer. -/
theorem EvalAgrees.assign (h : EvalAgrees V scopes eval eval') {id : Nat} {name : Token}
    {value : Expr} (hc : c.Fits scopes scope) (hscopes : Scopes.Readable scopes)
    (hexpr : (Expr.assign id name value).Met V scopes inClass)
    (hwaits : scopes.head?.bind (·.get? name.lexeme) ≠ some false) :
    Agree false c (LoxLang.Run.evalWith eval exec (.assign id name value))
      (Run.evalWith eval' exec' scope (.assign id name value))
      fun value value' _ => value' = value := by
  have hself := hexpr.2 _ (Expr.mem_encounters_self scopes inClass _)
  obtain ⟨hform, hmet⟩ := hexpr
  simp only [Expr.encounters, List.forall_mem_append] at hmet
  apply (h hc ⟨hform.2, hmet.1⟩).bind
  rintro _ v c₁ hleads₁ rfl
  have hready := Scopes.Readable.get?_ne hscopes hwaits
  apply (agree_writeName (hc.mono hleads₁) hself rfl hready v).bind
  intro _ _ c₂ _ _
  exact .pure rfl

theorem Agrees.evalWith (hV : Admits V) (h : Agrees V eval exec eval' exec') {expr : Expr}
    (hc : c.Fits scopes scope) (hscopes : Scopes.Readable scopes)
    (hexpr : expr.Met V scopes inClass) :
    Agree false c (LoxLang.Run.evalWith eval exec expr) (Run.evalWith eval' exec' scope expr)
      fun value value' _ => value' = value := by
  by_cases hassign : ∃ id name value, expr = .assign id name value
  · obtain ⟨id, name, value, rfl⟩ := hassign
    have hwaits := (hV _ (hexpr.2 _ (Expr.mem_encounters_self scopes inClass _))).2
    simp only [Encounter.assignsWaiting, decide_eq_false_iff_not] at hwaits
    exact EvalAgrees.assign (h.eval hscopes) hc hscopes hexpr hwaits
  · exact EvalAgrees.evalWith hV.faultless (h.eval hscopes) h.exec hc hscopes hexpr
      fun id name value heq => hassign ⟨id, name, value, heq⟩

theorem agree_declare (hc : c.Fits scopes scope) {name : String}
    (hname : scopes.head?.any (·.contains name) = false) (value : Value) :
    Agree true c (LoxLang.Run.define name value) (Run.declare scope name value)
      fun _ scope' c' => c'.Fits (Scopes.introduce name scopes) scope' ∧
        (c'.machine.heap.frames.getHere? c'.machine.current name).isSome = true := by
  obtain ⟨c', hmachine, hstore, hleads, hfits⟩ := hc.declare hname value
  have hlt := hc.offers.lt_next c.sim.vars.globals_lt
  refine ⟨c', hmachine, hstore, hleads, hfits, ?_⟩
  rw [hmachine]
  simp [Frames.getHere?_define, hlt]

/-- A function is made before its name is bound, but it sees its name. -/
theorem agree_declareFunction (hc : c.Fits scopes scope) (hscopes : Scopes.Ready scopes)
    {declaration : FunctionDecl}
    (hname : scopes.head?.any (·.contains declaration.name.lexeme) = false)
    (hmet : declaration.Met V (Scopes.introduce declaration.name.lexeme scopes) inClass) :
    Agree true c (LoxLang.Run.declareFunction declaration) (Run.declareFunction scope declaration)
      fun _ scope' c' => c'.Fits (Scopes.introduce declaration.name.lexeme scopes) scope' := by
  obtain ⟨c₁, hmachine, hstore, hleads, hfits⟩ :=
    hc.declare hname (.function c.machine.heap.closures.size)
  have hlike : Closure.Like V c₁.places c₁.machine.heap.frames []
      ⟨declaration, c₁.machine.current, false⟩
      ⟨declaration, scope.extend declaration.name.lexeme c.store.cells.size, false⟩ :=
    ⟨rfl, rfl, _, inClass, hfits.offers, hscopes.introduce _, hmet, by simp⟩
  have hsim := c₁.sim.addClosure hlike
  refine ⟨⟨_, _, _, hsim⟩, ?_, ?_, ⟨⟨hleads.machine.frames, hleads.machine.current⟩,
    hleads.places, hleads.fresh⟩, hfits.offers, hfits.own⟩
  · simp only [hmachine]
    rfl
  · simp only [hstore, ← c.sim.closures.size]
    cases hlocal : scope.isLocal <;> simp [Store.declare, hlocal]

theorem like_methodTable {fs : Frames} {places : Placing} {frame : Nat}
    {methods : List FunctionDecl} {table : Table LoxLang.Closure} {table' : Table Closure}
    (hoffers : Matches places fs frame scopes scope) (hscopes : Scopes.Ready scopes)
    (hmet : ∀ method ∈ methods, method.Met V (Scopes.ofThis :: scopes) true)
    (htable : ∀ name, Option.Rel (Closure.Like V places fs [Scopes.ofThis]) (table.get? name)
      (table'.get? name)) (name : String) :
    Option.Rel (Closure.Like V places fs [Scopes.ofThis])
      ((LoxLang.Run.methodTable frame methods table).get? name)
      ((Run.methodTable scope methods table').get? name) := by
  induction methods generalizing table table' with
  | nil => exact htable name
  | cons method methods ih =>
    simp only [List.forall_mem_cons] at hmet
    apply ih hmet.2
    intro other
    rw [Table.get?_set, Table.get?_set]
    split
    · exact .some ⟨rfl, rfl, scopes, true, hoffers, hscopes, hmet.1, fun _ => rfl⟩
    · exact htable other

theorem agree_declareClass (hc : c.Fits scopes scope) (hscopes : Scopes.Ready scopes)
    {name : Token} {methods : List FunctionDecl}
    (hname : scopes.head?.any (·.contains name.lexeme) = false)
    (hmet : ∀ method ∈ methods,
      method.Met V (Scopes.ofThis :: Scopes.introduce name.lexeme scopes) true) :
    Agree true c (LoxLang.Run.declareClass name methods) (Run.declareClass scope name methods)
      fun _ scope' c' => c'.Fits (Scopes.introduce name.lexeme scopes) scope' := by
  apply (agree_declare hc hname .nil).bind
  rintro _ scope₁ c₁ - ⟨hfits₁, hbound₁⟩
  apply Action.related_view_left
  have hlike : Class.Like V c₁.places c₁.machine.heap.frames
      ⟨name.lexeme, LoxLang.Run.methodTable c₁.machine.current methods ∅⟩
      ⟨name.lexeme, Run.methodTable scope₁ methods ∅⟩ :=
    ⟨rfl, like_methodTable hfits₁.offers (hscopes.introduce _) hmet fun _ => .none⟩
  have hadd : Agree false c₁
      (LoxLang.Run.onHeap (·.addClass
        ⟨name.lexeme, LoxLang.Run.methodTable c₁.machine.current methods ∅⟩))
      (Action.update fun t => (.cls t.classes.size, { t with
        classes := t.classes.push ⟨name.lexeme, Run.methodTable scope₁ methods ∅⟩ }))
      fun value value' c' => value' = value ∧
        (c'.machine.heap.frames.getHere? c'.machine.current name.lexeme).isSome = true :=
    ⟨⟨_, _, _, c₁.sim.addClass hlike⟩, rfl, rfl, .of_same rfl rfl rfl,
      congrArg Value.cls c₁.sim.classes.size, hbound₁⟩
  apply (hadd.keep hfits₁).bind
  rintro _ value c₂ - ⟨⟨rfl, hbound₂⟩, hfits₂⟩
  apply Agree.bind_pure_right
  exact ((agree_assignAlong hfits₂ hscopes hbound₂ value).keep hfits₂).mono fun _ _ _ _ h => h.2

/-- Behind a statement that is no declaration, the scope before it matches again. -/
theorem Config.Fits.behind {own : Bool} {c' : Config V} {scope' : Scope}
    (hc : c.Fits scopes scope) (hleads : c.Leads own c') (hfits : c'.Fits scopes scope') :
    c'.Fits scopes scope where
  offers := by
    rw [hleads.machine.current]
    exact hc.offers.mono hleads.machine.frames hleads.places
  own := hfits.own

/-- What stands as a branch or as the body of a loop leaves the scopes as they are. -/
theorem ExecAgrees.branch (h : ExecAgrees V exec exec') {stmt : Stmt}
    (hc : c.Fits scopes scope) (hscopes : Scopes.Ready scopes)
    (hstmt : stmt.IsStatement Token.TellsThis)
    (hmet : ∀ x ∈ stmt.encounters scopes inFunction inClass, V x) :
    Agree true c (exec stmt) (exec' scope stmt) fun flow result c' => result.1 = flow ∧
      (flow = .normal → c'.Fits scopes scope) := by
  have hexec := h hc hscopes ⟨hstmt.2, hmet⟩
  rw [hstmt.scopesAfter_eq] at hexec
  apply hexec.mono
  rintro flow result c' hleads ⟨hflow, hnormal⟩
  exact ⟨hflow, fun hn => hc.behind hleads (hnormal hn)⟩

/-- One step of execution, one case for each kind of statement but declarations of variables. -/
theorem ExecAgrees.execWith (hV : Faultless V) (hexec : ExecAgrees V exec exec')
    (h : EvalAgrees V scopes eval eval') {stmt : Stmt} (hc : c.Fits scopes scope)
    (hscopes : Scopes.Ready scopes) (hstmt : stmt.Met V scopes inFunction inClass)
    (hvar : ∀ name initializer, stmt ≠ .varDecl name initializer) :
    Agree true c (LoxLang.Run.execWith eval exec stmt) (Run.execWith eval' exec' scope stmt)
      fun flow result c' => result.1 = flow ∧
        (flow = .normal → c'.Fits (stmt.scopesAfter scopes) result.2) := by
  have hwhole := hstmt
  obtain ⟨hform, hmet⟩ := hstmt
  cases stmt with
  | expression expr =>
    apply ((h hc ⟨hform, hmet⟩).keep hc).bind
    rintro _ _ c₁ - ⟨rfl, hfits₁⟩
    exact .pure ⟨rfl, fun _ => hfits₁⟩
  | print expr =>
    apply ((h hc ⟨hform, hmet⟩).keep hc).bind
    rintro _ value c₁ - ⟨rfl, hfits₁⟩
    apply ((agree_print value).keep hfits₁).bind
    rintro _ _ c₂ - ⟨-, hfits₂⟩
    exact .pure ⟨rfl, fun _ => hfits₂⟩
  | varDecl name initializer => exact absurd rfl (hvar name initializer)
  | block body =>
    obtain ⟨inner, hmachine, hstore, hinside, hfits⟩ := Config.exists_inside hc.offers
    have hbody := hexec.sequence hfits hscopes.enter hform hmet
    have hrun := hinside.inFrame hbody fun _ _ _ heq => heq
    rw [hmachine, hstore] at hrun
    apply Action.related_update_left
    apply Action.related_bind_pure_right
    apply Action.Related.mono hrun
    · rintro _ flow m t ⟨c₁, hm, ht, hleads, rfl⟩
      exact ⟨c₁, hm, ht, hleads.weaken, rfl, fun _ => hc.mono hleads⟩
    · intro fault fault' m t hfault
      exact hfault
  | ifThen condition thenBranch =>
    simp only [Stmt.encounters, List.forall_mem_append] at hmet
    obtain ⟨hcondition, hbranch⟩ := hform
    rw [Stmt.scopesAfter, Stmt.IsStatement.scopesAfter_eq hbranch]
    apply ((h hc ⟨hcondition, hmet.1⟩).keep hc).bind
    rintro _ value c₁ - ⟨rfl, hfits₁⟩
    split_ifs
    · exact (hexec.branch hfits₁ hscopes hbranch hmet.2).bind_pure_right
    · exact .pure ⟨rfl, fun _ => hfits₁⟩
  | ifElse condition thenBranch elseBranch =>
    simp only [Stmt.encounters, List.forall_mem_append] at hmet
    obtain ⟨hcondition, hthen, helse⟩ := hform
    rw [Stmt.IsStatement.scopesAfter_eq hthen] at hmet
    rw [Stmt.scopesAfter, Stmt.IsStatement.scopesAfter_eq hthen,
      Stmt.IsStatement.scopesAfter_eq helse]
    apply ((h hc ⟨hcondition, hmet.1.1⟩).keep hc).bind
    rintro _ value c₁ - ⟨rfl, hfits₁⟩
    split_ifs
    · exact (hexec.branch hfits₁ hscopes hthen hmet.1.2).bind_pure_right
    · exact (hexec.branch hfits₁ hscopes helse hmet.2).bind_pure_right
  | whileLoop condition body =>
    simp only [Stmt.encounters, List.forall_mem_append] at hmet
    have hbody : body.IsStatement Token.TellsThis := hform.2
    apply ((h hc ⟨hform.1, hmet.1⟩).keep hc).bind
    rintro _ value c₁ - ⟨rfl, hfits₁⟩
    split_ifs
    · apply (hexec.branch hfits₁ hscopes hbody hmet.2).bind
      rintro _ ⟨flow, scope₂⟩ c₂ - ⟨rfl, hnormal⟩
      cases flow with
      | normal => exact hexec (hnormal rfl) hscopes hwhole
      | returned value => exact .pure ⟨rfl, by simp⟩
    · rw [Stmt.scopesAfter, hbody.scopesAfter_eq]
      exact .pure ⟨rfl, fun _ => hfits₁⟩
  | funDecl declaration =>
    simp only [Stmt.encounters, List.forall_mem_cons] at hmet
    have hname : scopes.head?.any (·.contains declaration.name.lexeme) = false := by
      simpa [Encounter.fault?] using hV _ hmet.1
    apply (agree_declareFunction hc hscopes hname ⟨hform, hmet.2⟩).bind
    intro _ scope₁ c₁ _ hfits₁
    exact .pure ⟨rfl, fun _ => hfits₁⟩
  | returnStmt keyword value =>
    simp only [Stmt.encounters, List.forall_mem_cons] at hmet
    apply ((h.evalOption hc hform.2 hmet.2).keep hc).bind
    rintro _ value c₁ - ⟨rfl, -⟩
    exact .pure ⟨rfl, by simp⟩
  | classDecl name methods =>
    simp only [Stmt.encounters, List.forall_mem_cons] at hmet
    have hname : scopes.head?.any (·.contains name.lexeme) = false := by
      simpa [Encounter.fault?] using hV _ hmet.1
    have hmethods := FunctionDecl.forall_met hform.2 hmet.2
    apply (agree_declareClass hc hscopes hname hmethods).bind
    intro _ scope₁ c₁ _ hfits₁
    exact .pure ⟨rfl, fun _ => hfits₁⟩

/-- The declaration of a variable, whose initializer stands where the name waits for it. -/
theorem agree_varDecl (hV : Faultless V) {name : Token} {initializer : Option Expr}
    (hc : c.Fits scopes scope)
    (hstmt : (Stmt.varDecl name initializer).Met V scopes inFunction inClass)
    (h : EvalAgrees V (Scopes.declare name.lexeme scopes) eval eval') :
    Agree true c (LoxLang.Run.execWith eval exec (.varDecl name initializer))
      (Run.execWith eval' exec' scope (.varDecl name initializer))
      fun flow result c' => result.1 = flow ∧
        (flow = .normal → c'.Fits (Scopes.introduce name.lexeme scopes) result.2) := by
  obtain ⟨⟨-, hinit⟩, hmet⟩ := hstmt
  simp only [Stmt.encounters, List.forall_mem_cons] at hmet
  have hname : scopes.head?.any (·.contains name.lexeme) = false := by
    simpa [Encounter.fault?] using hV _ hmet.1
  have hdeclared : c.Fits (Scopes.declare name.lexeme scopes) scope := by
    refine ⟨hc.offers.declare hname, fun other hother => ?_⟩
    have hready := hc.own other hother
    cases scopes with
    | nil => simp at hready
    | cons inner outer =>
      simp only [List.head?_cons, Option.any_some] at hname
      rw [Scopes.head_declare other hname, if_neg]
      · exact hready
      · rintro rfl
        simp_all [Table.contains]
  apply ((h.evalOption hdeclared hinit hmet.2).keep hc).bind
  rintro _ value c₁ - ⟨rfl, hfits₁⟩
  apply (agree_declare hfits₁ hname value).bind
  rintro _ scope₂ c₂ - ⟨hfits₂, -⟩
  exact .pure ⟨rfl, fun _ => hfits₂⟩

theorem Agrees.execWith (hV : Admits V) (h : Agrees V eval exec eval' exec') {stmt : Stmt}
    (hc : c.Fits scopes scope) (hscopes : Scopes.Ready scopes)
    (hstmt : stmt.Met V scopes inFunction inClass) :
    Agree true c (LoxLang.Run.execWith eval exec stmt) (Run.execWith eval' exec' scope stmt)
      fun flow result c' => result.1 = flow ∧
        (flow = .normal → c'.Fits (stmt.scopesAfter scopes) result.2) := by
  by_cases hvar : ∃ name initializer, stmt = .varDecl name initializer
  · obtain ⟨name, initializer, rfl⟩ := hvar
    have hspelled := hstmt.1.1.2.1 hstmt.1.1.1
    exact agree_varDecl hV.faultless hc hstmt (h.eval (hscopes.declare hspelled))
  · exact ExecAgrees.execWith hV.faultless h.exec (h.eval hscopes.readable) hc hscopes hstmt
      fun name initializer heq => hvar ⟨name, initializer, heq⟩

end Evaluation

/-- Evaluation and execution agree in both meanings, whatever the fuel. -/
theorem agrees_eval_exec (hV : Admits V) (fuel : Nat) :
    Agrees V (LoxLang.Run.eval fuel) (LoxLang.Run.exec fuel) (Run.eval fuel) (Run.exec fuel) := by
  induction fuel with
  | zero =>
    constructor
    · intro scopes hscopes c scope inClass expr hc hexpr
      rw [LoxLang.Run.eval, Run.eval]
      exact .exhausted
    · intro c scopes scope inFunction inClass stmt hc hscopes hstmt
      rw [LoxLang.Run.exec, Run.exec]
      exact .exhausted
  | succ fuel ih =>
    constructor
    · intro scopes hscopes c scope inClass expr hc hexpr
      rw [LoxLang.Run.eval, Run.eval]
      exact ih.evalWith hV hc hscopes hexpr
    · intro c scopes scope inFunction inClass stmt hc hscopes hstmt
      rw [LoxLang.Run.exec, Run.exec]
      exact ih.execWith hV hc hscopes hstmt

theorem Config.fits_global (hcurrent : c.machine.current = Heap.globals) :
    c.Fits [] Scope.global where
  offers := ⟨hcurrent, rfl⟩
  own name hname := by
    have hlocal := (c.sim.vars.inside _ hname).1
    simp [hcurrent] at hlocal

theorem ExecAgrees.programWith {exec : Stmt → LoxLang.Run Flow}
    {exec' : Scope → Stmt → Run (Flow × Scope)} (h : ExecAgrees V exec exec')
    {run : List Stmt → Run Unit} (hnil : run [] = Run.flush)
    (hcons : ∀ stmt stmts, run (stmt :: stmts) = exec' .global stmt >>= fun _ => run stmts)
    {program : List Stmt} (hcurrent : c.machine.current = Heap.globals)
    (hform : Stmt.FormedAll Token.TellsThis program) (hmet : ∀ x ∈ encountersOf program, V x) :
    Agree true c (LoxLang.Run.programWith exec program) (run program) fun _ _ _ => True := by
  induction program generalizing c with
  | nil =>
    rw [hnil]
    exact agree_flush.weaken
  | cons stmt program ih =>
    rw [encountersOf, Stmt.encountersAll, List.forall_mem_append, Stmt.scopesAfter_nil] at hmet
    rw [hcons]
    apply (h (Config.fits_global hcurrent) Scopes.ready_nil ⟨hform.1, hmet.1⟩).bind
    intro _ _ c₁ hleads₁ _
    exact ih (hleads₁.machine.current.trans hcurrent) hform.2 hmet.2

theorem agree_program (hV : Admits V) (fuel : Nat) {program : List Stmt}
    (hcurrent : c.machine.current = Heap.globals)
    (hform : Stmt.FormedAll Token.TellsThis program) (hmet : ∀ x ∈ encountersOf program, V x) :
    Agree true c (LoxLang.Run.program fuel program) (Run.program fuel program)
      fun _ _ _ => True :=
  ExecAgrees.programWith (agrees_eval_exec hV fuel).exec rfl (fun _ _ => rfl) hcurrent hform hmet

end Lexical
end LoxLang
