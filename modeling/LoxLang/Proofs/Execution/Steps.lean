import LoxLang.Execution.Eval
import LoxLang.Proofs.Actions

/-!
# What no step changes

A run consists of a few kinds of elementary steps, whatever the program is. A relation between
machines that holds across each of them, `Stable`, holds across every evaluation and execution, also
one that fails on the way. Nothing is assumed of the program: its names need not even be bound.
-/
namespace LoxLang

/-- An elementary change of the heap. -/
inductive Heap.Step (h : Heap) : Heap → Prop
  | define (frame : Nat) (name : String) (value : Value) :
    Step h { h with frames := h.frames.define frame name value }
  | frame (parent : Nat) (vars : Table Value) : Step h (h.addFrame (some parent) vars).2
  | closure (c : Closure) : Step h (h.addClosure c).2
  | cls (c : Class) : Step h (h.addClass c).2
  | inst (cls : Nat) : Step h (h.addInstance cls).2
  | field (place : Nat) (name : String) (value : Value) : Step h (h.setField place name value)

/-- A relation between the machines before and after a step, for every elementary step. Another
frame and another depth of calls are put back at the end. -/
structure Machine.Stable (R : Machine → Machine → Prop) : Prop where
  refl : ∀ m, R m m
  trans : ∀ {m m' m''}, R m m' → R m' m'' → R m m''
  heap : ∀ m {h}, m.heap.Step h → R m { m with heap := h }
  sink : ∀ m {piece sink}, m.sink.write piece = .ok sink → R m { m with sink := sink }
  taken : ∀ m, R m { m with taken := m.taken + 1 }
  inFrame : ∀ m frame m', R { m with current := frame } m' → R m { m' with current := m.current }
  deeper : ∀ m m', R { m with depth := m.depth + 1 } m' → R m { m' with depth := m'.depth - 1 }

namespace Run

variable {R : Machine → Machine → Prop} {α β : Type}

/-- The relation holds between the machines before and after, whether the run is done or fails. -/
def Preserves (R : Machine → Machine → Prop) (x : Run α) : Prop :=
  ∀ m, x.Ensures m (fun _ m' => R m m') fun _ m' => R m m'

section Rules

variable (hR : Machine.Stable R)
include hR

theorem preserves_pure (a : α) : Preserves R (pure a) := fun m => hR.refl m

omit hR in
theorem preserves_exhausted : Preserves R (Action.exhausted : Run α) := fun _ => trivial

theorem preserves_view (f : Machine → α) : Preserves R (Action.view f) := fun m => hR.refl m

theorem preserves_fault (token : Token) (cause : RunCause) :
    Preserves R (fault token cause : Run α) := fun m => hR.refl m

theorem preserves_ofExcept (x : Except RunFault α) : Preserves R (Action.ofExcept x) := by
  intro m
  rw [Action.ensures_ofExcept]
  exact ⟨fun _ _ => hR.refl m, fun _ _ => hR.refl m⟩

theorem Preserves.bind {x : Run α} {f : α → Run β} (hx : Preserves R x)
    (hf : ∀ a, Preserves R (f a)) : Preserves R (x >>= f) := by
  intro m
  rw [Action.ensures_bind]
  refine (hx m).mono ?_ fun _ _ h => h
  intro a m' hm'
  exact (hf a m').mono (fun _ _ h => hR.trans hm' h) fun _ _ h => hR.trans hm' h

theorem preserves_onHeap {f : Heap → α × Heap} (h : ∀ heap : Heap, heap.Step (f heap).2) :
    Preserves R (onHeap f) := fun m => hR.heap m (h m.heap)

theorem preserves_define (name : String) (value : Value) : Preserves R (define name value) :=
  fun m => hR.heap m (.define m.current name value)

theorem preserves_rebind (name : Token) (value : Value) (holder? : Machine → Option Nat) :
    Preserves R (rebind name value holder?) := by
  refine .bind hR (preserves_view hR _) fun frame? => ?_
  split
  · exact fun m => hR.heap m (.define _ name.lexeme value)
  · exact preserves_fault hR _ _

theorem preserves_readName (id : Nat) (name : Token) : Preserves R (readName id name) := by
  refine .bind hR (preserves_view hR _) fun found => ?_
  split
  · exact preserves_pure hR _
  · exact preserves_fault hR _ _

theorem preserves_readProperty (place : Nat) (name : Token) :
    Preserves R (readProperty place name) := by
  refine .bind hR (preserves_view hR _) fun field? => ?_
  split
  · exact preserves_pure hR _
  refine .bind hR (preserves_view hR _) fun method? => ?_
  split
  · refine .bind hR (preserves_onHeap hR fun _ => .frame _ _) fun bound => ?_
    exact preserves_onHeap hR fun _ => .closure bound
  · exact preserves_fault hR _ _

theorem preserves_writeField (place : Nat) (name : String) (value : Value) :
    Preserves R (writeField place name value) := fun m => hR.heap m (.field place name value)

theorem preserves_write (piece : String) : Preserves R (write piece) := by
  intro m
  unfold Action.Ensures write
  cases h : m.sink.write piece with
  | ok sink => exact hR.sink m h
  | error cause => exact hR.refl m

theorem preserves_print (value : Value) : Preserves R (print value) :=
  .bind hR (preserves_view hR _) fun _ =>
    .bind hR (preserves_write hR _) fun _ => preserves_write hR _

theorem preserves_flush : Preserves R flush := by
  intro m
  unfold Action.Ensures flush
  cases m.sink.flush <;> exact hR.refl m

theorem preserves_callNative (n : Native) (arguments : List Value) :
    Preserves R (callNative n arguments) := by
  intro m
  unfold Action.Ensures callNative
  dsimp only
  generalize n.run _ = result
  cases result <;> exact hR.taken m

theorem Preserves.inFrame {x : Run α} (hx : Preserves R x) (frame : Nat) :
    Preserves R (inFrame frame x) := by
  intro m
  change (x.ensuring _).Ensures { m with current := frame } _ _
  rw [Action.ensures_ensuring]
  exact (hx { m with current := frame }).mono (fun _ m' h => hR.inFrame m frame m' h)
    fun _ m' h => hR.inFrame m frame m' h

theorem Preserves.deeper {x : Run α} (hx : Preserves R x) : Preserves R (deeper x) := by
  intro m
  change (x.ensuring _).Ensures { m with depth := m.depth + 1 } _ _
  rw [Action.ensures_ensuring]
  exact (hx { m with depth := m.depth + 1 }).mono (fun _ m' h => hR.deeper m m' h)
    fun _ m' h => hR.deeper m m' h

omit hR in
theorem Preserves.blaming {x : Run α} (hx : Preserves R x) (paren : Token) :
    Preserves R (blaming paren x) := by
  intro m
  have h := hx m
  unfold Action.Ensures Run.blaming at *
  cases hm : x m <;> simp_all

end Rules

section Evaluation

variable (hR : Machine.Stable R) {eval : Expr → Run Value} {exec : Stmt → Run Flow}
include hR

theorem preserves_collect (heval : ∀ e, Preserves R (eval e)) (exprs : List Expr) :
    Preserves R (collect eval exprs) := by
  induction exprs with
  | nil => exact preserves_pure hR []
  | cons expr exprs ih =>
    exact .bind hR (heval expr) fun _ => .bind hR ih fun _ => preserves_pure hR _

theorem preserves_evalOption (heval : ∀ e, Preserves R (eval e)) (expr : Option Expr) :
    Preserves R (evalOption eval expr) := by
  cases expr with
  | none => exact preserves_pure hR _
  | some expr => exact heval expr

theorem preserves_sequence (hexec : ∀ s, Preserves R (exec s)) (stmts : List Stmt) :
    Preserves R (sequence exec stmts) := by
  induction stmts with
  | nil => exact preserves_pure hR _
  | cons stmt stmts ih =>
    refine .bind hR (hexec stmt) fun flow => ?_
    cases flow with
    | normal => exact ih
    | returned value => exact preserves_pure hR _

theorem preserves_callClosure (hexec : ∀ s, Preserves R (exec s)) (c : Closure)
    (arguments : List Value) : Preserves R (callClosure exec c arguments) := by
  refine .bind hR (preserves_onHeap hR fun _ => .frame _ _) fun frame => ?_
  refine .bind hR ((preserves_sequence hR hexec _).inFrame hR frame) fun flow => ?_
  split
  · exact preserves_view hR _
  · cases flow <;> exact preserves_pure hR _

theorem preserves_construct (hexec : ∀ s, Preserves R (exec s)) (place : Nat) (c : Class)
    (arguments : List Value) : Preserves R (construct exec place c arguments) := by
  refine .bind hR (preserves_onHeap hR fun _ => .inst _) fun new => ?_
  split
  · refine .bind hR (preserves_onHeap hR fun _ => .frame _ _) fun bound => ?_
    exact .bind hR (preserves_callClosure hR hexec bound arguments) fun _ => preserves_pure hR _
  · exact preserves_pure hR _

theorem preserves_call (hexec : ∀ s, Preserves R (exec s)) (callee : Callee)
    (arguments : List Value) : Preserves R (call exec callee arguments) := by
  cases callee with
  | native n => exact preserves_callNative hR n arguments
  | function c => exact preserves_callClosure hR hexec c arguments
  | cls place c => exact preserves_construct hR hexec place c arguments

theorem preserves_invoke (hexec : ∀ s, Preserves R (exec s)) (value : Value) (paren : Token)
    (arguments : List Value) : Preserves R (invoke exec value paren arguments) := by
  refine .bind hR (preserves_view hR _) fun depth => ?_
  refine .bind hR (preserves_view hR _) fun callee? => ?_
  split
  · exact preserves_fault hR _ _
  · split
    · exact preserves_fault hR _ _
    split
    · exact preserves_fault hR _ _
    · exact ((preserves_call hR hexec _ _).deeper hR).blaming paren

theorem preserves_declareFunction (declaration : FunctionDecl) :
    Preserves R (declareFunction declaration) := by
  refine .bind hR (preserves_view hR _) fun frame => ?_
  refine .bind hR (preserves_onHeap hR fun _ => .closure _) fun value => ?_
  exact preserves_define hR _ value

theorem preserves_declareClass (name : Token) (methods : List FunctionDecl) :
    Preserves R (declareClass name methods) := by
  refine .bind hR (preserves_define hR _ _) fun _ => ?_
  refine .bind hR (preserves_view hR _) fun frame => ?_
  refine .bind hR (preserves_onHeap hR fun _ => .cls _) fun value => ?_
  exact preserves_rebind hR name value _

/-- One step of evaluation keeps what the evaluation of its parts keeps. -/
theorem preserves_evalWith (heval : ∀ e, Preserves R (eval e)) (hexec : ∀ s, Preserves R (exec s))
    (expr : Expr) : Preserves R (evalWith eval exec expr) := by
  cases expr with
  | literal id value => exact preserves_pure hR _
  | grouping id inner => exact heval inner
  | unary id operator right =>
    exact .bind hR (heval right) fun _ => preserves_ofExcept hR _
  | binary id left operator right =>
    exact .bind hR (heval left) fun _ => .bind hR (heval right) fun _ => preserves_ofExcept hR _
  | logical id left operator right =>
    refine .bind hR (heval left) fun value => ?_
    split
    · exact preserves_pure hR _
    · exact heval right
  | var id name => exact preserves_readName hR id name
  | assign id name value =>
    refine .bind hR (heval value) fun v => ?_
    exact .bind hR (preserves_rebind hR name v _) fun _ => preserves_pure hR v
  | call id callee paren arguments =>
    refine .bind hR (heval callee) fun value => ?_
    refine .bind hR (preserves_collect hR heval arguments) fun values => ?_
    exact preserves_invoke hR hexec value paren values
  | get id object name =>
    refine .bind hR (heval object) fun value => ?_
    split
    · exact preserves_readProperty hR _ name
    · exact preserves_fault hR _ _
  | set id object name value =>
    refine .bind hR (heval object) fun target => ?_
    split
    · refine .bind hR (heval value) fun v => ?_
      exact .bind hR (preserves_writeField hR _ _ v) fun _ => preserves_pure hR v
    · exact preserves_fault hR _ _
  | this id keyword => exact preserves_readName hR id keyword

theorem preserves_execWith (heval : ∀ e, Preserves R (eval e)) (hexec : ∀ s, Preserves R (exec s))
    (stmt : Stmt) : Preserves R (execWith eval exec stmt) := by
  cases stmt with
  | expression expr => exact .bind hR (heval expr) fun _ => preserves_pure hR _
  | print expr =>
    refine .bind hR (heval expr) fun value => ?_
    exact .bind hR (preserves_print hR value) fun _ => preserves_pure hR _
  | varDecl name initializer =>
    refine .bind hR (preserves_evalOption hR heval initializer) fun value => ?_
    exact .bind hR (preserves_define hR _ value) fun _ => preserves_pure hR _
  | block body =>
    refine .bind hR (fun m => hR.heap m (.frame m.current ∅)) fun frame => ?_
    exact (preserves_sequence hR hexec body).inFrame hR frame
  | ifThen condition thenBranch =>
    refine .bind hR (heval condition) fun value => ?_
    split
    · exact hexec thenBranch
    · exact preserves_pure hR _
  | ifElse condition thenBranch elseBranch =>
    refine .bind hR (heval condition) fun value => ?_
    split
    · exact hexec thenBranch
    · exact hexec elseBranch
  | whileLoop condition body =>
    refine .bind hR (heval condition) fun value => ?_
    split
    · refine .bind hR (hexec body) fun flow => ?_
      cases flow with
      | normal => exact hexec _
      | returned value => exact preserves_pure hR _
    · exact preserves_pure hR _
  | funDecl declaration =>
    exact .bind hR (preserves_declareFunction hR declaration) fun _ => preserves_pure hR _
  | returnStmt keyword value =>
    exact .bind hR (preserves_evalOption hR heval value) fun _ => preserves_pure hR _
  | classDecl name methods =>
    exact .bind hR (preserves_declareClass hR name methods) fun _ => preserves_pure hR _

theorem preserves_programWith (hexec : ∀ s, Preserves R (exec s)) (stmts : List Stmt) :
    Preserves R (programWith exec stmts) := by
  induction stmts with
  | nil => exact preserves_flush hR
  | cons stmt stmts ih => exact .bind hR (hexec stmt) fun _ => ih

end Evaluation

/-- A stable relation holds across every evaluation and every execution. -/
theorem preserves_eval_exec (hR : Machine.Stable R) (fuel : Nat) :
    (∀ expr, Preserves R (eval fuel expr)) ∧ ∀ stmt, Preserves R (exec fuel stmt) := by
  induction fuel with
  | zero => exact ⟨fun _ => preserves_exhausted, fun _ => preserves_exhausted⟩
  | succ fuel ih =>
    exact ⟨preserves_evalWith hR ih.1 ih.2, preserves_execWith hR ih.1 ih.2⟩

theorem preserves_program (hR : Machine.Stable R) (fuel : Nat) (stmts : List Stmt) :
    Preserves R (program fuel stmts) :=
  preserves_programWith hR (preserves_eval_exec hR fuel).2 stmts

end Run
end LoxLang
