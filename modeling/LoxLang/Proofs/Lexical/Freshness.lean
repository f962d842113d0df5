import LoxLang.Proofs.Actions
import LoxLang.Proofs.Lexical.Desugaring

/-!
# Declarations take new locations

No location is ever taken back (`Widens`), and what a statement adds to the scope that it starts
from has locations that were not taken before (`exec_extends`). So what is declared in one round of
a loop is apart from what is declared in another, while all rounds start from the same scope.
-/
namespace LoxLang
namespace Lexical

variable {α β : Type}

/-- Locations are only added. -/
def Widens (x : Run α) : Prop :=
  ∀ t, x.Ensures t (fun _ t' => t.cells.size ≤ t'.cells.size) fun _ _ => True

/-- The second scope has the names of the first, behind others whose locations were taken between
these two states. -/
def Scope.Continues (scope scope' : Scope) (t t' : Store) : Prop :=
  ∃ new, scope'.names = new ++ scope.names ∧
    ∀ entry ∈ new, t.cells.size ≤ entry.2 ∧ entry.2 < t'.cells.size

/-- The scope of the result goes on from this one, with new locations. -/
def Extends (scope : Scope) (x : Run α) (scopeOf : α → Scope) : Prop :=
  ∀ t, x.Ensures t (fun a t' => t.cells.size ≤ t'.cells.size ∧ scope.Continues (scopeOf a) t t')
    fun _ _ => True

theorem Scope.Continues.refl (scope : Scope) (t t' : Store) : scope.Continues scope t t' :=
  ⟨[], rfl, by simp⟩

section Rules

variable {x : Run α}

theorem Widens.bind {f : α → Run β} (h : Widens x) (hf : ∀ a, Widens (f a)) : Widens (x >>= f) := by
  intro t
  rw [Action.ensures_bind]
  apply (h t).mono
  · intro a t₁ hle
    exact (hf a t₁).mono (fun _ _ hle' => Nat.le_trans hle hle') fun _ _ _ => trivial
  · intro _ _ _
    trivial

theorem widens_pure (a : α) : Widens (pure a) := fun _ => Nat.le_refl _

theorem widens_fault (token : Token) (cause : RunCause) :
    Widens (Run.fault token cause : Run α) := fun _ => trivial

theorem widens_exhausted : Widens (Action.exhausted : Run α) := fun _ => trivial

theorem widens_view (f : Store → α) : Widens (Action.view f) := fun _ => Nat.le_refl _

theorem widens_ofExcept (r : Except RunFault α) : Widens (Action.ofExcept r) := by
  intro t
  cases r with
  | ok a => exact Nat.le_refl _
  | error fault => trivial

theorem widens_update {f : Store → α × Store} (hf : ∀ t, t.cells.size ≤ (f t).2.cells.size) :
    Widens (Action.update f) := fun t => hf t

variable {scope : Scope} {scopeOf : α → Scope}

theorem Extends.widens (h : Extends scope x scopeOf) : Widens x :=
  fun t => (h t).mono (fun _ _ hx => hx.1) fun _ _ _ => trivial

theorem extends_pure {a : α} (ha : scopeOf a = scope) : Extends scope (pure a) scopeOf :=
  fun t => ⟨Nat.le_refl _, ha ▸ .refl scope t t⟩

theorem Widens.bind_extends {y : Run β} {f : β → Run α} (h : Widens y)
    (hf : ∀ b, Extends scope (f b) scopeOf) : Extends scope (y >>= f) scopeOf := by
  intro t
  rw [Action.ensures_bind]
  apply (h t).mono
  · intro b t₁ hle
    apply (hf b t₁).mono
    · intro a t₂ ha
      obtain ⟨hle', new, hnames, hnew⟩ := ha
      refine ⟨Nat.le_trans hle hle', new, hnames, fun entry hentry => ?_⟩
      exact ⟨Nat.le_trans hle (hnew entry hentry).1, (hnew entry hentry).2⟩
    · intro _ _ _
      trivial
  · intro _ _ _
    trivial

theorem Extends.bind_widens {scopeOf' : β → Scope} {f : α → Run β} (h : Extends scope x scopeOf)
    (hf : ∀ a, Widens (f a))
    (hscope : ∀ a t, (f a).Ensures t (fun b _ => scopeOf' b = scopeOf a) fun _ _ => True) :
    Extends scope (x >>= f) scopeOf' := by
  intro t
  rw [Action.ensures_bind]
  apply (h t).mono
  · intro a t₁ ha
    obtain ⟨hle, new, hnames, hnew⟩ := ha
    apply ((hf a t₁).and (hscope a t₁)).mono
    · intro b t₂ hb
      obtain ⟨hle', heq⟩ := hb
      refine ⟨Nat.le_trans hle hle', new, heq ▸ hnames, fun entry hentry => ?_⟩
      exact ⟨(hnew entry hentry).1, Nat.lt_of_lt_of_le (hnew entry hentry).2 hle'⟩
    · intro _ _ _
      trivial
  · intro _ _ _
    trivial

end Rules

section Steps

theorem size_declare (t : Store) (scope : Scope) (name : String) (value : Value) :
    t.cells.size ≤ (t.declare scope name value).cells.size := by
  unfold Store.declare
  split <;> simp

theorem continues_declare (t t₀ : Store) (scope : Scope) (name : String) (value : Value)
    (hcells : t₀.cells = t.cells) :
    scope.Continues (scope.extend name t.cells.size) t (t₀.declare scope name value) := by
  unfold Scope.extend Store.declare
  split
  · exact ⟨[(name, t.cells.size)], rfl, by simp [hcells]⟩
  · exact .refl scope t t₀

theorem extends_declare (scope : Scope) (name : String) (value : Value) :
    Extends scope (Run.declare scope name value) id :=
  fun t => ⟨size_declare t scope name value, continues_declare t t scope name value rfl⟩

theorem widens_declare (scope : Scope) (name : String) (value : Value) :
    Widens (Run.declare scope name value) := (extends_declare scope name value).widens

theorem widens_declareAll (params : List Token) (arguments : List Value) (scope : Scope) :
    Widens (Run.declareAll params arguments scope) := by
  induction params generalizing arguments scope with
  | nil => exact widens_pure scope
  | cons param params ih =>
    cases arguments with
    | nil => exact widens_pure scope
    | cons argument arguments =>
      exact (widens_declare scope param.lexeme argument).bind fun scope' => ih arguments scope'

theorem widens_readName (scope : Scope) (name : Token) : Widens (Run.readName scope name) := by
  apply (widens_view _).bind
  intro found
  cases found with
  | some value => exact widens_pure value
  | none => exact widens_fault _ _

theorem widens_writeName (scope : Scope) (name : Token) (value : Value) :
    Widens (Run.writeName scope name value) := by
  intro t
  unfold Action.Ensures Run.writeName Store.assign?
  cases scope.find? name.lexeme with
  | some location => simp
  | none => cases t.globals.contains name.lexeme <;> simp

theorem widens_bind (method : Closure) (place : Nat) : Widens (Run.bind method place) :=
  (widens_declare _ _ _).bind fun _ => widens_pure _

theorem widens_readProperty (place : Nat) (name : Token) :
    Widens (Run.readProperty place name) := by
  apply (widens_view _).bind
  intro field
  cases field with
  | some value => exact widens_pure value
  | none =>
    apply (widens_view _).bind
    intro method
    cases method with
    | none => exact widens_fault _ _
    | some method =>
      apply (widens_bind method place).bind
      intro bound
      exact widens_update fun _ => Nat.le_refl _

theorem widens_writeField (place : Nat) (name : String) (value : Value) :
    Widens (Run.writeField place name value) := fun _ => Nat.le_refl _

theorem widens_write (piece : String) : Widens (Run.write piece) := by
  intro t
  unfold Action.Ensures Run.write
  cases t.sink.write piece <;> simp

theorem widens_print (value : Value) : Widens (Run.print value) :=
  (widens_view _).bind fun _ => (widens_write _).bind fun _ => widens_write _

theorem widens_callNative (n : Native) (arguments : List Value) :
    Widens (Run.callNative n arguments) := by
  intro t
  unfold Action.Ensures Run.callNative
  dsimp only
  generalize n.run _ = result
  cases result <;> simp

theorem Widens.deeper {x : Run α} (h : Widens x) : Widens (Run.deeper x) := by
  intro t
  exact (Action.ensures_ensuring _ _).mpr (h { t with depth := t.depth + 1 })

theorem Widens.blaming {x : Run α} (h : Widens x) (paren : Token) :
    Widens (Run.blaming paren x) := by
  intro t
  have hx := h t
  unfold Action.Ensures Run.blaming at *
  cases hrun : x t <;> simp_all

end Steps

section Evaluation

variable {eval : Scope → Expr → Run Value} {exec : Scope → Stmt → Run (Flow × Scope)}

theorem widens_collect {eval : Expr → Run Value} (h : ∀ expr, Widens (eval expr))
    (exprs : List Expr) : Widens (Run.collect eval exprs) := by
  induction exprs with
  | nil => exact widens_pure []
  | cons expr exprs ih => exact (h expr).bind fun _ => ih.bind fun _ => widens_pure _

theorem widens_evalOption {eval : Expr → Run Value} (h : ∀ expr, Widens (eval expr))
    (expr : Option Expr) : Widens (Run.evalOption eval expr) := by
  cases expr with
  | none => exact widens_pure _
  | some expr => exact h expr

theorem widens_sequence (h : ∀ scope stmt, Widens (exec scope stmt)) (scope : Scope)
    (stmts : List Stmt) : Widens (Run.sequence exec scope stmts) := by
  induction stmts generalizing scope with
  | nil => exact widens_pure _
  | cons stmt stmts ih =>
    apply (h scope stmt).bind
    intro result
    obtain ⟨flow, scope'⟩ := result
    cases flow with
    | normal => exact ih scope'
    | returned value => exact widens_pure _

theorem widens_callClosure (h : ∀ scope stmt, Widens (exec scope stmt)) (c : Closure)
    (arguments : List Value) : Widens (Run.callClosure exec c arguments) := by
  apply (widens_declareAll _ _ _).bind
  intro scope
  apply (widens_sequence h scope _).bind
  intro flow
  split
  · exact widens_view _
  · cases flow <;> exact widens_pure _

theorem widens_construct (h : ∀ scope stmt, Widens (exec scope stmt)) (place : Nat) (c : Class)
    (arguments : List Value) : Widens (Run.construct exec place c arguments) := by
  apply (widens_update fun _ => Nat.le_refl _).bind
  intro new
  cases c.initializer? with
  | none => exact widens_pure _
  | some method =>
    exact (widens_bind method new).bind fun bound =>
      (widens_callClosure h bound arguments).bind fun _ => widens_pure _

theorem widens_invoke (h : ∀ scope stmt, Widens (exec scope stmt)) (value : Value) (paren : Token)
    (arguments : List Value) : Widens (Run.invoke exec value paren arguments) := by
  apply (widens_view _).bind
  intro depth
  apply (widens_view _).bind
  intro callee
  cases callee with
  | none => exact widens_fault _ _
  | some callee =>
    dsimp only
    split
    · exact widens_fault _ _
    · split
      · exact widens_fault _ _
      · apply Widens.blaming
        apply Widens.deeper
        cases callee with
        | native n => exact widens_callNative n arguments
        | function c => exact widens_callClosure h c arguments
        | cls place c => exact widens_construct h place c arguments

theorem widens_evalWith (heval : ∀ scope expr, Widens (eval scope expr))
    (hexec : ∀ scope stmt, Widens (exec scope stmt)) (scope : Scope) (expr : Expr) :
    Widens (Run.evalWith eval exec scope expr) := by
  cases expr with
  | literal id value => exact widens_pure _
  | grouping id inner => exact heval scope inner
  | unary id operator right => exact (heval scope right).bind fun _ => widens_ofExcept _
  | binary id left operator right =>
    exact (heval scope left).bind fun _ => (heval scope right).bind fun _ => widens_ofExcept _
  | logical id left operator right =>
    apply (heval scope left).bind
    intro value
    split
    · exact widens_pure _
    · exact heval scope right
  | var id name => exact widens_readName scope name
  | this id keyword => exact widens_readName scope keyword
  | assign id name value =>
    exact (heval scope value).bind fun _ =>
      (widens_writeName scope name _).bind fun _ => widens_pure _
  | call id callee paren arguments =>
    exact (heval scope callee).bind fun _ =>
      (widens_collect (heval scope) arguments).bind fun _ => widens_invoke hexec _ _ _
  | get id object name =>
    apply (heval scope object).bind
    intro value
    cases value with
    | inst place => exact widens_readProperty place name
    | _ => exact widens_fault _ _
  | set id object name value =>
    apply (heval scope object).bind
    intro target
    cases target with
    | inst place =>
      exact (heval scope value).bind fun _ =>
        (widens_writeField place name.lexeme _).bind fun _ => widens_pure _
    | _ => exact widens_fault _ _

theorem extends_declareFunction (scope : Scope) (declaration : FunctionDecl) :
    Extends scope (Run.declareFunction scope declaration) id := by
  intro t
  exact ⟨size_declare { t with closures := t.closures.push _ } scope _ _,
    continues_declare t _ scope _ _ rfl⟩

theorem extends_declareClass (scope : Scope) (name : Token) (methods : List FunctionDecl) :
    Extends scope (Run.declareClass scope name methods) id := by
  apply (extends_declare scope name.lexeme .nil).bind_widens
  · intro inner
    exact (widens_update fun _ => Nat.le_refl _).bind fun value =>
      (widens_writeName inner name value).bind fun _ => widens_pure _
  · intro inner t
    simp only [Action.ensures_bind, Action.ensures_update, Action.ensures_pure]
    exact (widens_writeName inner name _ _).mono (fun _ _ _ => trivial) fun _ _ h => h

theorem extends_execWith (heval : ∀ scope expr, Widens (eval scope expr))
    (hexec : ∀ scope stmt, Extends scope (exec scope stmt) Prod.snd) (scope : Scope) (stmt : Stmt) :
    Extends scope (Run.execWith eval exec scope stmt) Prod.snd := by
  have hwidens : ∀ scope stmt, Widens (exec scope stmt) :=
    fun scope stmt => (hexec scope stmt).widens
  cases stmt with
  | expression expr => exact (heval scope expr).bind_extends fun _ => extends_pure rfl
  | print expr =>
    exact (heval scope expr).bind_extends fun value =>
      (widens_print value).bind_extends fun _ => extends_pure rfl
  | varDecl name initializer =>
    apply (widens_evalOption (heval scope) initializer).bind_extends
    intro value
    apply (extends_declare scope name.lexeme value).bind_widens
    · exact fun _ => widens_pure _
    · exact fun _ _ => rfl
  | block body =>
    exact (widens_sequence hwidens scope.enter body).bind_extends fun _ => extends_pure rfl
  | ifThen condition thenBranch =>
    apply (heval scope condition).bind_extends
    intro value
    split
    · exact (hwidens scope thenBranch).bind_extends fun _ => extends_pure rfl
    · exact extends_pure rfl
  | ifElse condition thenBranch elseBranch =>
    apply (heval scope condition).bind_extends
    intro value
    split
    · exact (hwidens scope thenBranch).bind_extends fun _ => extends_pure rfl
    · exact (hwidens scope elseBranch).bind_extends fun _ => extends_pure rfl
  | whileLoop condition body =>
    apply (heval scope condition).bind_extends
    intro value
    split
    · apply (hwidens scope body).bind_extends
      intro result
      obtain ⟨flow, inner⟩ := result
      cases flow with
      | normal => exact hexec scope (.whileLoop condition body)
      | returned value => exact extends_pure rfl
    · exact extends_pure rfl
  | funDecl declaration =>
    apply (extends_declareFunction scope declaration).bind_widens
    · exact fun _ => widens_pure _
    · exact fun _ _ => rfl
  | returnStmt keyword value =>
    exact (widens_evalOption (heval scope) value).bind_extends fun _ => extends_pure rfl
  | classDecl name methods =>
    apply (extends_declareClass scope name methods).bind_widens
    · exact fun _ => widens_pure _
    · exact fun _ _ => rfl

end Evaluation

namespace Loops

/-- With any fuel, evaluation only adds locations, and execution extends the scope by new ones. -/
theorem widens_extends (fuel : Nat) :
    (∀ waiting scope expr, Widens (Loops.plain.eval fuel waiting scope expr)) ∧
      ∀ scope stmt, Extends scope (Loops.plain.exec fuel scope stmt) Prod.snd := by
  induction fuel with
  | zero =>
    constructor
    · intro waiting scope expr
      rw [eval]
      exact widens_exhausted
    · intro scope stmt
      rw [exec]
      exact fun _ => trivial
  | succ fuel ih =>
    obtain ⟨heval, hexec⟩ := ih
    have hwidens : ∀ scope stmt, Widens (Loops.plain.exec fuel scope stmt) :=
      fun scope stmt => (hexec scope stmt).widens
    constructor
    · intro waiting scope expr
      rw [eval]
      cases expr with
      | assign id name value =>
        apply (heval waiting scope value).bind
        intro v
        split
        · exact widens_fault _ _
        · exact (widens_writeName scope name v).bind fun _ => widens_pure _
      | _ =>
        rw [evalWith_of_ne (by simp)]
        exact widens_evalWith (heval waiting) hwidens scope _
    · intro scope stmt
      rw [exec_plain_succ]
      cases stmt with
      | varDecl name initializer =>
        exact extends_execWith (heval _) hexec scope (.varDecl name initializer)
      | _ =>
        rw [execWith_of_ne (by simp)]
        exact extends_execWith (heval none) hexec scope _

/-- What a statement adds to the scope that it starts from are new locations. -/
theorem exec_continues {loops : Loops} {fuel : Nat} {scope scope' : Scope} {stmt : Stmt}
    {flow : Flow} {t t' : Store} (h : loops.exec fuel scope stmt t = .done (flow, scope') t') :
    t.cells.size ≤ t'.cells.size ∧ scope.Continues scope' t t' := by
  rw [(unfolds loops fuel).exec] at h
  exact ((widens_extends fuel).2 scope stmt t).of_done h

/-- In a block whose statements start from this scope and state, the function is declared; it keeps
the scope that is visible there. -/
inductive Declares (loops : Loops) (fuel : Nat) :
    Scope → List Stmt → Store → Closure → Store → Prop
  | here {scope scope' : Scope} {declaration : FunctionDecl} {stmts : List Stmt} {t t' : Store}
      {flow : Flow} {c : Closure} :
    loops.exec fuel scope (.funDecl declaration) t = .done (flow, scope') t' →
    t'.closures = t.closures.push c →
    Declares loops fuel scope (.funDecl declaration :: stmts) t c t'
  | later {scope scope' : Scope} {stmt : Stmt} {stmts : List Stmt} {t t' t'' : Store}
      {c : Closure} :
    loops.exec fuel scope stmt t = .done (.normal, scope') t' →
    Declares loops fuel scope' stmts t' c t'' →
    Declares loops fuel scope (stmt :: stmts) t c t''

variable {loops : Loops} {fuel : Nat} {scope scope' : Scope} {stmts : List Stmt} {t t' : Store}

theorem scope_of_funDecl {declaration : FunctionDecl} {flow : Flow} {c : Closure}
    (h : loops.exec fuel scope (.funDecl declaration) t = .done (flow, scope') t')
    (hpush : t'.closures = t.closures.push c) : c.scope = scope' := by
  rw [(unfolds loops fuel).exec] at h
  cases fuel with
  | zero =>
    rw [exec] at h
    cases h
  | succ fuel =>
    rw [exec_plain_succ] at h
    cases h
    have hclosures (value : Value) (t : Store) (name : String) :
        (t.declare scope name value).closures = t.closures := by
      unfold Store.declare
      split <;> rfl
    rw [hclosures, Array.push_inj_right] at hpush
    rw [← hpush]

/-- What a function in a block keeps beside the scope of the block are new locations. -/
theorem Declares.continues {c : Closure} (h : Declares loops fuel scope stmts t c t') :
    t.cells.size ≤ t'.cells.size ∧ scope.Continues c.scope t t' := by
  induction h with
  | here hexec hpush =>
    rw [scope_of_funDecl hexec hpush]
    exact exec_continues hexec
  | later hexec _ ih =>
    obtain ⟨hle, new, hnames, hnew⟩ := exec_continues hexec
    obtain ⟨hle', new', hnames', hnew'⟩ := ih
    refine ⟨Nat.le_trans hle hle', new' ++ new, by rw [hnames', hnames, List.append_assoc], ?_⟩
    intro entry hentry
    rcases List.mem_append.mp hentry with hentry | hentry
    · exact ⟨Nat.le_trans hle (hnew' entry hentry).1, (hnew' entry hentry).2⟩
    · exact ⟨(hnew entry hentry).1, Nat.lt_of_lt_of_le (hnew entry hentry).2 hle'⟩

/-- Two functions that are declared from the same scope, one later than the other, share what is
visible there and nothing else. -/
theorem Declares.apart {fuel' : Nat} {stmts' : List Stmt} {t₁ t₂ u₁ u₂ : Store} {c₁ c₂ : Closure}
    (h₁ : Declares loops fuel scope stmts t₁ c₁ u₁) (hlater : u₁.cells.size ≤ t₂.cells.size)
    (h₂ : Declares loops fuel' scope stmts' t₂ c₂ u₂) :
    ∃ own₁ own₂, c₁.scope.names = own₁ ++ scope.names ∧ c₂.scope.names = own₂ ++ scope.names ∧
      ∀ x ∈ own₁, ∀ y ∈ own₂, x.2 ≠ y.2 := by
  obtain ⟨-, own₁, hnames₁, hown₁⟩ := h₁.continues
  obtain ⟨-, own₂, hnames₂, hown₂⟩ := h₂.continues
  refine ⟨own₁, own₂, hnames₁, hnames₂, fun x hx y hy => ?_⟩
  have hx := (hown₁ x hx).2
  have hy := (hown₂ y hy).1
  omega

end Loops
end Lexical
end LoxLang
