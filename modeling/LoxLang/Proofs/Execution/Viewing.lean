import Mathlib.Tactic.ByContra
import Mathlib.Tactic.SplitIfs
import LoxLang.Proofs.Execution.Renumbering
import LoxLang.Proofs.Relabeling

/-!
# Runs that are seen otherwise

Nothing that a program does depends on the lines it stands on; only the faults that stop it name
them. Nor does it depend on the identities of expressions, as long as the same distances are found
for them. So a machine can be seen through a `Viewing`: its code on other lines and with other
identities, with more output before its own, and with other distances; and a run can be seen as one
with more fuel. Unless a distance is looked up that differs, a run that is seen this way is the run
that starts from what is seen (`Viewing.program_eq_outcome`).
-/
namespace LoxLang

/-- How a machine is seen. -/
structure Viewing where
  /-- The line that is seen for a line. -/
  line : Nat → Nat
  /-- The identity that is seen for an identity. -/
  key : Nat → Nat
  /-- The distances of the machine, and those that are seen. -/
  own : Distances
  seen : Distances
  /-- The pieces that are seen before the output of the machine, newest first. -/
  earlier : List String
  /-- The fuel that is seen beyond that of the machine. -/
  extra : Nat
  /-- The points of a run from which on nothing is seen. -/
  stop : Expr → Machine → Prop

namespace Viewing

variable (v : Viewing)

def expr (e : Expr) : Expr := (e.relabel v.key).renumber v.line

def stmt (s : Stmt) : Stmt := (s.relabel v.key).renumber v.line

def stmts (s : List Stmt) : List Stmt := Stmt.renumberAll v.line (Stmt.relabelAll v.key s)

def recoding : Recoding where
  code declaration := (declaration.relabel v.key).renumber v.line
  name declaration := by simp
  params declaration := by simp [Function.comp_def]

def sink (s : Sink) : Sink := { s with pending := s.pending ++ v.earlier }

def machine (m : Machine) : Machine :=
  { m with heap := m.heap.recode v.recoding, distances := v.seen, sink := v.sink m.sink }

theorem machine_eq_of_key {v : Viewing} (hkey : v.key = fun id => id) (m : Machine) :
    v.machine m = { m with
      heap := m.heap.renumber v.line, distances := v.seen, sink := v.sink m.sink } := by
  have hheap : m.heap.recode v.recoding = m.heap.renumber v.line :=
    Heap.recode_eq_renumber (fun _ => by simp [recoding, hkey]) m.heap
  rw [machine, hheap]

theorem stmts_eq_of_key {v : Viewing} (hkey : v.key = fun id => id) (s : List Stmt) :
    v.stmts s = Stmt.renumberAll v.line s := by
  simp [stmts, hkey]

/-- Nothing is said about what is seen of this: it was stopped, or had too little fuel. -/
def Hides {α : Type} (o : Outcome Machine RunFault α) : Prop :=
  ((∃ expr m, v.stop expr m) ∧ ∃ m, o = .failed .stopped m) ∨ v.extra ≠ 0 ∧ o = .exhausted

/-- What `x` comes to is seen as what `y` comes to, and its values through `φ`. -/
def Shows {α β : Type} (φ : α → β) (x : Run α) (y : Run β) : Prop :=
  ∀ m, m.distances = v.own → v.Hides (x m) ∨
    Action.Related x y m (v.machine m)
      (fun a b n n' => b = φ a ∧ n' = v.machine n ∧ n.distances = v.own)
      fun e d n n' => d = e.renumber v.line ∧ n' = v.machine n ∧ n.distances = v.own

variable {α β γ δ : Type} {v} {φ : α → β} {ψ : γ → δ}

section Rules

theorem hides_bind {x : Run α} {m : Machine} (h : v.Hides (x m)) (p : α → Run γ) :
    v.Hides ((x >>= p) m) := by
  rw [Action.bind_apply]
  rcases h with ⟨hpoint, n, hstop⟩ | ⟨hextra, hexhausted⟩
  · rw [hstop]
    exact .inl ⟨hpoint, n, rfl⟩
  · rw [hexhausted]
    exact .inr ⟨hextra, rfl⟩

theorem hides_ensuring {x : Run α} {m : Machine} (h : v.Hides (x m))
    (restore : Machine → Machine) : v.Hides (x.ensuring restore m) := by
  unfold Action.ensuring
  rcases h with ⟨hpoint, n, hstop⟩ | ⟨hextra, hexhausted⟩
  · rw [hstop]
    exact .inl ⟨hpoint, restore n, rfl⟩
  · rw [hexhausted]
    exact .inr ⟨hextra, rfl⟩

theorem Shows.bind {x : Run α} {y : Run β} {p : α → Run γ} {q : β → Run δ} (h : v.Shows φ x y)
    (hnext : ∀ a, v.Shows ψ (p a) (q (φ a))) : v.Shows ψ (x >>= p) (y >>= q) := by
  intro m hm
  rcases h m hm with hhidden | hrel
  · exact .inl (hides_bind hhidden p)
  · unfold Action.Related at hrel ⊢
    rw [Action.bind_apply, Action.bind_apply]
    cases hx : x m <;> cases hy : y (v.machine m) <;> simp only [hx, hy] at hrel ⊢
    case done.done =>
      obtain ⟨rfl, rfl, hn⟩ := hrel
      exact hnext _ _ hn
    case failed.failed => exact .inr hrel
    case exhausted.exhausted => exact .inr trivial

theorem shows_pure {a : α} {b : β} (h : φ a = b) : v.Shows φ (pure a) (pure b) :=
  fun _ hm => .inr ⟨h.symm, rfl, hm⟩

theorem shows_exhausted : v.Shows φ Action.exhausted Action.exhausted := fun _ _ => .inr trivial

theorem shows_fault (token : Token) (cause : RunCause) :
    v.Shows φ (Run.fault token cause) (Run.fault (token.renumber v.line) cause) :=
  fun _ hm => .inr ⟨rfl, rfl, hm⟩

theorem shows_view {g : Machine → α} {g' : Machine → β}
    (h : ∀ m, m.distances = v.own → g' (v.machine m) = φ (g m)) :
    v.Shows φ (Action.view g) (Action.view g') :=
  fun m hm => .inr ⟨h m hm, rfl, hm⟩

theorem shows_change {g g' : Machine → Machine} (h : ∀ m, g' (v.machine m) = v.machine (g m))
    (hdistances : ∀ m, (g m).distances = m.distances) :
    v.Shows id (Action.change g) (Action.change g') :=
  fun m hm => .inr ⟨rfl, h m, (hdistances m).trans hm⟩

theorem shows_onHeap {g : Heap → α × Heap} {g' : Heap → β × Heap}
    (h : ∀ heap : Heap, g' (heap.recode v.recoding) =
      (φ (g heap).1, (g heap).2.recode v.recoding)) :
    v.Shows φ (Run.onHeap g) (Run.onHeap g') := by
  intro m hm
  refine .inr ⟨?_, ?_, hm⟩
  · simp [machine, h]
  · simp [machine, h]

theorem shows_ofExcept {r r' : Except RunFault α}
    (h : r' = r.mapError (RunFault.renumber v.line)) :
    v.Shows id (Action.ofExcept r) (Action.ofExcept r') := by
  intro m hm
  subst h
  cases r with
  | ok a => exact .inr ⟨rfl, rfl, hm⟩
  | error e => exact .inr ⟨rfl, rfl, hm⟩

theorem Shows.inFrame {x : Run α} {y : Run β} (h : v.Shows φ x y) (frame : Nat) :
    v.Shows φ (Run.inFrame frame x) (Run.inFrame frame y) := by
  intro m hm
  rcases h { m with current := frame } hm with hhidden | hrel
  · exact .inl (hides_ensuring hhidden _)
  · right
    apply Action.related_ensuring
    apply hrel.mono
    · rintro a b n n' ⟨rfl, rfl, hn⟩
      exact ⟨rfl, rfl, hn⟩
    · rintro e d n n' ⟨rfl, rfl, hn⟩
      exact ⟨rfl, rfl, hn⟩

theorem Shows.deeper {x : Run α} {y : Run β} (h : v.Shows φ x y) :
    v.Shows φ (Run.deeper x) (Run.deeper y) := by
  intro m hm
  rcases h { m with depth := m.depth + 1 } hm with hhidden | hrel
  · exact .inl (hides_ensuring hhidden _)
  · right
    apply Action.related_ensuring
    apply hrel.mono
    · rintro a b n n' ⟨rfl, rfl, hn⟩
      exact ⟨rfl, rfl, hn⟩
    · rintro e d n n' ⟨rfl, rfl, hn⟩
      exact ⟨rfl, rfl, hn⟩

theorem Shows.blaming {x : Run α} {y : Run β} (h : v.Shows φ x y) (paren : Token) :
    v.Shows φ (Run.blaming paren x) (Run.blaming (paren.renumber v.line) y) := by
  intro m hm
  rcases h m hm with (⟨hpoint, n, hstop⟩ | ⟨hextra, hexhausted⟩) | hrel
  · exact .inl (.inl ⟨hpoint, n, by simp [Run.blaming, hstop, RunFault.blame, RunFault.stopped]⟩)
  · exact .inl (.inr ⟨hextra, by simp [Run.blaming, hexhausted]⟩)
  · unfold Action.Related at hrel ⊢
    cases hx : x m <;> cases hy : y (v.machine m) <;> simp only [hx, hy, Run.blaming] at hrel ⊢
    case done.done => exact .inr hrel
    case failed.failed fault n fault' n' =>
      obtain ⟨rfl, rfl, hn⟩ := hrel
      exact .inr ⟨fault.blame_renumber v.line paren, rfl, hn⟩
    case exhausted.exhausted => exact .inr trivial

end Rules

section Steps

theorem shows_define (name : String) (value : Value) :
    v.Shows id (Run.define name value) (Run.define name value) :=
  shows_change (fun _ => rfl) fun _ => rfl

theorem shows_rebind (name : Token) (value : Value) {holder? holder?' : Machine → Option Nat}
    (h : ∀ m, m.distances = v.own → holder?' (v.machine m) = holder? m) :
    v.Shows id (Run.rebind name value holder?)
      (Run.rebind (name.renumber v.line) value holder?') := by
  apply (shows_view (φ := id) h).bind
  rintro (_ | frame)
  · exact shows_fault name _
  · exact shows_change (fun _ => rfl) fun _ => rfl

theorem shows_assignAlong (name : Token) (value : Value) :
    v.Shows id (Run.assignAlong name value) (Run.assignAlong (name.renumber v.line) value) :=
  shows_rebind name value fun _ _ => rfl

/-- A name is read in the same way where its distance is the same. -/
theorem shows_readName {key : Nat} (hkey : v.seen[v.key key]? = v.own[key]?) (name : Token) :
    v.Shows id (Run.readName key name) (Run.readName (v.key key) (name.renumber v.line)) := by
  have hvalue : ∀ m : Machine, m.distances = v.own →
      (v.machine m).valueOf? (v.key key) name.lexeme = m.valueOf? key name.lexeme := by
    intro m hm
    simp only [Machine.valueOf?, Machine.distance?, machine, hkey, hm]
    rfl
  apply (shows_view (φ := id) hvalue).bind
  rintro (_ | value)
  · exact shows_fault name _
  · exact shows_pure rfl

theorem shows_writeName {key : Nat} (hkey : v.seen[v.key key]? = v.own[key]?) (name : Token)
    (value : Value) : v.Shows id (Run.writeName key name value)
      (Run.writeName (v.key key) (name.renumber v.line) value) := by
  apply shows_rebind
  intro m hm
  simp only [Machine.holderOf?, Machine.distance?, machine, hkey, hm]
  rfl

theorem shows_readProperty (place : Nat) (name : Token) :
    v.Shows id (Run.readProperty place name) (Run.readProperty place (name.renumber v.line)) := by
  have hfield : v.Shows id (Action.view (·.heap.field? place name.lexeme))
      (Action.view (·.heap.field? place name.lexeme)) := shows_view fun _ _ => rfl
  apply hfield.bind
  rintro (_ | value)
  · have hmethod : v.Shows (Option.map (Closure.recode v.recoding))
        (Action.view (·.heap.method? place name.lexeme))
        (Action.view (·.heap.method? place name.lexeme)) :=
      shows_view fun m _ => m.heap.method?_recode v.recoding place name.lexeme
    apply hmethod.bind
    rintro (_ | method)
    · exact shows_fault name _
    · have hbind : v.Shows (Closure.recode v.recoding) (Run.onHeap (·.bind method place))
          (Run.onHeap (·.bind (method.recode v.recoding) place)) := shows_onHeap fun _ => rfl
      apply hbind.bind
      intro bound
      exact shows_onHeap fun heap => heap.addClosure_recode v.recoding bound
  · exact shows_pure rfl

theorem shows_writeField (place : Nat) (name : String) (value : Value) :
    v.Shows id (Run.writeField place name value) (Run.writeField place name value) :=
  shows_change (fun _ => rfl) fun _ => rfl

theorem shows_write (piece : String) : v.Shows id (Run.write piece) (Run.write piece) := by
  intro m hm
  right
  have hwrite : (v.machine m).sink.write piece = (m.sink.write piece).map v.sink := by
    have hclosed : (v.machine m).sink.isClosed = m.sink.isClosed := rfl
    unfold Sink.write
    rw [hclosed]
    cases piece.isEmpty <;> cases m.sink.isClosed <;> rfl
  unfold Action.Related Run.write
  rw [hwrite]
  cases m.sink.write piece with
  | ok sink => exact ⟨rfl, rfl, hm⟩
  | error cause => exact ⟨rfl, rfl, hm⟩

theorem shows_print (value : Value) : v.Shows id (Run.print value) (Run.print value) := by
  have htext : v.Shows id (Action.view (·.heap.text value)) (Action.view (·.heap.text value)) :=
    shows_view fun m _ => m.heap.text_recode v.recoding value
  apply htext.bind
  intro text
  apply (shows_write text).bind
  intro _
  exact shows_write "\n"

theorem shows_flush : v.Shows id Run.flush Run.flush := by
  intro m hm
  right
  unfold Action.Related Run.flush
  have hflush : (v.machine m).sink.flush = m.sink.flush := rfl
  rw [hflush]
  cases m.sink.flush with
  | ok _ => exact ⟨rfl, rfl, hm⟩
  | error cause => exact ⟨rfl, rfl, hm⟩

theorem shows_callNative (n : Native) (arguments : List Value) :
    v.Shows id (Run.callNative n arguments) (Run.callNative n arguments) := by
  intro m hm
  right
  have htext : (v.machine m).heap.text = m.heap.text := funext (m.heap.text_recode v.recoding)
  have hcall : NativeCall.mk arguments (arguments.map (v.machine m).heap.text)
      ((v.machine m).readings (v.machine m).taken) =
        ⟨arguments, arguments.map m.heap.text, m.readings m.taken⟩ := by
    rw [htext]
    rfl
  unfold Action.Related Run.callNative
  dsimp only
  rw [hcall]
  cases n.run ⟨arguments, arguments.map m.heap.text, m.readings m.taken⟩ with
  | ok value => exact ⟨rfl, rfl, hm⟩
  | error text => exact ⟨rfl, rfl, hm⟩

end Steps

section Evaluation

variable {eval eval' : Expr → Run Value} {exec exec' : Stmt → Run Flow}

/-- Parts of a program that are seen as the same parts in other code. -/
structure ShowsParts (v : Viewing) (eval eval' : Expr → Run Value) (exec exec' : Stmt → Run Flow) :
    Prop where
  eval : ∀ expr, v.Shows id (eval expr) (eval' (v.expr expr))
  exec : ∀ stmt, v.Shows id (exec stmt) (exec' (v.stmt stmt))

namespace ShowsParts

variable (h : v.ShowsParts eval eval' exec exec')

include h

theorem collect (exprs : List Expr) :
    v.Shows id (Run.collect eval exprs)
      (Run.collect eval' (Expr.renumberAll v.line (Expr.relabelAll v.key exprs))) := by
  induction exprs with
  | nil => exact shows_pure rfl
  | cons expr exprs ih =>
    apply (h.eval expr).bind
    intro value
    apply ih.bind
    intro values
    exact shows_pure rfl

theorem evalOption (expr : Option Expr) :
    v.Shows id (Run.evalOption eval expr)
      (Run.evalOption eval'
        ((expr.map (Expr.relabel v.key)).map (Expr.renumber v.line))) := by
  cases expr with
  | none => exact shows_pure rfl
  | some expr => exact h.eval expr

theorem sequence (stmts : List Stmt) :
    v.Shows id (Run.sequence exec stmts) (Run.sequence exec' (v.stmts stmts)) := by
  induction stmts with
  | nil => exact shows_pure rfl
  | cons stmt stmts ih =>
    apply (h.exec stmt).bind
    rintro (_ | value)
    · exact ih
    · exact shows_pure rfl

theorem callClosure (c : Closure) (arguments : List Value) :
    v.Shows id (Run.callClosure exec c arguments)
      (Run.callClosure exec' (c.recode v.recoding) arguments) := by
  have hvars : Run.bindAll (c.recode v.recoding).declaration.params arguments ∅ =
      Run.bindAll c.declaration.params arguments ∅ :=
    Run.bindAll_congr (v.recoding.params c.declaration) arguments ∅
  have hbody : (c.recode v.recoding).declaration.body = v.stmts c.declaration.body := by
    simp [Closure.recode, recoding, Viewing.stmts]
  unfold Run.callClosure
  rw [hvars, hbody]
  apply Shows.bind (shows_onHeap (φ := id) fun _ => rfl)
  intro frame
  apply ((h.sequence c.declaration.body).inFrame frame).bind
  intro flow
  change v.Shows id (if c.isInitializer then _ else _) (if c.isInitializer then _ else _)
  split
  · exact shows_view fun _ _ => rfl
  · cases flow with
    | normal => exact shows_pure rfl
    | returned value => exact shows_pure rfl

theorem call (callee : Callee) (arguments : List Value) :
    v.Shows id (Run.call exec callee arguments)
      (Run.call exec' (callee.recode v.recoding) arguments) := by
  cases callee with
  | native n => exact shows_callNative n arguments
  | function c => exact h.callClosure c arguments
  | cls place c =>
    apply Shows.bind (shows_onHeap (φ := id) fun _ => rfl)
    intro new
    rw [Class.initializer?_recode]
    cases c.initializer? with
    | none => exact shows_pure rfl
    | some method =>
      apply Shows.bind (shows_onHeap (φ := Closure.recode v.recoding) fun _ => rfl)
      intro bound
      apply (h.callClosure bound arguments).bind
      intro _
      exact shows_pure rfl

theorem invoke (value : Value) (paren : Token) (arguments : List Value) :
    v.Shows id (Run.invoke exec value paren arguments)
      (Run.invoke exec' value (paren.renumber v.line) arguments) := by
  have hdepth : v.Shows id (Action.view Machine.depth) (Action.view Machine.depth) :=
    shows_view fun _ _ => rfl
  have hcallee : v.Shows (Option.map (Callee.recode v.recoding))
      (Action.view (·.heap.callee? value)) (Action.view (·.heap.callee? value)) :=
    shows_view fun m _ => m.heap.callee?_recode v.recoding value
  apply hdepth.bind
  intro depth
  apply hcallee.bind
  rintro (_ | callee)
  · exact shows_fault paren _
  · dsimp only [Option.map_some, id]
    rw [Callee.arity_recode]
    split_ifs
    · exact shows_fault paren _
    · exact shows_fault paren _
    · exact (h.call callee arguments).deeper.blaming paren

end ShowsParts

theorem shows_declareFunction (declaration : FunctionDecl) :
    v.Shows id (Run.declareFunction declaration)
      (Run.declareFunction (v.recoding.code declaration)) := by
  have hframe : v.Shows id (Action.view Machine.current) (Action.view Machine.current) :=
    shows_view fun _ _ => rfl
  apply hframe.bind
  intro frame
  have hclosure : v.Shows id (Run.onHeap (·.addClosure ⟨declaration, frame, false⟩))
      (Run.onHeap (·.addClosure ⟨v.recoding.code declaration, frame, false⟩)) :=
    shows_onHeap fun heap => heap.addClosure_recode v.recoding ⟨declaration, frame, false⟩
  apply hclosure.bind
  intro value
  rw [v.recoding.name]
  exact shows_define _ value

theorem map_recoding (methods : List FunctionDecl) :
    methods.map v.recoding.code =
      FunctionDecl.renumberAll v.line (FunctionDecl.relabelAll v.key methods) := by
  induction methods with
  | nil => rfl
  | cons method methods ih => exact congrArg (v.recoding.code method :: ·) ih

theorem shows_declareClass (name : Token) (methods : List FunctionDecl) :
    v.Shows id (Run.declareClass name methods)
      (Run.declareClass (name.renumber v.line)
        (FunctionDecl.renumberAll v.line (FunctionDecl.relabelAll v.key methods))) := by
  rw [← map_recoding]
  have hframe : v.Shows id (Action.view Machine.current) (Action.view Machine.current) :=
    shows_view fun _ _ => rfl
  apply (shows_define _ _).bind
  intro _
  apply hframe.bind
  intro frame
  have hclass : v.Shows id
      (Run.onHeap (·.addClass ⟨name.lexeme, Run.methodTable frame methods ∅⟩))
      (Run.onHeap (·.addClass ⟨name.lexeme,
        Run.methodTable frame (methods.map v.recoding.code) ∅⟩)) := by
    have htable := Run.methodTable_recode v.recoding frame methods ∅
    rw [show (∅ : Table Closure).map (Closure.recode v.recoding) = ∅ from rfl] at htable
    rw [htable]
    exact shows_onHeap fun heap =>
      heap.addClass_recode v.recoding ⟨name.lexeme, Run.methodTable frame methods ∅⟩
  apply hclass.bind
  intro value
  exact shows_assignAlong name value

theorem unary_renumber (f : Nat → Nat) (operator : Token) (right : Value) :
    right.unary (operator.renumber f) = (right.unary operator).mapError (RunFault.renumber f) := by
  unfold Value.unary
  rw [Token.kind_renumber]
  split
  · split <;> rfl
  · rfl
  · rfl

theorem binary_renumber (f : Nat → Nat) (operator : Token) (left right : Value) :
    left.binary (operator.renumber f) right =
      (left.binary operator right).mapError (RunFault.renumber f) := by
  unfold Value.binary
  rw [Token.kind_renumber]
  split
  · split <;> rfl
  · rfl
  · rfl
  · split
    · split <;> rfl
    · rfl

theorem ShowsParts.evalWith (h : v.ShowsParts eval eval' exec exec') {expr : Expr}
    (hsame : v.seen[v.key expr.id]? = v.own[expr.id]?) :
    v.Shows id (Run.evalWith eval exec expr) (Run.evalWith eval' exec' (v.expr expr)) := by
  cases expr with
  | literal key value => exact shows_pure rfl
  | grouping key inner => exact h.eval inner
  | unary key operator right =>
    apply (h.eval right).bind
    intro right
    exact shows_ofExcept (unary_renumber v.line operator right)
  | binary key left operator right =>
    apply (h.eval left).bind
    intro left
    apply (h.eval right).bind
    intro right
    exact shows_ofExcept (binary_renumber v.line operator left right)
  | logical key left operator right =>
    apply (h.eval left).bind
    intro left
    change v.Shows id (if left.isTruthy = decide (operator.kind = .orKw) then pure left else _)
      (if left.isTruthy = decide (operator.kind = .orKw) then pure left else _)
    split_ifs
    · exact shows_pure rfl
    · exact h.eval right
  | var key name => exact shows_readName hsame name
  | this key keyword => exact shows_readName hsame keyword
  | assign key name value =>
    apply (h.eval value).bind
    intro value
    apply (shows_writeName hsame name value).bind
    intro _
    exact shows_pure rfl
  | call key callee paren arguments =>
    apply (h.eval callee).bind
    intro callee
    apply (h.collect arguments).bind
    intro arguments
    exact h.invoke callee paren arguments
  | get key object name =>
    apply (h.eval object).bind
    intro object
    cases object <;> first
      | exact shows_readProperty _ name
      | exact shows_fault name _
  | set key object name value =>
    apply (h.eval object).bind
    intro object
    cases object
    case inst place =>
      apply (h.eval value).bind
      intro value
      apply (shows_writeField place name.lexeme value).bind
      intro _
      exact shows_pure rfl
    all_goals exact shows_fault name _

theorem ShowsParts.execWith (h : v.ShowsParts eval eval' exec exec') (stmt : Stmt) :
    v.Shows id (Run.execWith eval exec stmt) (Run.execWith eval' exec' (v.stmt stmt)) := by
  cases stmt with
  | expression expr =>
    apply (h.eval expr).bind
    intro _
    exact shows_pure rfl
  | print expr =>
    apply (h.eval expr).bind
    intro value
    apply (shows_print value).bind
    intro _
    exact shows_pure rfl
  | varDecl name initializer =>
    apply (h.evalOption initializer).bind
    intro value
    apply (shows_define name.lexeme value).bind
    intro _
    exact shows_pure rfl
  | block body =>
    have hframe : v.Shows id
        (Action.update fun m => ((m.heap.addFrame (some m.current) ∅).1,
          { m with heap := (m.heap.addFrame (some m.current) ∅).2 }))
        (Action.update fun m => ((m.heap.addFrame (some m.current) ∅).1,
          { m with heap := (m.heap.addFrame (some m.current) ∅).2 })) :=
      fun m hm => .inr ⟨rfl, rfl, hm⟩
    apply hframe.bind
    intro frame
    exact (h.sequence body).inFrame frame
  | ifThen condition thenBranch =>
    apply (h.eval condition).bind
    intro value
    dsimp only [id]
    split_ifs
    · exact h.exec thenBranch
    · exact shows_pure rfl
  | ifElse condition thenBranch elseBranch =>
    apply (h.eval condition).bind
    intro value
    dsimp only [id]
    split_ifs
    · exact h.exec thenBranch
    · exact h.exec elseBranch
  | whileLoop condition body =>
    apply (h.eval condition).bind
    intro value
    dsimp only [id]
    split_ifs
    · apply (h.exec body).bind
      rintro (_ | value)
      · exact h.exec (.whileLoop condition body)
      · exact shows_pure rfl
    · exact shows_pure rfl
  | funDecl declaration =>
    apply (shows_declareFunction declaration).bind
    intro _
    exact shows_pure rfl
  | returnStmt keyword value =>
    apply (h.evalOption value).bind
    intro value
    exact shows_pure rfl
  | classDecl name methods =>
    apply (shows_declareClass name methods).bind
    intro _
    exact shows_pure rfl

end Evaluation

/-- The distances of an expression differ between the machine and what is seen of it. -/
def Differs (v : Viewing) (expr : Expr) : Prop := v.seen[v.key expr.id]? ≠ v.own[expr.id]?

section Runs

variable {fuel : Nat} {program : List Stmt} {m : Machine}

/-- Up to an expression whose distances differ, evaluation and execution are seen as what they are
in other code and with more fuel. -/
theorem showsParts_until (hstop : ∀ expr m, v.Differs expr → v.stop expr m) (fuel : Nat) :
    v.ShowsParts (Run.evalUntil v.stop fuel) (Run.eval (fuel + v.extra))
      (Run.execUntil v.stop fuel) (Run.exec (fuel + v.extra)) := by
  induction fuel with
  | zero =>
    by_cases hextra : v.extra = 0
    · rw [hextra]
      constructor
      · intro expr
        rw [Run.evalUntil, Run.eval]
        exact shows_exhausted
      · intro stmt
        rw [Run.execUntil, Run.exec]
        exact shows_exhausted
    · exact ⟨fun _ _ _ => .inl (.inr ⟨hextra, rfl⟩), fun _ _ _ => .inl (.inr ⟨hextra, rfl⟩)⟩
  | succ fuel ih =>
    have hfuel : fuel + 1 + v.extra = fuel + v.extra + 1 := by omega
    rw [hfuel]
    constructor
    · intro expr m hm
      rw [Run.evalUntil, Run.eval]
      by_cases hpoint : v.stop expr m
      · left
        left
        exact ⟨⟨expr, m, hpoint⟩, m, by simp [Run.checkpoint, hpoint, Action.bind_apply]⟩
      · have hsame : v.seen[v.key expr.id]? = v.own[expr.id]? := by
          by_contra hdiffers
          exact hpoint (hstop expr m hdiffers)
        have hpass : (Run.checkpoint v.stop expr >>= fun _ => Run.evalWith
            (Run.evalUntil v.stop fuel) (Run.execUntil v.stop fuel) expr) m =
              Run.evalWith (Run.evalUntil v.stop fuel) (Run.execUntil v.stop fuel) expr m := by
          simp [Run.checkpoint, hpoint, Action.bind_apply]
        have hshows := ih.evalWith hsame m hm
        unfold Action.Related at hshows ⊢
        rw [hpass]
        exact hshows
    · intro stmt
      rw [Run.execUntil, Run.exec]
      exact ih.execWith stmt

theorem shows_program_until (hstop : ∀ expr m, v.Differs expr → v.stop expr m) (fuel : Nat)
    (program : List Stmt) :
    v.Shows id (Run.programWith (Run.execUntil v.stop fuel) program)
      (Run.program (fuel + v.extra) (v.stmts program)) := by
  unfold Run.program
  induction program with
  | nil => exact shows_flush
  | cons stmt program ih =>
    apply ((showsParts_until hstop fuel).exec stmt).bind
    intro _
    exact ih

def outcome (v : Viewing) : Outcome Machine RunFault Unit → Outcome Machine RunFault Unit
  | .done () m => .done () (v.machine m)
  | .failed fault m => .failed (fault.renumber v.line) (v.machine m)
  | .exhausted => .exhausted

theorem Shows.eq_outcome {x y : Run Unit} (h : v.Shows id x y) (hm : m.distances = v.own)
    (hvisible : ¬ v.Hides (x m)) : y (v.machine m) = v.outcome (x m) := by
  have hrel := (h m hm).resolve_left hvisible
  unfold Action.Related at hrel
  cases hx : x m <;> cases hy : y (v.machine m) <;> simp only [hx, hy] at hrel
  case done.done =>
    obtain ⟨-, rfl, -⟩ := hrel
    rfl
  case failed.failed =>
    obtain ⟨rfl, rfl, -⟩ := hrel
    rfl
  case exhausted.exhausted => rfl

def plain (distances : Distances) (extra : Nat) (stop : Expr → Machine → Prop) : Viewing :=
  ⟨fun line => line, fun id => id, distances, distances, [], extra, stop⟩

theorem machine_plain {distances : Distances} {extra : Nat} {stop : Expr → Machine → Prop}
    (h : m.distances = distances) : (plain distances extra stop).machine m = m := by
  subst h
  rw [machine_eq_of_key rfl]
  simp [plain, sink]

theorem Shows.eq_of_plain {x y : Run Unit} {extra : Nat} {stop : Expr → Machine → Prop}
    (h : (plain m.distances extra stop).Shows id x y)
    (hvisible : ¬ (plain m.distances extra stop).Hides (x m)) : y m = x m := by
  have hrel := (h m rfl).resolve_left hvisible
  rw [machine_plain rfl] at hrel
  unfold Action.Related at hrel
  cases hx : x m <;> cases hy : y m <;> simp only [hx, hy] at hrel
  case done.done =>
    obtain ⟨-, rfl, hdistances⟩ := hrel
    exact congrArg (Outcome.done ()) (machine_plain hdistances)
  case failed.failed fault n fault' n' =>
    obtain ⟨rfl, rfl, hdistances⟩ := hrel
    exact congrArg₂ Outcome.failed fault.renumber_id (machine_plain hdistances)
  case exhausted.exhausted => rfl

theorem shows_program_plain (distances : Distances) (extra : Nat) (stop : Expr → Machine → Prop)
    (fuel : Nat) (program : List Stmt) : (plain distances extra stop).Shows id
      (Run.programWith (Run.execUntil stop fuel) program) (Run.program (fuel + extra) program) := by
  have hshows := shows_program_until (v := plain distances extra stop)
    (fun _ _ hdiffers => absurd rfl hdiffers) fuel program
  have hcode : (plain distances extra stop).stmts program = program := by
    rw [stmts_eq_of_key rfl]
    exact Stmt.renumberAll_id program
  rw [hcode] at hshows
  exact hshows

/-- A run with breakpoints that is not stopped is the run without them. -/
theorem program_until_eq {stop : Expr → Machine → Prop}
    (hpass : ∀ m', Run.programWith (Run.execUntil stop fuel) program m ≠ .failed .stopped m') :
    Run.program fuel program m = Run.programWith (Run.execUntil stop fuel) program m := by
  apply (shows_program_plain m.distances 0 stop fuel program).eq_of_plain
  rintro (⟨-, m', hstopped⟩ | ⟨hextra, -⟩)
  · exact hpass m' hstopped
  · exact hextra rfl

theorem program_mono {fuel' : Nat} (hle : fuel ≤ fuel')
    (henough : Run.program fuel program m ≠ .exhausted) :
    Run.program fuel' program m = Run.program fuel program m := by
  have hshows := shows_program_plain m.distances (fuel' - fuel) (fun _ _ => False) fuel program
  rw [(Run.evalUntil_execUntil_never fuel).2, Nat.add_sub_cancel' hle] at hshows
  apply hshows.eq_of_plain
  rintro (⟨⟨_, _, hpoint⟩, -⟩ | ⟨-, hexhausted⟩)
  · exact hpoint
  · exact henough hexhausted

/-- A program is seen as the same program in other code and with more fuel, if it is not stopped and
has fuel enough. -/
theorem program_eq_outcome (hstop : ∀ expr m, v.Differs expr → v.stop expr m)
    (hm : m.distances = v.own)
    (hpass : ∀ m', Run.programWith (Run.execUntil v.stop fuel) program m ≠ .failed .stopped m')
    (hfuel : v.extra = 0 ∨ Run.program fuel program m ≠ .exhausted) :
    Run.program (fuel + v.extra) (v.stmts program) (v.machine m) =
      v.outcome (Run.program fuel program m) := by
  rw [program_until_eq hpass] at hfuel ⊢
  apply (shows_program_until hstop fuel program).eq_outcome hm
  rintro (⟨-, m', hstopped⟩ | ⟨hextra, hexhausted⟩)
  · exact hpass m' hstopped
  · exact hfuel.elim hextra fun h => h hexhausted

/-- The same where no distances differ, so that nothing has to be stopped. -/
theorem program_eq_outcome_of_same (v : Viewing) (hsame : ∀ id, v.seen[v.key id]? = v.own[id]?)
    (hnever : v.stop = fun _ _ => False) (fuel : Nat) (program : List Stmt)
    (hm : m.distances = v.own) (hfuel : v.extra = 0 ∨ Run.program fuel program m ≠ .exhausted) :
    Run.program (fuel + v.extra) (v.stmts program) (v.machine m) =
      v.outcome (Run.program fuel program m) := by
  have hshows := shows_program_until (v := v)
    (fun expr _ hdiffers => absurd (hsame expr.id) hdiffers) fuel program
  rw [hnever, (Run.evalUntil_execUntil_never fuel).2] at hshows
  apply hshows.eq_outcome hm
  rintro (⟨⟨expr, n, hpoint⟩, -⟩ | ⟨hextra, hexhausted⟩)
  · rw [hnever] at hpoint
    exact hpoint
  · exact hfuel.elim hextra fun h => h hexhausted

end Runs

end Viewing
end LoxLang
