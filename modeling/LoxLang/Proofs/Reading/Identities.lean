import Mathlib.Data.List.Perm.Subperm
import Mathlib.Tactic
import LoxLang.Grammar.Statement
import LoxLang.Proofs.Actions
import LoxLang.Proofs.Reading.Ahead

/-!
# Identities of a program that was read

Identities are given out in order while a program is read. A reader takes over the identities of
the parts that it is handed and gives back those of what it builds: `Allots` keeps account of them,
so that no identity is used twice, also where a part is dropped on the way.
-/
namespace LoxLang

mutual

def Expr.ids : Expr → List Nat
  | .literal id _ | .var id _ | .this id _ => [id]
  | .grouping id inner | .unary id _ inner | .assign id _ inner | .get id inner _ =>
    inner.ids ++ [id]
  | .binary id left _ right | .logical id left _ right | .set id left _ right =>
    left.ids ++ right.ids ++ [id]
  | .call id callee _ arguments => callee.ids ++ Expr.idsAll arguments ++ [id]

def Expr.idsAll : List Expr → List Nat
  | [] => []
  | expr :: exprs => expr.ids ++ Expr.idsAll exprs

end

def Expr.idsOption : Option Expr → List Nat
  | none => []
  | some expr => expr.ids

mutual

def Stmt.ids : Stmt → List Nat
  | .expression expr | .print expr => expr.ids
  | .varDecl _ initializer => Expr.idsOption initializer
  | .block body => Stmt.idsAll body
  | .ifThen condition thenBranch => condition.ids ++ thenBranch.ids
  | .ifElse condition thenBranch elseBranch => condition.ids ++ thenBranch.ids ++ elseBranch.ids
  | .whileLoop condition body => condition.ids ++ body.ids
  | .funDecl declaration => declaration.ids
  | .returnStmt _ value => Expr.idsOption value
  | .classDecl _ methods => FunctionDecl.idsAll methods

def Stmt.idsAll : List Stmt → List Nat
  | [] => []
  | stmt :: stmts => stmt.ids ++ Stmt.idsAll stmts

def FunctionDecl.ids : FunctionDecl → List Nat
  | ⟨_, _, body⟩ => Stmt.idsAll body

def FunctionDecl.idsAll : List FunctionDecl → List Nat
  | [] => []
  | declaration :: declarations => declaration.ids ++ FunctionDecl.idsAll declarations

end

/-- Pairwise distinct numbers of the range from `low` up to `high`. -/
def DistinctWithin (low high : Nat) (ids : List Nat) : Prop :=
  ids.Nodup ∧ ∀ id ∈ ids, low ≤ id ∧ id < high

namespace DistinctWithin

variable {low middle high : Nat} {ids others : List Nat}

@[simp] theorem nil : DistinctWithin low high [] := by simp [DistinctWithin]

theorem of_subperm (h : DistinctWithin low high ids) (hs : others.Subperm ids) :
    DistinctWithin low high others := by
  obtain ⟨list, hperm, hsub⟩ := id hs
  exact ⟨hperm.nodup_iff.mp (h.1.sublist hsub), fun id hid => h.2 id (hs.subset hid)⟩

theorem append (h : DistinctWithin low middle ids) (h' : DistinctWithin middle high others)
    (hle : low ≤ middle) (hle' : middle ≤ high) : DistinctWithin low high (ids ++ others) := by
  refine ⟨List.nodup_append.mpr ⟨h.1, h'.1, ?_⟩, ?_⟩
  · intro a ha b hb hab
    have := (h.2 a ha).2
    have := (h'.2 b hb).1
    omega
  · intro id hid
    rcases List.mem_append.mp hid with hid | hid
    · have := h.2 id hid
      omega
    · have := h'.2 id hid
      omega

end DistinctWithin

namespace Reading

variable {α β : Type}

/-- The reader gives out identities in order. Provided that those in `held` are distinct and were
given out before, those in what it reads are distinct, too. -/
def Allots (p : Reading α) (held : List Nat) (ids : α → List Nat) : Prop :=
  ∀ c low, low ≤ c.nextId → DistinctWithin low c.nextId held →
    p.Ensures c (fun a c' => c.nextId ≤ c'.nextId ∧ DistinctWithin low c'.nextId (ids a))
      fun _ c' => c.nextId ≤ c'.nextId

def GivesNone (p : Reading α) : Prop :=
  ∀ c, p.Ensures c (fun _ c' => c'.nextId = c.nextId) fun _ c' => c'.nextId = c.nextId

section Rules

variable {p : Reading α} {held : List Nat} {ids : α → List Nat}

theorem GivesNone.allots (h : GivesNone p) (held : List Nat) : Allots p held fun _ => held := by
  intro c low hlow hheld
  refine (h c).mono ?_ ?_
  · intro a c' hc
    rw [hc]
    exact ⟨le_rfl, hheld⟩
  · intro e c' hc
    exact hc.ge

theorem Allots.bind {q : α → Reading β} {ids' : β → List Nat} (hp : Allots p held ids)
    (hq : ∀ a, Allots (q a) (ids a) ids') : Allots (p >>= q) held ids' := by
  intro c low hlow hheld
  rw [Action.ensures_bind]
  refine (hp c low hlow hheld).mono ?_ fun _ _ h => h
  rintro a c' ⟨hle, hids⟩
  refine (hq a c' low (hlow.trans hle) hids).mono ?_ fun _ _ h => hle.trans h
  rintro b c'' ⟨hle', hids'⟩
  exact ⟨hle.trans hle', hids'⟩

/-- A reader that needs nothing leaves alone what is held. -/
theorem Allots.frame (h : Allots p [] ids) (held : List Nat) :
    Allots p held fun a => held ++ ids a := by
  intro c low hlow hheld
  refine (h c c.nextId le_rfl .nil).mono ?_ fun _ _ h => h
  rintro a c' ⟨hle, hids⟩
  exact ⟨hle, hheld.append hids hlow hle⟩

theorem Allots.hold {held' : List Nat} (h : Allots p held ids) (hs : held.Subperm held') :
    Allots p held' ids :=
  fun c low hlow hheld => h c low hlow (hheld.of_subperm hs)

theorem Allots.pure {a : α} (h : (ids a).Subperm held) : Allots (pure a) held ids := by
  intro c low hlow hheld
  exact ⟨le_rfl, hheld.of_subperm h⟩

theorem Allots.fail {fault : GrammarFault} : Allots (Action.fail fault) held ids :=
  fun _ _ _ _ => le_rfl

theorem Allots.exhausted : Allots Action.exhausted held ids := fun _ _ _ _ => trivial

/-- A new expression may hold what is held and one identity more. -/
theorem Allots.node {build : Nat → Expr} (h : ∀ id, (build id).ids.Subperm (held ++ [id])) :
    Allots (node build) held Expr.ids := by
  intro c low hlow hheld
  refine ⟨Nat.le_succ _, ?_⟩
  have hnew : DistinctWithin c.nextId (c.nextId + 1) [c.nextId] := by
    simp [DistinctWithin]
  exact (hheld.append hnew hlow (Nat.le_succ _)).of_subperm (h c.nextId)

end Rules

theorem givesNone_peek : GivesNone peek := fun _ => rfl

theorem givesNone_isAtEnd : GivesNone isAtEnd := fun _ => rfl

theorem givesNone_nextKind : GivesNone nextKind := fun _ => rfl

theorem givesNone_advance : GivesNone advance := Cursor.nextId_advance

theorem givesNone_resume : GivesNone resume := Cursor.nextId_synchronize

theorem givesNone_note (fault : GrammarFault) : GivesNone (note fault) := fun _ => rfl

theorem givesNone_complain (cause : GrammarCause) : GivesNone (complain cause) := fun _ => rfl

theorem givesNone_takeIf (p : Kind → Bool) : GivesNone (takeIf p) := by
  intro c
  simp only [takeIf, Action.ensures_update]
  split
  · exact c.nextId_advance
  · rfl

theorem givesNone_accept (kind : Kind) : GivesNone (accept kind) := fun c => by
  simpa [accept] using givesNone_takeIf _ c

theorem givesNone_want (kind : Kind) (wanted : Wanted) : GivesNone (want kind wanted) := by
  intro c
  rw [want, Action.ensures_bind]
  refine (givesNone_takeIf _ c).mono ?_ fun _ _ h => h
  rintro (_ | token) c' hc
  · exact hc
  · exact hc

theorem givesNone_checkCount (count : Nat) (cause : GrammarCause) :
    GivesNone (checkCount count cause) := by
  unfold checkCount
  split
  · exact givesNone_complain _
  · exact fun _ => rfl

theorem allots_listUntil {list : Reading (List α)} {ids : List α → List Nat} {stop : Kind}
    (h : Allots list [] ids) (hnil : (ids []).Subperm []) :
    Allots (listUntil stop list) [] ids := by
  refine ((givesNone_nextKind).allots []).bind fun kind => ?_
  split
  · exact .pure hnil
  · exact h

/-- The parts of an assignment are those of its target, but for the identity of the target itself,
and those of its value. -/
theorem ids_assignment? {target value : Expr} {build : Nat → Expr}
    (h : assignment? target value = some build) (id : Nat) :
    (build id).ids.Sublist (target.ids ++ value.ids ++ [id]) := by
  cases target <;> simp only [assignment?, Option.some.injEq, reduceCtorEq] at h
  case var => simp [← h, Expr.ids]
  case get => simp [← h, Expr.ids]

theorem ids_combine (level : Level) (left : Expr) (operator : Token) (right : Expr) (id : Nat) :
    (level.combine left operator right id).ids = left.ids ++ right.ids ++ [id] := by
  cases level <;> rfl

theorem allots_constant (value : Literal) : Allots (constant value) [] Expr.ids :=
  ((givesNone_advance).allots []).bind fun _ => .node fun _ => .refl _

structure ExpressionsAllot (fuel : Nat) : Prop where
  expression : Allots (expression fuel) [] Expr.ids
  operation : ∀ level, Allots (operation fuel level) [] Expr.ids
  operands : ∀ level left, Allots (operands fuel level left) left.ids Expr.ids
  suffixes : ∀ expr, Allots (suffixes fuel expr) expr.ids Expr.ids
  arguments : ∀ count, Allots (arguments fuel count) [] Expr.idsAll
  primary : Allots (primary fuel) [] Expr.ids

namespace ExpressionsAllot

variable {fuel : Nat}

theorem expression_succ (h : ExpressionsAllot fuel) :
    Allots (Reading.expression (fuel + 1)) [] Expr.ids := by
  rw [Reading.expression]
  refine (h.operation .or).bind fun target => ?_
  refine ((givesNone_takeIf _).allots target.ids).bind ?_
  rintro (_ | equals)
  · exact .pure (.refl _)
  refine (h.expression.frame target.ids).bind fun value => ?_
  split
  · next build hbuild => exact .node fun id => (ids_assignment? hbuild id).subperm
  · refine ((givesNone_note _).allots _).bind fun _ => .pure ?_
    exact (List.sublist_append_left _ _).subperm

theorem operation_succ (h : ExpressionsAllot fuel) (level : Level) :
    Allots (Reading.operation (fuel + 1) level) [] Expr.ids := by
  by_cases hlevel : level = .unary
  · subst hlevel
    rw [Reading.operation]
    refine ((givesNone_takeIf _).allots []).bind ?_
    rintro (_ | operator)
    · exact h.primary.bind h.suffixes
    · exact (h.operation .unary).bind fun right => .node fun _ => .refl _
  · rw [Reading.operation]
    · exact (h.operation level.tighter).bind fun left => h.operands level left
    · exact hlevel

theorem operands_succ (h : ExpressionsAllot fuel) (level : Level) (left : Expr) :
    Allots (Reading.operands (fuel + 1) level left) left.ids Expr.ids := by
  rw [Reading.operands]
  refine ((givesNone_takeIf _).allots left.ids).bind ?_
  rintro (_ | operator)
  · exact .pure (.refl _)
  refine ((h.operation level.tighter).frame left.ids).bind fun right => ?_
  refine Allots.bind (.node fun id => ?_) fun expr => h.operands level expr
  rw [ids_combine]

theorem suffixes_succ (h : ExpressionsAllot fuel) (expr : Expr) :
    Allots (Reading.suffixes (fuel + 1) expr) expr.ids Expr.ids := by
  rw [Reading.suffixes]
  refine ((givesNone_nextKind).allots expr.ids).bind fun kind => ?_
  split
  · refine ((givesNone_advance).allots expr.ids).bind fun _ => ?_
    refine ((allots_listUntil (h.arguments 0) (.refl _)).frame expr.ids).bind fun args => ?_
    refine ((givesNone_want _ _).allots _).bind fun paren => ?_
    exact Allots.bind (.node fun id => .refl _) h.suffixes
  · refine ((givesNone_advance).allots expr.ids).bind fun _ => ?_
    refine ((givesNone_want _ _).allots expr.ids).bind fun name => ?_
    exact Allots.bind (.node fun id => .refl _) h.suffixes
  · exact .pure (.refl _)

theorem arguments_succ (h : ExpressionsAllot fuel) (count : Nat) :
    Allots (Reading.arguments (fuel + 1) count) [] Expr.idsAll := by
  rw [Reading.arguments]
  refine ((givesNone_checkCount _ _).allots []).bind fun _ => ?_
  refine h.expression.bind fun argument => ?_
  refine ((givesNone_accept _).allots argument.ids).bind fun more => ?_
  split
  · refine ((h.arguments (count + 1)).frame argument.ids).bind fun arguments => ?_
    exact .pure (.refl _)
  · refine .pure ?_
    simpa [Expr.idsAll] using List.Subperm.refl _

theorem primary_succ (h : ExpressionsAllot fuel) :
    Allots (Reading.primary (fuel + 1)) [] Expr.ids := by
  rw [Reading.primary]
  refine ((givesNone_peek).allots []).bind fun token => ?_
  split
  · exact allots_constant _
  · exact allots_constant _
  · exact allots_constant _
  · exact allots_constant _
  · exact allots_constant _
  · exact ((givesNone_advance).allots []).bind fun _ => .node fun _ => .refl _
  · exact ((givesNone_advance).allots []).bind fun _ => .node fun _ => .refl _
  · refine ((givesNone_advance).allots []).bind fun _ => h.expression.bind fun inner => ?_
    exact ((givesNone_want _ _).allots inner.ids).bind fun _ => .node fun _ => .refl _
  · exact .fail

end ExpressionsAllot

theorem expressionsAllot (fuel : Nat) : ExpressionsAllot fuel := by
  induction fuel with
  | zero =>
    constructor
    · exact .exhausted
    · exact fun _ => .exhausted
    · exact fun _ _ => .exhausted
    · exact fun _ => .exhausted
    · exact fun _ => .exhausted
    · exact .exhausted
  | succ fuel ih =>
    exact ⟨ih.expression_succ, ih.operation_succ, ih.operands_succ, ih.suffixes_succ,
      ih.arguments_succ, ih.primary_succ⟩

theorem allots_optionalExpression (fuel : Nat) (stop : Kind) :
    Allots (optionalExpression fuel stop) [] Expr.idsOption := by
  refine ((givesNone_nextKind).allots []).bind fun kind => ?_
  split
  · exact .pure (.refl _)
  · exact (expressionsAllot fuel).expression.bind fun expr => .pure (.refl _)

theorem allots_initializer (fuel : Nat) : Allots (initializer fuel) [] Expr.idsOption := by
  refine ((givesNone_accept _).allots []).bind fun equal => ?_
  split
  · exact (expressionsAllot fuel).expression.bind fun expr => .pure (.refl _)
  · exact .pure (.refl _)

theorem allots_varDeclaration (fuel : Nat) : Allots (varDeclaration fuel) [] Stmt.ids := by
  refine ((givesNone_want _ _).allots []).bind fun name => ?_
  refine (allots_initializer fuel).bind fun initializer => ?_
  exact ((givesNone_want _ _).allots _).bind fun _ => .pure (.refl _)

theorem allots_expressionStatement (fuel : Nat) :
    Allots (expressionStatement fuel) [] Stmt.ids := by
  refine (expressionsAllot fuel).expression.bind fun expr => ?_
  exact ((givesNone_want _ _).allots _).bind fun _ => .pure (.refl _)

theorem allots_printStatement (fuel : Nat) : Allots (printStatement fuel) [] Stmt.ids := by
  refine (expressionsAllot fuel).expression.bind fun expr => ?_
  exact ((givesNone_want _ _).allots _).bind fun _ => .pure (.refl _)

theorem allots_returnStatement (fuel : Nat) (keyword : Token) :
    Allots (returnStatement fuel keyword) [] Stmt.ids := by
  refine (allots_optionalExpression fuel _).bind fun value => ?_
  exact ((givesNone_want _ _).allots _).bind fun _ => .pure (.refl _)

theorem allots_condition (fuel : Nat) (opening closing : Wanted) :
    Allots (condition fuel opening closing) [] Expr.ids := by
  refine ((givesNone_want _ _).allots []).bind fun _ => ?_
  refine (expressionsAllot fuel).expression.bind fun expr => ?_
  exact ((givesNone_want _ _).allots _).bind fun _ => .pure (.refl _)

theorem givesNone_parameters (fuel count : Nat) : GivesNone (parameters fuel count) := by
  induction fuel generalizing count with
  | zero => exact fun _ => trivial
  | succ fuel ih =>
    intro c
    simp only [parameters, Action.ensures_bind]
    refine (givesNone_checkCount _ _ c).mono (fun _ c₁ h₁ => ?_) fun _ _ h => h
    rw [← h₁]
    refine (givesNone_want _ _ c₁).mono (fun parameter c₂ h₂ => ?_) fun _ _ h => h
    rw [← h₂]
    refine (givesNone_accept _ c₂).mono (fun more c₃ h₃ => ?_) fun _ _ h => h
    rw [← h₃]
    split
    · simpa using ih (count + 1) c₃
    · exact rfl

/-- The identities of the clauses of a `for`, in the order in which they are read. -/
def ForClauses.ids (clauses : ForClauses) : List Nat :=
  (clauses.initializer.elim [] Stmt.ids) ++ Expr.idsOption clauses.condition ++
    Expr.idsOption clauses.increment

theorem allots_forInitializer (fuel : Nat) :
    Allots (forInitializer fuel) [] fun initializer => initializer.elim [] Stmt.ids := by
  refine ((givesNone_nextKind).allots []).bind fun kind => ?_
  split
  · exact ((givesNone_advance).allots []).bind fun _ => .pure (.refl _)
  · refine ((givesNone_advance).allots []).bind fun _ => ?_
    exact (allots_varDeclaration fuel).bind fun _ => .pure (.refl _)
  · exact (allots_expressionStatement fuel).bind fun _ => .pure (.refl _)

theorem allots_forClauses (fuel : Nat) : Allots (forClauses fuel) [] ForClauses.ids := by
  refine ((givesNone_want _ _).allots []).bind fun _ => ?_
  refine (allots_forInitializer fuel).bind fun initializer => ?_
  refine ((allots_optionalExpression fuel _).frame _).bind fun condition => ?_
  refine ((givesNone_want _ _).allots _).bind fun _ => ?_
  refine ((allots_optionalExpression fuel _).frame _).bind fun increment => ?_
  exact ((givesNone_want _ _).allots _).bind fun _ => .pure (.refl _)

theorem allots_conditionOrTrue (condition : Option Expr) (held : List Nat) :
    Allots (conditionOrTrue condition) (held ++ Expr.idsOption condition)
      fun condition => held ++ condition.ids := by
  cases condition with
  | none =>
    have h : Allots (node fun id => .literal id (.bool true)) [] Expr.ids := .node fun _ => .refl _
    simpa [conditionOrTrue, Expr.idsOption] using h.frame held
  | some condition => exact .pure (.refl _)

/-- The parts of a loop are those of its clauses and its body, in another order. -/
theorem ids_forLoop (initializer : Option Stmt) (condition : Expr) (increment : Option Expr)
    (body : Stmt) :
    (forLoop initializer condition increment body).ids.Perm
      (initializer.elim [] Stmt.ids ++ Expr.idsOption increment ++ body.ids ++ condition.ids) := by
  rw [List.perm_iff_count]
  intro id
  cases initializer <;> cases increment <;>
    simp [forLoop, Stmt.ids, Stmt.idsAll, Expr.idsOption] <;> omega

structure StatementsAllot (fuel : Nat) : Prop where
  declaration : Allots (declaration fuel) [] fun stmt => stmt.elim [] Stmt.ids
  declared : Allots (declared fuel) [] Stmt.ids
  routine : ∀ kind, Allots (routine fuel kind) [] FunctionDecl.ids
  methods : Allots (methods fuel) [] FunctionDecl.idsAll
  block : Allots (block fuel) [] Stmt.idsAll
  declarations : ∀ stop, Allots (declarations fuel stop) [] Stmt.idsAll
  statement : Allots (statement fuel) [] Stmt.ids

namespace StatementsAllot

variable {fuel : Nat}

theorem declaration_succ (h : StatementsAllot fuel) :
    Allots (Reading.declaration (fuel + 1)) [] fun stmt => stmt.elim [] Stmt.ids := by
  rw [Reading.declaration]
  -- a failure keeps the identities that were given out, and drops what was built
  have hattempt : Allots (Action.attempt (Reading.declared fuel)) []
      (Except.rec (motive := fun _ => List Nat) (fun _ => []) Stmt.ids) := by
    intro c low hlow _
    rw [Action.ensures_attempt]
    exact (h.declared c low hlow .nil).mono (fun _ _ h => h) fun _ _ hle => ⟨hle, .nil⟩
  refine hattempt.bind ?_
  rintro (fault | stmt)
  · refine ((givesNone_note _).allots []).bind fun _ => ?_
    exact ((givesNone_resume).allots []).bind fun _ => .pure (.refl _)
  · exact .pure (.refl _)

theorem declared_succ (h : StatementsAllot fuel) :
    Allots (Reading.declared (fuel + 1)) [] Stmt.ids := by
  rw [Reading.declared]
  refine ((givesNone_nextKind).allots []).bind fun kind => ?_
  split
  · refine ((givesNone_advance).allots []).bind fun _ => ?_
    refine ((givesNone_want _ _).allots []).bind fun name => ?_
    refine ((givesNone_want _ _).allots []).bind fun _ => ?_
    refine h.methods.bind fun methods => ?_
    exact ((givesNone_want _ _).allots _).bind fun _ => .pure (.refl _)
  · refine ((givesNone_advance).allots []).bind fun _ => ?_
    exact (h.routine _).bind fun declaration => .pure (.refl _)
  · exact ((givesNone_advance).allots []).bind fun _ => allots_varDeclaration fuel
  · exact h.statement

theorem routine_succ (h : StatementsAllot fuel) (kind : Routine) :
    Allots (Reading.routine (fuel + 1) kind) [] FunctionDecl.ids := by
  rw [Reading.routine]
  refine ((givesNone_want _ _).allots []).bind fun name => ?_
  refine ((givesNone_want _ _).allots []).bind fun _ => ?_
  have hparams := (givesNone_parameters fuel 0).allots []
  refine (allots_listUntil hparams (.refl _)).bind fun params => ?_
  refine ((givesNone_want _ _).allots []).bind fun _ => ?_
  refine ((givesNone_want _ _).allots []).bind fun _ => ?_
  exact h.block.bind fun body => .pure (.refl _)

theorem methods_succ (h : StatementsAllot fuel) :
    Allots (Reading.methods (fuel + 1)) [] FunctionDecl.idsAll := by
  rw [Reading.methods]
  refine ((givesNone_isAtEnd).allots []).bind fun atEnd => ?_
  refine ((givesNone_nextKind).allots []).bind fun kind => ?_
  split
  · exact .pure (.refl _)
  · refine (h.routine _).bind fun method => ?_
    exact (h.methods.frame method.ids).bind fun methods => .pure (.refl _)

theorem block_succ (h : StatementsAllot fuel) :
    Allots (Reading.block (fuel + 1)) [] Stmt.idsAll := by
  rw [Reading.block]
  refine (h.declarations _).bind fun body => ?_
  exact ((givesNone_want _ _).allots _).bind fun _ => .pure (.refl _)

theorem declarations_succ (h : StatementsAllot fuel) (stop : Kind) :
    Allots (Reading.declarations (fuel + 1) stop) [] Stmt.idsAll := by
  rw [Reading.declarations]
  refine ((givesNone_isAtEnd).allots []).bind fun atEnd => ?_
  refine ((givesNone_nextKind).allots []).bind fun kind => ?_
  split
  · exact .pure (.refl _)
  · refine h.declaration.bind fun stmt => ?_
    refine ((h.declarations stop).frame _).bind fun stmts => .pure ?_
    cases stmt with
    | none => exact .refl _
    | some stmt => exact .refl _

theorem statement_succ (h : StatementsAllot fuel) :
    Allots (Reading.statement (fuel + 1)) [] Stmt.ids := by
  rw [Reading.statement]
  refine ((givesNone_peek).allots []).bind fun token => ?_
  split
  · refine ((givesNone_advance).allots []).bind fun _ => ?_
    refine (allots_forClauses fuel).bind fun clauses => ?_
    refine (h.statement.frame clauses.ids).bind fun body => ?_
    -- an absent condition gets its identity last, so the condition is moved behind the rest
    refine ((allots_conditionOrTrue clauses.condition _).hold ?_).bind fun condition =>
      .pure (ids_forLoop _ _ _ _).subperm
    refine (List.perm_iff_count.mpr fun id => ?_).subperm
    simp only [ForClauses.ids, List.count_append]
    omega
  · refine ((givesNone_advance).allots []).bind fun _ => ?_
    refine (allots_condition fuel _ _).bind fun condition => ?_
    refine (h.statement.frame condition.ids).bind fun thenBranch => ?_
    refine ((givesNone_accept _).allots _).bind fun hasElse => ?_
    split
    · refine (h.statement.frame _).bind fun elseBranch => .pure (.refl _)
    · exact .pure (.refl _)
  · refine ((givesNone_advance).allots []).bind fun _ => ?_
    refine (allots_condition fuel _ _).bind fun condition => ?_
    exact (h.statement.frame condition.ids).bind fun body => .pure (.refl _)
  · exact ((givesNone_advance).allots []).bind fun _ => allots_returnStatement fuel token
  · refine ((givesNone_advance).allots []).bind fun _ => ?_
    exact h.block.bind fun body => .pure (.refl _)
  · exact ((givesNone_advance).allots []).bind fun _ => allots_printStatement fuel
  · exact allots_expressionStatement fuel

end StatementsAllot

theorem statementsAllot (fuel : Nat) : StatementsAllot fuel := by
  induction fuel with
  | zero =>
    constructor
    · exact .exhausted
    · exact .exhausted
    · exact fun _ => .exhausted
    · exact .exhausted
    · exact .exhausted
    · exact fun _ => .exhausted
    · exact .exhausted
  | succ fuel ih =>
    exact ⟨ih.declaration_succ, ih.declared_succ, ih.routine_succ, ih.methods_succ, ih.block_succ,
      ih.declarations_succ, ih.statement_succ⟩

end Reading

namespace Program

/-- Identities in a program that was read are distinct and lie between the first one and the next
free one, whether there were faults or not. -/
theorem distinctWithin_ofTokens (tokens : List Token) (firstId : Nat) :
    firstId ≤ (ofTokens tokens firstId).nextId ∧
      DistinctWithin firstId (ofTokens tokens firstId).nextId
        (Stmt.idsAll (ofTokens tokens firstId).statements) := by
  have h := (Reading.statementsAllot (fuelFor tokens.length)).declarations .eof
    (Cursor.start tokens firstId) firstId le_rfl .nil
  unfold ofTokens
  split
  · next hdone => exact h.of_done hdone
  · next hfailed => exact ⟨h.of_failed hfailed, .nil⟩
  · exact ⟨le_rfl, .nil⟩

end Program
end LoxLang
