import LoxLang.Grammar.Statement
import LoxLang.Proofs.Actions
import LoxLang.Proofs.Reading.Ahead

/-!
# The form of a program that was read

Tokens in a program come from the tokens that were read, names are identifiers, and `this` is its
keyword. The grammar lets a declaration stand in a list of declarations only: the branches of an
`if` and the body of a loop, which are executed or not, never declare a name in the scope around
them.
-/
namespace LoxLang

/-- A token that can stand for a name. -/
def Token.IsName (G : Token → Prop) (name : Token) : Prop := name.kind = .identifier ∧ G name

mutual

/-- All tokens in an expression satisfy `G`, and those that name or refer to something have the kind
that goes with it. -/
def Expr.Formed (G : Token → Prop) : Expr → Prop
  | .literal _ _ => True
  | .grouping _ inner => inner.Formed G
  | .unary _ operator right => G operator ∧ right.Formed G
  | .binary _ left operator right | .logical _ left operator right =>
    left.Formed G ∧ G operator ∧ right.Formed G
  | .var _ name => name.IsName G
  | .assign _ name value => name.IsName G ∧ value.Formed G
  | .call _ callee paren arguments => callee.Formed G ∧ G paren ∧ Expr.FormedAll G arguments
  | .get _ object name => object.Formed G ∧ name.IsName G
  | .set _ object name value => object.Formed G ∧ name.IsName G ∧ value.Formed G
  | .this _ keyword => keyword.kind = .thisKw ∧ G keyword

def Expr.FormedAll (G : Token → Prop) : List Expr → Prop
  | [] => True
  | expr :: exprs => expr.Formed G ∧ Expr.FormedAll G exprs

end

def Expr.FormedOption (G : Token → Prop) : Option Expr → Prop
  | none => True
  | some expr => expr.Formed G

/-- Declarations bind a name in the scope that they stand in. -/
def Stmt.isDeclaration : Stmt → Bool
  | .varDecl _ _ | .funDecl _ | .classDecl _ _ => true
  | _ => false

mutual

/-- The expressions and names in a statement are formed, and branches and loop bodies are no
declarations. -/
def Stmt.Formed (G : Token → Prop) : Stmt → Prop
  | .expression expr | .print expr => expr.Formed G
  | .varDecl name initializer => name.IsName G ∧ Expr.FormedOption G initializer
  | .block body => Stmt.FormedAll G body
  | .ifThen condition thenBranch =>
    condition.Formed G ∧ thenBranch.isDeclaration = false ∧ thenBranch.Formed G
  | .ifElse condition thenBranch elseBranch =>
    condition.Formed G ∧ (thenBranch.isDeclaration = false ∧ thenBranch.Formed G) ∧
      elseBranch.isDeclaration = false ∧ elseBranch.Formed G
  | .whileLoop condition body => condition.Formed G ∧ body.isDeclaration = false ∧ body.Formed G
  | .funDecl declaration => declaration.Formed G
  | .returnStmt keyword value => G keyword ∧ Expr.FormedOption G value
  | .classDecl name methods => name.IsName G ∧ FunctionDecl.FormedAll G methods

def Stmt.FormedAll (G : Token → Prop) : List Stmt → Prop
  | [] => True
  | stmt :: stmts => stmt.Formed G ∧ Stmt.FormedAll G stmts

def FunctionDecl.Formed (G : Token → Prop) : FunctionDecl → Prop
  | ⟨name, params, body⟩ =>
    name.IsName G ∧ (∀ param ∈ params, param.IsName G) ∧ Stmt.FormedAll G body

def FunctionDecl.FormedAll (G : Token → Prop) : List FunctionDecl → Prop
  | [] => True
  | declaration :: declarations => declaration.Formed G ∧ FunctionDecl.FormedAll G declarations

end

/-- What stands where a statement is required. -/
def Stmt.IsStatement (G : Token → Prop) (stmt : Stmt) : Prop :=
  stmt.isDeclaration = false ∧ stmt.Formed G

namespace Cursor

variable {G : Token → Prop}

/-- The tokens ahead satisfy `G`. -/
def Holds (G : Token → Prop) (c : Cursor) : Prop := ∀ token ∈ c.ahead, G token

theorem Holds.later {c c' : Cursor} (h : c.Holds G) (hahead : c'.ahead ⊆ c.ahead) : c'.Holds G :=
  fun token htoken => h token (hahead htoken)

theorem Holds.advance {c : Cursor} (h : c.Holds G) : c.advance.Holds G := by
  apply h.later
  rw [ahead_advance]
  exact List.drop_subset _ _

theorem mem_of_mem_resume {token : Token} {tokens : List Token} (h : token ∈ resume tokens) :
    token ∈ tokens := by
  induction tokens with
  | nil => simp [resume] at h
  | cons skipped rest ih =>
    unfold resume at h
    split at h
    · exact List.mem_cons_of_mem _ h
    split at h
    · exact List.mem_cons_of_mem _ h
    · exact List.mem_cons_of_mem _ (ih h)

theorem Holds.synchronize {c : Cursor} (h : c.Holds G) : c.synchronize.Holds G :=
  h.later fun _ htoken => mem_of_mem_resume (c.ahead_synchronize ▸ htoken)

end Cursor

namespace Reading

variable {α β : Type} {G : Token → Prop}

/-- Whatever is read from tokens that satisfy `G` satisfies `P`. -/
def Yields (G : Token → Prop) (p : Reading α) (P : α → Prop) : Prop :=
  ∀ c, c.Holds G → p.Ensures c (fun a c' => c'.Holds G ∧ P a) fun _ c' => c'.Holds G

section Rules

variable {p : Reading α} {P P' : α → Prop}

theorem Yields.bind {q : α → Reading β} {P' : β → Prop} (hp : Yields G p P)
    (hq : ∀ a, P a → Yields G (q a) P') : Yields G (p >>= q) P' := by
  intro c hc
  rw [Action.ensures_bind]
  exact (hp c hc).mono (fun a c' h => hq a h.2 c' h.1) fun _ _ h => h

theorem Yields.mono (h : Yields G p P) (hP : ∀ a, P a → P' a) : Yields G p P' :=
  fun c hc => (h c hc).mono (fun a _ h => ⟨h.1, hP a h.2⟩) fun _ _ h => h

theorem Yields.pure {a : α} (h : P a) : Yields G (pure a) P := fun _ hc => ⟨hc, h⟩

theorem Yields.exhausted : Yields G Action.exhausted P := fun _ _ => trivial

theorem Yields.fail {fault : GrammarFault} : Yields G (Action.fail fault) P := fun _ hc => hc

theorem Yields.node {build : Nat → Expr} {P : Expr → Prop} (h : ∀ id, P (build id)) :
    Yields G (node build) P := fun _ hc => ⟨hc, h _⟩

end Rules

theorem yields_peek : Yields G peek fun token => token.kind ≠ .eof → G token := by
  intro c hc
  refine ⟨hc, fun hkind => ?_⟩
  rw [Cursor.peek_eq] at hkind ⊢
  cases hahead : c.ahead with
  | nil => simp [hahead, c.kind_ending] at hkind
  | cons token rest => exact hc token (by simp [hahead])

theorem yields_isAtEnd : Yields G isAtEnd fun _ => True := fun _ hc => ⟨hc, trivial⟩

theorem yields_nextKind : Yields G nextKind fun _ => True := fun _ hc => ⟨hc, trivial⟩

theorem yields_advance : Yields G advance fun _ => True := fun _ hc => ⟨hc.advance, trivial⟩

theorem yields_note (fault : GrammarFault) : Yields G (note fault) fun _ => True :=
  fun _ hc => ⟨hc, trivial⟩

theorem yields_resume : Yields G resume fun _ => True := fun _ hc => ⟨hc.synchronize, trivial⟩

theorem yields_checkCount (count : Nat) (cause : GrammarCause) :
    Yields G (checkCount count cause) fun _ => True := by
  unfold checkCount
  split
  · exact fun _ hc => ⟨hc, trivial⟩
  · exact .pure trivial

theorem yields_takeIf (p : Kind → Bool) :
    Yields G (takeIf p) fun found => ∀ token ∈ found, p token.kind ∧ G token := by
  intro c hc
  unfold Action.Ensures
  rcases takeIf_cases p c with ⟨token, rest, hahead, hp, htake⟩ | ⟨-, htake⟩
  · rw [htake]
    refine ⟨hc.advance, ?_⟩
    simpa using ⟨hp, hc token (by simp [hahead])⟩
  · rw [htake]
    exact ⟨hc, by simp⟩

theorem yields_accept (kind : Kind) : Yields G (accept kind) fun _ => True :=
  (yields_takeIf _).bind fun _ _ => .pure trivial

theorem yields_want (kind : Kind) (wanted : Wanted) :
    Yields G (want kind wanted) fun token => token.kind = kind ∧ G token := by
  refine (yields_takeIf _).bind ?_
  rintro (_ | token) h
  · exact yields_peek.bind fun _ _ => .fail
  · exact .pure (by simpa using h)

theorem yields_listUntil {stop : Kind} {list : Reading (List α)} {P : List α → Prop}
    (h : Yields G list P) (hnil : P []) : Yields G (listUntil stop list) P := by
  refine yields_nextKind.bind fun kind _ => ?_
  split
  · exact .pure hnil
  · exact h

theorem yields_constant (value : Literal) : Yields G (constant value) (Expr.Formed G) :=
  yields_advance.bind fun _ _ => .node fun _ => trivial

theorem formed_assignment? {target value : Expr} {build : Nat → Expr}
    (h : assignment? target value = some build) (ht : target.Formed G) (hv : value.Formed G)
    (id : Nat) : (build id).Formed G := by
  cases target <;> simp only [assignment?, Option.some.injEq, reduceCtorEq] at h
  case var =>
    subst h
    exact ⟨ht, hv⟩
  case get =>
    subst h
    exact ⟨ht.1, ht.2, hv⟩

theorem formed_combine {left right : Expr} {operator : Token} (level : Level)
    (hl : left.Formed G) (ho : G operator) (hr : right.Formed G) (id : Nat) :
    (level.combine left operator right id).Formed G := by
  cases level <;> exact ⟨hl, ho, hr⟩

structure ExpressionsForm (G : Token → Prop) (fuel : Nat) : Prop where
  expression : Yields G (expression fuel) (Expr.Formed G)
  operation : ∀ level, Yields G (operation fuel level) (Expr.Formed G)
  operands : ∀ level left, left.Formed G → Yields G (operands fuel level left) (Expr.Formed G)
  suffixes : ∀ expr, expr.Formed G → Yields G (suffixes fuel expr) (Expr.Formed G)
  arguments : ∀ count, Yields G (arguments fuel count) (Expr.FormedAll G)
  primary : Yields G (primary fuel) (Expr.Formed G)

namespace ExpressionsForm

variable {fuel : Nat}

theorem expression_succ (h : ExpressionsForm G fuel) :
    Yields G (Reading.expression (fuel + 1)) (Expr.Formed G) := by
  rw [Reading.expression]
  refine (h.operation .or).bind fun target ht => (yields_takeIf _).bind ?_
  rintro (_ | equals) _
  · exact .pure ht
  refine h.expression.bind fun value hv => ?_
  split
  · next build hbuild => exact .node fun id => formed_assignment? hbuild ht hv id
  · exact (yields_note _).bind fun _ _ => .pure ht

theorem operation_succ (h : ExpressionsForm G fuel) (level : Level) :
    Yields G (Reading.operation (fuel + 1) level) (Expr.Formed G) := by
  by_cases hlevel : level = .unary
  · subst hlevel
    rw [Reading.operation]
    refine (yields_takeIf _).bind ?_
    rintro (_ | operator) ho
    · exact h.primary.bind h.suffixes
    · refine (h.operation .unary).bind fun right hr => .node fun _ => ?_
      exact ⟨(ho operator rfl).2, hr⟩
  · rw [Reading.operation]
    · exact (h.operation level.tighter).bind fun left hl => h.operands level left hl
    · exact hlevel

theorem operands_succ (h : ExpressionsForm G fuel) (level : Level) (left : Expr)
    (hl : left.Formed G) :
    Yields G (Reading.operands (fuel + 1) level left) (Expr.Formed G) := by
  rw [Reading.operands]
  refine (yields_takeIf _).bind ?_
  rintro (_ | operator) ho
  · exact .pure hl
  refine (h.operation level.tighter).bind fun right hr => ?_
  refine Yields.bind (.node fun id => ?_) fun expr he => h.operands level expr he
  exact formed_combine level hl (ho operator rfl).2 hr id

theorem suffixes_succ (h : ExpressionsForm G fuel) (expr : Expr) (he : expr.Formed G) :
    Yields G (Reading.suffixes (fuel + 1) expr) (Expr.Formed G) := by
  rw [Reading.suffixes]
  refine yields_nextKind.bind fun kind _ => ?_
  split
  · refine yields_advance.bind fun _ _ => ?_
    refine (yields_listUntil (h.arguments 0) trivial).bind fun args hargs => ?_
    refine (yields_want _ _).bind fun paren hparen => ?_
    exact Yields.bind (.node fun id => ⟨he, hparen.2, hargs⟩) h.suffixes
  · refine yields_advance.bind fun _ _ => (yields_want _ _).bind fun name hname => ?_
    exact Yields.bind (.node fun id => ⟨he, hname⟩) h.suffixes
  · exact .pure he

theorem arguments_succ (h : ExpressionsForm G fuel) (count : Nat) :
    Yields G (Reading.arguments (fuel + 1) count) (Expr.FormedAll G) := by
  rw [Reading.arguments]
  refine (yields_checkCount _ _).bind fun _ _ => h.expression.bind fun argument ha => ?_
  refine (yields_accept _).bind fun more _ => ?_
  split
  · exact (h.arguments (count + 1)).bind fun arguments has => .pure ⟨ha, has⟩
  · exact .pure ⟨ha, trivial⟩

theorem primary_succ (h : ExpressionsForm G fuel) :
    Yields G (Reading.primary (fuel + 1)) (Expr.Formed G) := by
  rw [Reading.primary]
  refine yields_peek.bind fun token htoken => ?_
  split
  · exact yields_constant _
  · exact yields_constant _
  · exact yields_constant _
  · exact yields_constant _
  · exact yields_constant _
  · next hkind =>
    refine yields_advance.bind fun _ _ => .node fun _ => ?_
    exact ⟨hkind, htoken (by simp [hkind])⟩
  · next hkind =>
    refine yields_advance.bind fun _ _ => .node fun _ => ?_
    exact ⟨hkind, htoken (by simp [hkind])⟩
  · refine yields_advance.bind fun _ _ => h.expression.bind fun inner hinner => ?_
    exact (yields_want _ _).bind fun _ _ => .node fun _ => hinner
  · exact .fail

end ExpressionsForm

theorem expressionsForm (G : Token → Prop) (fuel : Nat) : ExpressionsForm G fuel := by
  induction fuel with
  | zero =>
    constructor
    · exact .exhausted
    · exact fun _ => .exhausted
    · exact fun _ _ _ => .exhausted
    · exact fun _ _ => .exhausted
    · exact fun _ => .exhausted
    · exact .exhausted
  | succ fuel ih =>
    exact ⟨ih.expression_succ, ih.operation_succ, ih.operands_succ, ih.suffixes_succ,
      ih.arguments_succ, ih.primary_succ⟩

theorem yields_optionalExpression (fuel : Nat) (stop : Kind) :
    Yields G (optionalExpression fuel stop) (Expr.FormedOption G) := by
  refine yields_nextKind.bind fun kind _ => ?_
  split
  · exact .pure trivial
  · exact (expressionsForm G fuel).expression.bind fun expr he => .pure he

theorem yields_initializer (fuel : Nat) :
    Yields G (initializer fuel) (Expr.FormedOption G) := by
  refine (yields_accept _).bind fun equal _ => ?_
  split
  · exact (expressionsForm G fuel).expression.bind fun expr he => .pure he
  · exact .pure trivial

theorem yields_varDeclaration (fuel : Nat) : Yields G (varDeclaration fuel) (Stmt.Formed G) := by
  refine (yields_want _ _).bind fun name hname => ?_
  refine (yields_initializer fuel).bind fun initializer hinit => ?_
  exact (yields_want _ _).bind fun _ _ => .pure ⟨hname, hinit⟩

theorem yields_expressionStatement (fuel : Nat) :
    Yields G (expressionStatement fuel) (Stmt.IsStatement G) := by
  refine (expressionsForm G fuel).expression.bind fun expr he => ?_
  exact (yields_want _ _).bind fun _ _ => .pure ⟨rfl, he⟩

theorem yields_printStatement (fuel : Nat) :
    Yields G (printStatement fuel) (Stmt.IsStatement G) := by
  refine (expressionsForm G fuel).expression.bind fun expr he => ?_
  exact (yields_want _ _).bind fun _ _ => .pure ⟨rfl, he⟩

theorem yields_returnStatement (fuel : Nat) {keyword : Token} (hk : G keyword) :
    Yields G (returnStatement fuel keyword) (Stmt.IsStatement G) := by
  refine (yields_optionalExpression fuel _).bind fun value hv => ?_
  exact (yields_want _ _).bind fun _ _ => .pure ⟨rfl, hk, hv⟩

theorem yields_condition (fuel : Nat) (opening closing : Wanted) :
    Yields G (condition fuel opening closing) (Expr.Formed G) := by
  refine (yields_want _ _).bind fun _ _ => ?_
  refine (expressionsForm G fuel).expression.bind fun expr he => ?_
  exact (yields_want _ _).bind fun _ _ => .pure he

theorem yields_parameters (fuel count : Nat) :
    Yields G (parameters fuel count) fun params => ∀ param ∈ params, param.IsName G := by
  induction fuel generalizing count with
  | zero => exact .exhausted
  | succ fuel ih =>
    refine (yields_checkCount _ _).bind fun _ _ => (yields_want _ _).bind fun param hparam => ?_
    refine (yields_accept _).bind fun more _ => ?_
    split
    · refine (ih (count + 1)).bind fun params hparams => .pure ?_
      exact List.forall_mem_cons.mpr ⟨hparam, hparams⟩
    · exact .pure (List.forall_mem_singleton.mpr hparam)

def ForClauses.Formed (G : Token → Prop) (clauses : ForClauses) : Prop :=
  (∀ stmt ∈ clauses.initializer, stmt.Formed G) ∧ Expr.FormedOption G clauses.condition ∧
    Expr.FormedOption G clauses.increment

theorem yields_forInitializer (fuel : Nat) :
    Yields G (forInitializer fuel) fun initializer => ∀ stmt ∈ initializer, stmt.Formed G := by
  refine yields_nextKind.bind fun kind _ => ?_
  split
  · exact yields_advance.bind fun _ _ => .pure (by simp)
  · refine yields_advance.bind fun _ _ => (yields_varDeclaration fuel).bind fun stmt h => ?_
    exact .pure (by simpa using h)
  · refine (yields_expressionStatement fuel).bind fun stmt h => ?_
    exact .pure (by simpa using h.2)

theorem yields_forClauses (fuel : Nat) : Yields G (forClauses fuel) (ForClauses.Formed G) := by
  refine (yields_want _ _).bind fun _ _ => ?_
  refine (yields_forInitializer fuel).bind fun initializer hinit => ?_
  refine (yields_optionalExpression fuel _).bind fun condition hcond => ?_
  refine (yields_want _ _).bind fun _ _ => ?_
  refine (yields_optionalExpression fuel _).bind fun increment hincr => ?_
  exact (yields_want _ _).bind fun _ _ => .pure ⟨hinit, hcond, hincr⟩

theorem yields_conditionOrTrue {condition : Option Expr} (h : Expr.FormedOption G condition) :
    Yields G (conditionOrTrue condition) (Expr.Formed G) := by
  cases condition with
  | none =>
    have htrue : Yields G (node fun id => .literal id (.bool true)) (Expr.Formed G) :=
      .node fun _ => trivial
    exact htrue
  | some condition => exact .pure h

theorem isStatement_forLoop {initializer : Option Stmt} {condition : Expr}
    {increment : Option Expr} {body : Stmt} (hinit : ∀ stmt ∈ initializer, stmt.Formed G)
    (hcond : condition.Formed G) (hincr : Expr.FormedOption G increment)
    (hbody : body.IsStatement G) :
    (forLoop initializer condition increment body).IsStatement G := by
  obtain ⟨hdecl, hformed⟩ := hbody
  cases initializer <;> cases increment <;>
    simp_all [forLoop, Stmt.IsStatement, Stmt.Formed, Stmt.FormedAll, Stmt.isDeclaration,
      Expr.FormedOption]

structure StatementsForm (G : Token → Prop) (fuel : Nat) : Prop where
  declaration : Yields G (declaration fuel) fun stmt => ∀ s ∈ stmt, s.Formed G
  declared : Yields G (declared fuel) (Stmt.Formed G)
  routine : ∀ kind, Yields G (routine fuel kind) (FunctionDecl.Formed G)
  methods : Yields G (methods fuel) (FunctionDecl.FormedAll G)
  block : Yields G (block fuel) (Stmt.FormedAll G)
  declarations : ∀ stop, Yields G (declarations fuel stop) (Stmt.FormedAll G)
  statement : Yields G (statement fuel) (Stmt.IsStatement G)

namespace StatementsForm

variable {fuel : Nat}

theorem declaration_succ (h : StatementsForm G fuel) :
    Yields G (Reading.declaration (fuel + 1)) fun stmt => ∀ s ∈ stmt, s.Formed G := by
  rw [Reading.declaration]
  have hattempt : Yields G (Action.attempt (Reading.declared fuel))
      fun result => ∀ stmt, result = .ok stmt → stmt.Formed G := by
    intro c hc
    rw [Action.ensures_attempt]
    refine (h.declared c hc).mono ?_ ?_
    · rintro stmt c' ⟨hc', hstmt⟩
      exact ⟨hc', by simpa using hstmt⟩
    · intro fault c' hc'
      exact ⟨hc', by simp⟩
  refine hattempt.bind ?_
  rintro (fault | stmt) hresult
  · exact (yields_note _).bind fun _ _ => yields_resume.bind fun _ _ => .pure (by simp)
  · exact .pure (by simpa using hresult)

theorem declared_succ (h : StatementsForm G fuel) :
    Yields G (Reading.declared (fuel + 1)) (Stmt.Formed G) := by
  rw [Reading.declared]
  refine yields_nextKind.bind fun kind _ => ?_
  split
  · refine yields_advance.bind fun _ _ => (yields_want _ _).bind fun name hname => ?_
    refine (yields_want _ _).bind fun _ _ => h.methods.bind fun methods hmethods => ?_
    exact (yields_want _ _).bind fun _ _ => .pure ⟨hname, hmethods⟩
  · refine yields_advance.bind fun _ _ => (h.routine _).bind fun declaration hd => ?_
    exact .pure hd
  · exact yields_advance.bind fun _ _ => yields_varDeclaration fuel
  · exact h.statement.mono fun _ hs => hs.2

theorem routine_succ (h : StatementsForm G fuel) (kind : Routine) :
    Yields G (Reading.routine (fuel + 1) kind) (FunctionDecl.Formed G) := by
  rw [Reading.routine]
  refine (yields_want _ _).bind fun name hname => (yields_want _ _).bind fun _ _ => ?_
  refine (yields_listUntil (yields_parameters fuel 0) (by simp)).bind fun params hparams => ?_
  refine (yields_want _ _).bind fun _ _ => (yields_want _ _).bind fun _ _ => ?_
  exact h.block.bind fun body hbody => .pure ⟨hname, hparams, hbody⟩

theorem methods_succ (h : StatementsForm G fuel) :
    Yields G (Reading.methods (fuel + 1)) (FunctionDecl.FormedAll G) := by
  rw [Reading.methods]
  refine yields_isAtEnd.bind fun atEnd _ => yields_nextKind.bind fun kind _ => ?_
  split
  · exact .pure trivial
  · refine (h.routine _).bind fun method hm => ?_
    exact h.methods.bind fun methods hms => .pure ⟨hm, hms⟩

theorem block_succ (h : StatementsForm G fuel) :
    Yields G (Reading.block (fuel + 1)) (Stmt.FormedAll G) := by
  rw [Reading.block]
  refine (h.declarations _).bind fun body hbody => ?_
  exact (yields_want _ _).bind fun _ _ => .pure hbody

theorem declarations_succ (h : StatementsForm G fuel) (stop : Kind) :
    Yields G (Reading.declarations (fuel + 1) stop) (Stmt.FormedAll G) := by
  rw [Reading.declarations]
  refine yields_isAtEnd.bind fun atEnd _ => yields_nextKind.bind fun kind _ => ?_
  split
  · exact .pure trivial
  · refine h.declaration.bind fun stmt hstmt => ?_
    refine (h.declarations stop).bind fun stmts hstmts => .pure ?_
    cases stmt with
    | none => exact hstmts
    | some stmt => exact ⟨hstmt stmt rfl, hstmts⟩

theorem statement_succ (h : StatementsForm G fuel) :
    Yields G (Reading.statement (fuel + 1)) (Stmt.IsStatement G) := by
  rw [Reading.statement]
  refine yields_peek.bind fun token htoken => ?_
  split
  · refine yields_advance.bind fun _ _ => (yields_forClauses fuel).bind fun clauses hc => ?_
    refine h.statement.bind fun body hbody => ?_
    refine (yields_conditionOrTrue hc.2.1).bind fun condition hcond => .pure ?_
    exact isStatement_forLoop hc.1 hcond hc.2.2 hbody
  · refine yields_advance.bind fun _ _ => (yields_condition fuel _ _).bind fun condition hcond => ?_
    refine h.statement.bind fun thenBranch hthen => (yields_accept _).bind fun hasElse _ => ?_
    split
    · refine h.statement.bind fun elseBranch helse => .pure ?_
      exact ⟨rfl, hcond, hthen, helse⟩
    · exact .pure ⟨rfl, hcond, hthen⟩
  · refine yields_advance.bind fun _ _ => (yields_condition fuel _ _).bind fun condition hcond => ?_
    exact h.statement.bind fun body hbody => .pure ⟨rfl, hcond, hbody⟩
  · next hkind =>
    refine yields_advance.bind fun _ _ => yields_returnStatement fuel (htoken ?_)
    simp [hkind]
  · exact yields_advance.bind fun _ _ => h.block.bind fun body hbody => .pure ⟨rfl, hbody⟩
  · exact yields_advance.bind fun _ _ => yields_printStatement fuel
  · exact yields_expressionStatement fuel

end StatementsForm

theorem statementsForm (G : Token → Prop) (fuel : Nat) : StatementsForm G fuel := by
  induction fuel with
  | zero =>
    constructor
    · exact .exhausted
    · exact .exhausted
    · exact fun _ => .exhausted
    · exact .exhausted
    · exact .exhausted
    · exact fun _ => .exhausted
    · exact .exhausted
  | succ fuel ih =>
    exact ⟨ih.declaration_succ, ih.declared_succ, ih.routine_succ, ih.methods_succ, ih.block_succ,
      ih.declarations_succ, ih.statement_succ⟩

end Reading

/-- A program that was read is formed of the tokens it was read from. -/
theorem Program.formedAll_ofTokens {G : Token → Prop} {tokens : List Token}
    (hG : ∀ token ∈ tokens, G token) (firstId : Nat) :
    Stmt.FormedAll G (Program.ofTokens tokens firstId).statements := by
  have h := (Reading.statementsForm G (fuelFor tokens.length)).declarations .eof
    (Cursor.start tokens firstId)
    fun token h => hG token (List.takeWhile_subset _ (Cursor.ahead_start tokens firstId ▸ h))
  unfold ofTokens
  split
  · next hdone => exact (h.of_done hdone).2
  · exact trivial
  · exact trivial

end LoxLang
