import LoxLang.Proofs.Grammar.Spelling

/-!
# Programs that can be written down

Not every tree is the tree of a text. In a `Canonical` one, every operand binds tightly enough for
its place or stands in parentheses, branches and loop bodies are no declarations, an `else` does not
follow a branch that would take it for itself, and tokens have the kinds that go with their places.
These are the trees that have a spelling: the tokens of a canonical program spell it
(`Stmt.spelledAll`), and whatever is spelled is canonical (`Spelled.canonical`).
-/
namespace LoxLang

/-- How tightly an expression binds. An operator that is none binds as loosely as anything. -/
def Expr.rank : Expr → Rank
  | .literal _ _ | .grouping _ _ | .var _ _ | .this _ _ => .primary
  | .call _ _ _ _ | .get _ _ _ => .call
  | .unary _ _ _ => .operation .unary
  | .binary _ _ operator _ | .logical _ _ operator _ => operator.kind.rank?.getD .assignment
  | .assign _ _ _ | .set _ _ _ _ => .assignment

def Expr.Fits (place : Rank) (expr : Expr) : Prop := expr.rank.depth ≤ place.depth

/-- In a place that it fits, an expression is spelled as it is on its own. -/
theorem Spelled.of_fits {place : Rank} {expr : Expr} {u : List Token} (hfits : expr.Fits place)
    (h : Spelled (.expr expr.rank expr) u) : Spelled (.expr place expr) u :=
  h.of_depth_le hfits

theorem Expr.fits_tighter_iff {level : Level} (hlevel : level ≠ .unary) (expr : Expr) :
    expr.Fits (.operation level.tighter) ↔ expr.rank.depth < (Rank.operation level).depth := by
  have hdepth := (Rank.operation level).depth_tighter
  have hpos : 1 < (Rank.operation level).depth := (Reading.levelDepth_pos level).1
  rw [Rank.tighter_operation hlevel] at hdepth
  rw [Fits, hdepth]
  omega

theorem Expr.fits_assignment (expr : Expr) : expr.Fits .assignment :=
  expr.rank.depth_le_assignment

/-- Operators of one level group to the left, so that the right operand has to bind tighter. -/
def Expr.FitAround (levels : List Level) (operator : Kind) (left right : Expr) : Prop :=
  ∃ level ∈ levels, operator.rank? = some (.operation level) ∧ left.Fits (.operation level) ∧
    right.rank.depth < (Rank.operation level).depth

mutual

/-- The operands in an expression fit, and its tokens have the kinds that go with their places. -/
def Expr.Canonical : Expr → Prop
  | .literal _ _ => True
  | .grouping _ inner => inner.Canonical
  | .unary _ operator right =>
    (operator.kind = .bang ∨ operator.kind = .minus) ∧ right.Fits (.operation .unary) ∧
      right.Canonical
  | .binary _ left operator right =>
    Expr.FitAround [.equality, .comparison, .term, .factor] operator.kind left right ∧
      left.Canonical ∧ right.Canonical
  | .logical _ left operator right =>
    Expr.FitAround [.or, .and] operator.kind left right ∧ left.Canonical ∧ right.Canonical
  | .var _ name => name.kind = .identifier
  | .assign _ name value => name.kind = .identifier ∧ value.Canonical
  | .call _ callee paren arguments =>
    callee.Fits .call ∧ callee.Canonical ∧ paren.kind = .rightParen ∧
      arguments.length ≤ 255 ∧ Expr.CanonicalAll arguments
  | .get _ object name => object.Fits .call ∧ object.Canonical ∧ name.kind = .identifier
  | .set _ object name value =>
    object.Fits .call ∧ object.Canonical ∧ name.kind = .identifier ∧ value.Canonical
  | .this _ keyword => keyword.kind = .thisKw

def Expr.CanonicalAll : List Expr → Prop
  | [] => True
  | expr :: exprs => expr.Canonical ∧ Expr.CanonicalAll exprs

end

def Expr.CanonicalOption : Option Expr → Prop
  | none => True
  | some expr => expr.Canonical

/-- The statement ends in an `if` without an `else`. -/
def Stmt.endsOpen : Stmt → Bool
  | .ifThen _ _ => true
  | .ifElse _ _ elseBranch => elseBranch.endsOpen
  | .whileLoop _ body => body.endsOpen
  | _ => false

mutual

/-- The expressions in a statement are canonical, branches and loop bodies are no declarations, and
an `else` belongs to the nearest `if`. -/
def Stmt.Canonical : Stmt → Prop
  | .expression expr | .print expr => expr.Canonical
  | .varDecl name initializer => name.kind = .identifier ∧ Expr.CanonicalOption initializer
  | .block body => Stmt.CanonicalAll body
  | .ifThen condition thenBranch =>
    condition.Canonical ∧ thenBranch.isDeclaration = false ∧ thenBranch.Canonical
  | .ifElse condition thenBranch elseBranch =>
    condition.Canonical ∧
      (thenBranch.isDeclaration = false ∧ thenBranch.endsOpen = false ∧ thenBranch.Canonical) ∧
      elseBranch.isDeclaration = false ∧ elseBranch.Canonical
  | .whileLoop condition body =>
    condition.Canonical ∧ body.isDeclaration = false ∧ body.Canonical
  | .funDecl declaration => declaration.Canonical
  | .returnStmt keyword value => keyword.kind = .returnKw ∧ Expr.CanonicalOption value
  | .classDecl name methods => name.kind = .identifier ∧ FunctionDecl.CanonicalAll methods

def Stmt.CanonicalAll : List Stmt → Prop
  | [] => True
  | stmt :: stmts => stmt.Canonical ∧ Stmt.CanonicalAll stmts

def FunctionDecl.Canonical : FunctionDecl → Prop
  | ⟨name, params, body⟩ =>
    name.kind = .identifier ∧ (∀ param ∈ params, param.kind = .identifier) ∧
      params.length ≤ 255 ∧ Stmt.CanonicalAll body

def FunctionDecl.CanonicalAll : List FunctionDecl → Prop
  | [] => True
  | declaration :: declarations =>
    declaration.Canonical ∧ FunctionDecl.CanonicalAll declarations

end

def Literal.kind : Literal → Kind
  | .number value => .number value
  | .string value => .string value
  | .bool true => .trueKw
  | .bool false => .falseKw
  | .nil => .nilKw

theorem Literal.constant?_kind (value : Literal) : value.kind.constant? = some value := by
  rcases value with _ | _ | (_ | _) | _ <;> rfl

/-! The tokens of a program. A tree holds only some of them: `write` gives the others, which are
told by their kinds. -/
section Tokens

variable (write : Kind → Token)

mutual

def Expr.tokens : Expr → List Token
  | .literal _ value => [write value.kind]
  | .grouping _ inner => write .leftParen :: (inner.tokens ++ [write .rightParen])
  | .unary _ operator right => operator :: right.tokens
  | .binary _ left operator right | .logical _ left operator right =>
    left.tokens ++ operator :: right.tokens
  | .var _ name => [name]
  | .assign _ name value => name :: write .equal :: value.tokens
  | .call _ callee paren arguments =>
    callee.tokens ++ write .leftParen :: (Expr.tokensAll arguments ++ [paren])
  | .get _ object name => object.tokens ++ [write .dot, name]
  | .set _ object name value =>
    object.tokens ++ write .dot :: name :: write .equal :: value.tokens
  | .this _ keyword => [keyword]

def Expr.tokensAll : List Expr → List Token
  | [] => []
  | [expr] => expr.tokens
  | expr :: next :: exprs => expr.tokens ++ write .comma :: Expr.tokensAll (next :: exprs)

end

def Expr.tokensOption : Option Expr → List Token
  | none => []
  | some expr => expr.tokens write

mutual

def Stmt.tokens : Stmt → List Token
  | .expression expr => expr.tokens write ++ [write .semicolon]
  | .print expr => write .printKw :: (expr.tokens write ++ [write .semicolon])
  | .varDecl name none => [write .varKw, name, write .semicolon]
  | .varDecl name (some expr) =>
    write .varKw :: name :: write .equal :: (expr.tokens write ++ [write .semicolon])
  | .block body => write .leftBrace :: (Stmt.tokensAll body ++ [write .rightBrace])
  | .ifThen condition thenBranch =>
    write .ifKw :: write .leftParen :: (condition.tokens write ++ write .rightParen ::
      thenBranch.tokens)
  | .ifElse condition thenBranch elseBranch =>
    write .ifKw :: write .leftParen :: (condition.tokens write ++ write .rightParen ::
      (thenBranch.tokens ++ write .elseKw :: elseBranch.tokens))
  | .whileLoop condition body =>
    write .whileKw :: write .leftParen :: (condition.tokens write ++ write .rightParen ::
      body.tokens)
  | .funDecl declaration => write .funKw :: declaration.tokens
  | .returnStmt keyword value =>
    keyword :: (Expr.tokensOption write value ++ [write .semicolon])
  | .classDecl name methods =>
    write .classKw :: name :: write .leftBrace ::
      (FunctionDecl.tokensAll methods ++ [write .rightBrace])

def Stmt.tokensAll : List Stmt → List Token
  | [] => []
  | stmt :: stmts => stmt.tokens ++ Stmt.tokensAll stmts

def FunctionDecl.tokens : FunctionDecl → List Token
  | ⟨name, params, body⟩ =>
    name :: write .leftParen :: (params.intersperse (write .comma) ++ write .rightParen ::
      write .leftBrace :: (Stmt.tokensAll body ++ [write .rightBrace]))

def FunctionDecl.tokensAll : List FunctionDecl → List Token
  | [] => []
  | declaration :: declarations => declaration.tokens ++ FunctionDecl.tokensAll declarations

end

theorem Spelled.of_fitAround {levels : List Level} {id : Nat} {operator : Token}
    {left right expr : Expr} {u v : List Token}
    (hfit : Expr.FitAround levels operator.kind left right)
    (hexpr : ∀ level ∈ levels, level ≠ .unary ∧ level.combine left operator right id = expr)
    (hrank : expr.rank = operator.kind.rank?.getD .assignment)
    (hleft : Spelled (.expr left.rank left) u) (hright : Spelled (.expr right.rank right) v) :
    Spelled (.expr expr.rank expr) (u ++ operator :: v) := by
  obtain ⟨level, hmem, hoperator, hleftFits, hrightFits⟩ := hfit
  obtain ⟨hlevel, rfl⟩ := hexpr level hmem
  have hjoins := (Level.joins_iff hlevel _).mpr hoperator
  have hrightFits := (Expr.fits_tighter_iff hlevel right).mpr hrightFits
  rw [hrank, hoperator]
  exact .combine hlevel (.of_fits hleftFits hleft) hjoins (.of_fits hrightFits hright)

variable {write}

mutual

theorem Expr.spelled (hwrite : ∀ kind, (write kind).kind = kind) : ∀ expr : Expr,
    expr.Canonical → Spelled (.expr expr.rank expr) (expr.tokens write)
  | .literal _ value, _ => .literal (by rw [hwrite, value.constant?_kind])
  | .grouping _ inner, h =>
    .grouping (hwrite _) (.of_fits inner.fits_assignment (inner.spelled hwrite h)) (hwrite _)
  | .unary _ _ right, ⟨hoperator, hfits, hright⟩ =>
    .unary (Level.joins_unary_iff.mpr hoperator) (.of_fits hfits (right.spelled hwrite hright))
  | .binary id left operator right, ⟨hfit, hleft, hright⟩
  | .logical id left operator right, ⟨hfit, hleft, hright⟩ => by
    apply Spelled.of_fitAround hfit _ rfl (left.spelled hwrite hleft) (right.spelled hwrite hright)
    · exact id
    · simp [Level.combine]
  | .var _ _, hname => .var hname
  | .assign _ _ value, ⟨hname, hvalue⟩ =>
    .assign hname (hwrite _) (.of_fits value.fits_assignment (value.spelled hwrite hvalue))
  | .call _ callee _ arguments, ⟨hfits, hcallee, hparen, hlength, harguments⟩ =>
    .call (.of_fits hfits (callee.spelled hwrite hcallee)) (hwrite _)
      (Expr.spelledAll hwrite arguments harguments) hlength hparen
  | .get _ object _, ⟨hfits, hobject, hname⟩ =>
    .get (.of_fits hfits (object.spelled hwrite hobject)) (hwrite _) hname
  | .set _ object _ value, ⟨hfits, hobject, hname, hvalue⟩ =>
    .set (.of_fits hfits (object.spelled hwrite hobject)) (hwrite _) hname (hwrite _)
      (.of_fits value.fits_assignment (value.spelled hwrite hvalue))
  | .this _ _, hkeyword => .this hkeyword

theorem Expr.spelledAll (hwrite : ∀ kind, (write kind).kind = kind) : ∀ exprs : List Expr,
    Expr.CanonicalAll exprs → Spelled (.arguments exprs) (Expr.tokensAll write exprs)
  | [], _ => .noArguments
  | [expr], ⟨hexpr, _⟩ =>
    .lastArgument (.of_fits expr.fits_assignment (expr.spelled hwrite hexpr))
  | expr :: next :: exprs, ⟨hexpr, hexprs⟩ =>
    .moreArguments (.of_fits expr.fits_assignment (expr.spelled hwrite hexpr)) (hwrite _)
      (Expr.spelledAll hwrite (next :: exprs) hexprs)

end

/-- Where any expression may stand. -/
theorem Expr.spelled_assignment (hwrite : ∀ kind, (write kind).kind = kind) (expr : Expr)
    (h : expr.Canonical) : Spelled (.expr .assignment expr) (expr.tokens write) :=
  .of_fits expr.fits_assignment (expr.spelled hwrite h)

theorem Expr.spelledOption (hwrite : ∀ kind, (write kind).kind = kind) : ∀ expr : Option Expr,
    Expr.CanonicalOption expr → Spelled (.optional expr) (Expr.tokensOption write expr)
  | none, _ => .absent
  | some expr, h => .present (expr.spelled_assignment hwrite h)

theorem spelled_intersperse (hwrite : ∀ kind, (write kind).kind = kind) : ∀ names : List Token,
    (∀ name ∈ names, name.kind = .identifier) →
      Spelled (.parameters names) (names.intersperse (write .comma))
  | [], _ => .noParameters
  | [name], h => .lastParameter (h name List.mem_cons_self)
  | _ :: next :: names, h =>
    have ⟨hname, hnames⟩ := List.forall_mem_cons.mp h
    .moreParameters hname (hwrite _) (spelled_intersperse hwrite (next :: names) hnames)

/-- The tightest place of a statement: a declaration stands among declarations only. -/
def Stmt.phrase (stmt : Stmt) : Phrase :=
  match stmt.isDeclaration with
  | true => .declaration stmt
  | false => .statement stmt.endsOpen stmt

theorem Spelled.of_phrase {stmt : Stmt} {u : List Token} (h : Spelled stmt.phrase u) :
    Spelled (.declaration stmt) u := by
  unfold Stmt.phrase at h
  split at h
  · exact h
  · exact .stated h

theorem Spelled.statement {stmt : Stmt} {u : List Token} (h : Spelled stmt.phrase u)
    (hstatement : stmt.isDeclaration = false) : Spelled (.statement stmt.endsOpen stmt) u := by
  rwa [Stmt.phrase, hstatement] at h

mutual

theorem Stmt.spelled (hwrite : ∀ kind, (write kind).kind = kind) : ∀ stmt : Stmt,
    stmt.Canonical → Spelled stmt.phrase (stmt.tokens write)
  | .expression expr, h => .expression (expr.spelled_assignment hwrite h) (hwrite _)
  | .print expr, h => .print (hwrite _) (expr.spelled_assignment hwrite h) (hwrite _)
  | .varDecl _ none, ⟨hname, _⟩ =>
    .varDeclared (.varDecl (hwrite _) hname .noInitializer (hwrite _))
  | .varDecl _ (some expr), ⟨hname, hexpr⟩ =>
    .varDeclared (.varDecl (hwrite _) hname
      (.initializer (hwrite _) (expr.spelled_assignment hwrite hexpr)) (hwrite _))
  | .block body, h => .braced (.block (hwrite _) (Stmt.spelledAll hwrite body h) (hwrite _))
  | .ifThen condition thenBranch, ⟨hcondition, hstatement, hthen⟩ =>
    .ifThen (hwrite _) (hwrite _) (condition.spelled_assignment hwrite hcondition) (hwrite _)
      ((thenBranch.spelled hwrite hthen).statement hstatement)
  | .ifElse condition thenBranch elseBranch,
      ⟨hcondition, ⟨hthenStatement, hclosed, hthen⟩, helseStatement, helse⟩ =>
    .ifElse (hwrite _) (hwrite _) (condition.spelled_assignment hwrite hcondition) (hwrite _)
      (hclosed ▸ (thenBranch.spelled hwrite hthen).statement hthenStatement) (hwrite _)
      ((elseBranch.spelled hwrite helse).statement helseStatement)
  | .whileLoop condition body, ⟨hcondition, hstatement, hbody⟩ =>
    .whileLoop (hwrite _) (hwrite _) (condition.spelled_assignment hwrite hcondition) (hwrite _)
      ((body.spelled hwrite hbody).statement hstatement)
  | .funDecl declaration, h => .funDecl (hwrite _) (declaration.spelled hwrite h)
  | .returnStmt _ value, ⟨hkeyword, hvalue⟩ =>
    .returnStmt hkeyword (Expr.spelledOption hwrite value hvalue) (hwrite _)
  | .classDecl _ methods, ⟨hname, hmethods⟩ =>
    .classDecl (hwrite _) hname (hwrite _) (FunctionDecl.spelledAll hwrite methods hmethods)
      (hwrite _)

theorem Stmt.spelledAll (hwrite : ∀ kind, (write kind).kind = kind) : ∀ stmts : List Stmt,
    Stmt.CanonicalAll stmts → Spelled (.declarations stmts) (Stmt.tokensAll write stmts)
  | [], _ => .noDeclarations
  | stmt :: stmts, ⟨hstmt, hstmts⟩ =>
    .declarations (stmt.spelled hwrite hstmt).of_phrase (Stmt.spelledAll hwrite stmts hstmts)

theorem FunctionDecl.spelled (hwrite : ∀ kind, (write kind).kind = kind) :
    ∀ declaration : FunctionDecl, declaration.Canonical →
      Spelled (.routine declaration) (declaration.tokens write)
  | ⟨_, params, body⟩, ⟨hname, hparams, hlength, hbody⟩ =>
    .routine hname (hwrite _) (spelled_intersperse hwrite params hparams) hlength (hwrite _)
      (.block (hwrite _) (Stmt.spelledAll hwrite body hbody) (hwrite _))

theorem FunctionDecl.spelledAll (hwrite : ∀ kind, (write kind).kind = kind) :
    ∀ declarations : List FunctionDecl, FunctionDecl.CanonicalAll declarations →
      Spelled (.routines declarations) (FunctionDecl.tokensAll write declarations)
  | [], _ => .noRoutines
  | declaration :: declarations, ⟨h, hs⟩ =>
    .routines (declaration.spelled hwrite h) (FunctionDecl.spelledAll hwrite declarations hs)

end

end Tokens

/-- What is canonical about a piece of a program in its place. -/
def Phrase.Canonical : Phrase → Prop
  | .expr rank value => value.Fits rank ∧ value.Canonical
  | .arguments values => Expr.CanonicalAll values
  | .optional value | .initializer value => Expr.CanonicalOption value
  | .parameters names => ∀ name ∈ names, name.kind = .identifier
  | .varDecl name value => name.kind = .identifier ∧ Expr.CanonicalOption value
  | .forStart start => ∀ stmt ∈ start, stmt.Canonical
  | .statement isOpen stmt =>
    stmt.isDeclaration = false ∧ (stmt.endsOpen = true → isOpen = true) ∧ stmt.Canonical
  | .block stmts | .declarations stmts => Stmt.CanonicalAll stmts
  | .declaration stmt => stmt.Canonical
  | .routine function => function.Canonical
  | .routines functions => FunctionDecl.CanonicalAll functions

theorem Level.canonical_combine {level : Level} {left right : Expr} {operator : Token} (id : Nat)
    (hlevel : level ≠ .unary) (hleft : left.Fits (.operation level) ∧ left.Canonical)
    (hjoins : level.joins operator.kind = true)
    (hright : right.Fits (.operation level.tighter) ∧ right.Canonical) :
    (level.combine left operator right id).Fits (.operation level) ∧
      (level.combine left operator right id).Canonical := by
  have hoperator := (Level.joins_iff hlevel _).mp hjoins
  have hfit {levels : List Level} (hmem : level ∈ levels) :
      Expr.FitAround levels operator.kind left right :=
    ⟨level, hmem, hoperator, hleft.1, (Expr.fits_tighter_iff hlevel right).mp hright.1⟩
  have hbinary : (Expr.binary id left operator right).Fits (.operation level) ∧
      (Expr.logical id left operator right).Fits (.operation level) := by
    simp [Expr.Fits, Expr.rank, hoperator]
  cases level with
  | or | and => exact ⟨hbinary.2, hfit (by simp), hleft.2, hright.2⟩
  | equality | comparison | term | factor =>
    exact ⟨hbinary.1, hfit (by simp), hleft.2, hright.2⟩
  | unary => exact absurd rfl hlevel

theorem Stmt.canonical_forLoop {start : Option Stmt} {condition increment : Option Expr}
    {isOpen : Bool} {body : Stmt} (id : Nat) (hstart : ∀ stmt ∈ start, stmt.Canonical)
    (hcondition : Expr.CanonicalOption condition) (hincrement : Expr.CanonicalOption increment)
    (hbody : Phrase.Canonical (.statement isOpen body)) :
    Phrase.Canonical (.statement isOpen (Reading.forLoop start
      (condition.getD (.literal id (.bool true))) increment body)) := by
  obtain ⟨hstatement, hopen, hbody⟩ := hbody
  have hcondition' : (condition.getD (.literal id (.bool true))).Canonical := by
    cases condition with
    | none => trivial
    | some condition => exact hcondition
  cases start <;> cases increment <;>
    simp_all [Phrase.Canonical, Reading.forLoop, isDeclaration, endsOpen, Canonical, CanonicalAll,
      Expr.CanonicalOption]

/-- Whatever is spelled is canonical. -/
theorem Spelled.canonical {phrase : Phrase} {u : List Token} (h : Spelled phrase u) :
    phrase.Canonical := by
  induction h with
  | literal => exact ⟨Nat.zero_le _, trivial⟩
  | var hname => exact ⟨Nat.zero_le _, hname⟩
  | this hkeyword => exact ⟨Nat.zero_le _, hkeyword⟩
  | grouping _ _ _ ih => exact ⟨Nat.zero_le _, ih.2⟩
  | call _ _ _ hlength hparen ih ihArgs =>
    exact ⟨Nat.le_refl _, ih.1, ih.2, hparen, hlength, ihArgs⟩
  | get _ _ hname ih => exact ⟨Nat.le_refl _, ih.1, ih.2, hname⟩
  | unary hoperator _ ih =>
    exact ⟨Nat.le_refl _, Level.joins_unary_iff.mp hoperator, ih.1, ih.2⟩
  | combine hlevel _ hjoins _ ihLeft ihRight =>
    exact Level.canonical_combine _ hlevel ihLeft hjoins ihRight
  | assign hname _ _ ih => exact ⟨Nat.le_refl _, hname, ih.2⟩
  | set _ _ hname _ _ ihObject ih => exact ⟨Nat.le_refl _, ihObject.1, ihObject.2, hname, ih.2⟩
  | @loosen rank expr u _ ih =>
    refine ⟨Nat.le_trans ih.1 ?_, ih.2⟩
    rw [rank.depth_tighter]
    exact Nat.sub_le _ _
  | noArguments | absent | noInitializer | noDeclarations | noRoutines => trivial
  | lastArgument _ ih => exact ⟨ih.2, trivial⟩
  | moreArguments _ _ _ ih ihs => exact ⟨ih.2, ihs⟩
  | present _ ih | initializer _ _ ih => exact ih.2
  | noParameters => exact nofun
  | lastParameter hname => simpa [Phrase.Canonical] using hname
  | moreParameters hname _ _ ihs => exact List.forall_mem_cons.mpr ⟨hname, ihs⟩
  | varDecl _ hname _ _ ih => exact ⟨hname, ih⟩
  | expression _ _ ih | print _ _ _ ih => exact ⟨rfl, nofun, ih.2⟩
  | returnStmt hkeyword _ _ ih => exact ⟨rfl, nofun, hkeyword, ih⟩
  | braced _ ih => exact ⟨rfl, nofun, ih⟩
  | ifThen _ _ _ _ _ ihCondition ihThen =>
    exact ⟨rfl, fun _ => rfl, ihCondition.2, ihThen.1, ihThen.2.2⟩
  | ifElse _ _ _ _ _ _ _ ihCondition ihThen ihElse =>
    refine ⟨rfl, ihElse.2.1, ihCondition.2, ⟨ihThen.1, ?_, ihThen.2.2⟩, ihElse.1, ihElse.2.2⟩
    simpa using ihThen.2.1
  | whileLoop _ _ _ _ _ ihCondition ihBody =>
    exact ⟨rfl, ihBody.2.1, ihCondition.2, ihBody.1, ihBody.2.2⟩
  | forLoop id _ _ _ _ _ _ _ _ ihStart ihCondition ihIncrement ihBody =>
    exact Stmt.canonical_forLoop id ihStart ihCondition ihIncrement ihBody
  | noStart => exact nofun
  | varStart _ ih => simpa [Phrase.Canonical, Stmt.Canonical] using ih
  | exprStart _ _ ih => simpa [Phrase.Canonical, Stmt.Canonical] using ih.2
  | block _ _ _ ih => exact ih
  | classDecl _ hname _ _ _ ih => exact ⟨hname, ih⟩
  | funDecl _ _ ih => exact ih
  | varDeclared _ ih => exact ih
  | stated _ ih => exact ih.2.2
  | declarations _ _ ih ihs | routines _ _ ih ihs => exact ⟨ih, ihs⟩
  | routine hname _ _ hlength _ _ ihParams ihBody => exact ⟨hname, ihParams, hlength, ihBody⟩

end LoxLang
