import Mathlib.Tactic.ByContra
import LoxLang.Proofs.Reading.Progress

/-!
# How programs are spelled

`Spelled` says which sequences of tokens spell a piece of a program. It stands between the grammar,
which knows no trees, and the reading of trees, which knows no grammar. A `Phrase` is a piece of a
program together with the place that it stands in: an expression has to bind tightly enough for its
place, and a statement is open if an `else` behind it would become a part of it.

A loop with three clauses has no tree of its own, so a tree may be spelled in more than one way. But
no sequence of tokens spells two programs (`Spelled.relabelAll_eq`): where the grammar leaves open
what an `else` belongs to, it belongs to the nearest `if`.
-/
namespace LoxLang

/-- The constant that a token of this kind spells. -/
def Kind.constant? : Kind → Option Literal
  | .falseKw => some (.bool false)
  | .trueKw => some (.bool true)
  | .nilKw => some .nil
  | .number value => some (.number value)
  | .string value => some (.string value)
  | _ => none

/-- How tightly an expression binds, from the loosest on. -/
inductive Rank
  | assignment
  | operation (level : Level)
  | call
  | primary
deriving DecidableEq

namespace Rank

/-- The next rank. -/
def tighter : Rank → Rank
  | assignment => operation .or
  | operation .unary => call
  | operation level => operation level.tighter
  | call => primary
  | primary => primary

def depth : Rank → Nat
  | assignment => 9
  | operation level => Reading.levelDepth level
  | call => 1
  | primary => 0

theorem tighter_operation {level : Level} (h : level ≠ .unary) :
    (operation level).tighter = operation level.tighter := by
  cases level <;> first | rfl | exact absurd rfl h

theorem depth_tighter (rank : Rank) : rank.tighter.depth = rank.depth - 1 := by
  rcases rank with _ | level | _ | _
  · rfl
  · cases level <;> rfl
  · rfl
  · rfl

theorem depth_le_assignment (rank : Rank) : rank.depth ≤ assignment.depth := by
  rcases rank with _ | level | _ | _
  · exact Nat.le_refl _
  · exact Nat.le_succ_of_le (Reading.levelDepth_pos level).2
  · decide
  · decide

def ofDepth : Nat → Rank
  | 0 => primary
  | 1 => call
  | 2 => operation .unary
  | 3 => operation .factor
  | 4 => operation .term
  | 5 => operation .comparison
  | 6 => operation .equality
  | 7 => operation .and
  | 8 => operation .or
  | _ => assignment

theorem ofDepth_depth (rank : Rank) : ofDepth rank.depth = rank := by
  rcases rank with _ | level | _ | _
  · rfl
  · cases level <;> rfl
  · rfl
  · rfl

/-- What holds of a rank holds of the looser ones, if it does for one step. -/
theorem of_depth_le {P : Rank → Prop} (hstep : ∀ rank : Rank, P rank.tighter → P rank)
    {rank rank' : Rank} (hle : rank.depth ≤ rank'.depth) (h : P rank) : P rank' := by
  induction hdiff : rank'.depth - rank.depth generalizing rank' with
  | zero =>
    have hdepth : rank.depth = rank'.depth := by omega
    rw [← rank'.ofDepth_depth, ← hdepth, rank.ofDepth_depth]
    exact h
  | succ n ih =>
    have hdepth := rank'.depth_tighter
    exact hstep rank' (ih (by omega) (by omega))

end Rank

/-- The rank of an expression that goes on with a token of this kind. -/
def Kind.rank? : Kind → Option Rank
  | .equal => some .assignment
  | .orKw => some (.operation .or)
  | .andKw => some (.operation .and)
  | .bangEqual | .equalEqual => some (.operation .equality)
  | .greater | .greaterEqual | .less | .lessEqual => some (.operation .comparison)
  | .minus | .plus => some (.operation .term)
  | .star | .slash => some (.operation .factor)
  | .leftParen | .dot => some .call
  | _ => none

theorem Level.joins_iff {level : Level} (h : level ≠ .unary) (kind : Kind) :
    level.joins kind = true ↔ kind.rank? = some (.operation level) := by
  cases level <;> first | exact absurd rfl h | cases kind <;> simp [joins, Kind.rank?]

theorem Level.joins_unary_iff {kind : Kind} :
    joins .unary kind = true ↔ kind = .bang ∨ kind = .minus := by
  cases kind <;> simp [joins]

/-- Behind an expression of this rank, a token of this kind would become a part of it. -/
def Rank.goesOn (rank : Rank) (kind : Kind) : Bool := kind.rank?.any (·.depth ≤ rank.depth)

namespace Rank

variable {rank : Rank} {kind : Kind}

theorem goesOn_primary (kind : Kind) : primary.goesOn kind = false := by
  cases kind <;> rfl

theorem goesOn_tighter (h : rank.goesOn kind = false) : rank.tighter.goesOn kind = false := by
  unfold goesOn at h ⊢
  rw [depth_tighter]
  cases hrank : kind.rank? with
  | none => rfl
  | some rank' =>
    simp only [hrank, Option.any_some, decide_eq_false_iff_not] at h ⊢
    omega

/-- What joins expressions of a level is no part of an operand. -/
theorem goesOn_tighter_of_joins {level : Level} (hlevel : level ≠ .unary)
    (h : level.joins kind = true) : (operation level.tighter).goesOn kind = false := by
  have hdepth := Reading.levelDepth_tighter hlevel
  rw [Level.joins_iff hlevel] at h
  rw [goesOn, h, Option.any_some]
  exact decide_eq_false (Nat.not_le.mpr hdepth)

theorem joins_of_goesOn {level : Level} (hlevel : level ≠ .unary)
    (h : (operation level).goesOn kind = false) : level.joins kind = false := by
  by_contra hjoins
  rw [Bool.not_eq_false, Level.joins_iff hlevel] at hjoins
  simp [goesOn, hjoins] at h

end Rank

/-- A piece of a program, in its place. -/
inductive Phrase
  | expr (rank : Rank) (expr : Expr)
  | arguments (exprs : List Expr)
  | optional (expr : Option Expr)
  | initializer (expr : Option Expr)
  | parameters (names : List Token)
  | varDecl (name : Token) (initializer : Option Expr)
  | forStart (stmt : Option Stmt)
  | statement (isOpen : Bool) (stmt : Stmt)
  | block (stmts : List Stmt)
  | declaration (stmt : Stmt)
  | declarations (stmts : List Stmt)
  | routine (declaration : FunctionDecl)
  | routines (declarations : List FunctionDecl)

/-- The tokens that spell a piece of a program. -/
inductive Spelled : Phrase → List Token → Prop
  | literal {id value token} : token.kind.constant? = some value →
    Spelled (.expr .primary (.literal id value)) [token]
  | var {id name} : name.kind = .identifier → Spelled (.expr .primary (.var id name)) [name]
  | this {id keyword} : keyword.kind = .thisKw →
    Spelled (.expr .primary (.this id keyword)) [keyword]
  | grouping {id inner opening closing u} : opening.kind = .leftParen →
    Spelled (.expr .assignment inner) u → closing.kind = .rightParen →
    Spelled (.expr .primary (.grouping id inner)) (opening :: (u ++ [closing]))
  | call {id callee paren args opening u v} : Spelled (.expr .call callee) u →
    opening.kind = .leftParen → Spelled (.arguments args) v → args.length ≤ Reading.maxArity →
    paren.kind = .rightParen →
    Spelled (.expr .call (.call id callee paren args)) (u ++ opening :: (v ++ [paren]))
  | get {id object name dot u} : Spelled (.expr .call object) u → dot.kind = .dot →
    name.kind = .identifier → Spelled (.expr .call (.get id object name)) (u ++ [dot, name])
  | unary {id operator right u} : Level.joins .unary operator.kind = true →
    Spelled (.expr (.operation .unary) right) u →
    Spelled (.expr (.operation .unary) (.unary id operator right)) (operator :: u)
  | combine {level id left operator right u v} : level ≠ .unary →
    Spelled (.expr (.operation level) left) u → level.joins operator.kind = true →
    Spelled (.expr (.operation level.tighter) right) v →
    Spelled (.expr (.operation level) (level.combine left operator right id)) (u ++ operator :: v)
  | assign {id name equals value u} : name.kind = .identifier → equals.kind = .equal →
    Spelled (.expr .assignment value) u →
    Spelled (.expr .assignment (.assign id name value)) (name :: equals :: u)
  | set {id object dot name equals value u v} : Spelled (.expr .call object) u → dot.kind = .dot →
    name.kind = .identifier → equals.kind = .equal → Spelled (.expr .assignment value) v →
    Spelled (.expr .assignment (.set id object name value)) (u ++ dot :: name :: equals :: v)
  | loosen {rank expr u} : Spelled (.expr rank.tighter expr) u → Spelled (.expr rank expr) u
  | noArguments : Spelled (.arguments []) []
  | lastArgument {expr u} : Spelled (.expr .assignment expr) u → Spelled (.arguments [expr]) u
  | moreArguments {expr next exprs comma u v} : Spelled (.expr .assignment expr) u →
    comma.kind = .comma → Spelled (.arguments (next :: exprs)) v →
    Spelled (.arguments (expr :: next :: exprs)) (u ++ comma :: v)
  | absent : Spelled (.optional none) []
  | present {expr u} : Spelled (.expr .assignment expr) u → Spelled (.optional (some expr)) u
  | noInitializer : Spelled (.initializer none) []
  | initializer {expr equals u} : equals.kind = .equal → Spelled (.expr .assignment expr) u →
    Spelled (.initializer (some expr)) (equals :: u)
  | noParameters : Spelled (.parameters []) []
  | lastParameter {name} : name.kind = .identifier → Spelled (.parameters [name]) [name]
  | moreParameters {name next names comma v} : name.kind = .identifier → comma.kind = .comma →
    Spelled (.parameters (next :: names)) v →
    Spelled (.parameters (name :: next :: names)) (name :: comma :: v)
  | varDecl {keyword name initializer semicolon u} : keyword.kind = .varKw →
    name.kind = .identifier → Spelled (.initializer initializer) u → semicolon.kind = .semicolon →
    Spelled (.varDecl name initializer) (keyword :: name :: (u ++ [semicolon]))
  | expression {expr semicolon u} : Spelled (.expr .assignment expr) u →
    semicolon.kind = .semicolon → Spelled (.statement false (.expression expr)) (u ++ [semicolon])
  | print {keyword expr semicolon u} : keyword.kind = .printKw →
    Spelled (.expr .assignment expr) u → semicolon.kind = .semicolon →
    Spelled (.statement false (.print expr)) (keyword :: (u ++ [semicolon]))
  | returnStmt {keyword value semicolon u} : keyword.kind = .returnKw →
    Spelled (.optional value) u → semicolon.kind = .semicolon →
    Spelled (.statement false (.returnStmt keyword value)) (keyword :: (u ++ [semicolon]))
  | braced {body u} : Spelled (.block body) u → Spelled (.statement false (.block body)) u
  | ifThen {keyword opening condition closing isOpen thenBranch u v} : keyword.kind = .ifKw →
    opening.kind = .leftParen → Spelled (.expr .assignment condition) u →
    closing.kind = .rightParen → Spelled (.statement isOpen thenBranch) v →
    Spelled (.statement true (.ifThen condition thenBranch))
      (keyword :: opening :: (u ++ closing :: v))
  | ifElse {keyword opening condition closing thenBranch elseKeyword isOpen elseBranch u v w} :
    keyword.kind = .ifKw → opening.kind = .leftParen → Spelled (.expr .assignment condition) u →
    closing.kind = .rightParen → Spelled (.statement false thenBranch) v →
    elseKeyword.kind = .elseKw → Spelled (.statement isOpen elseBranch) w →
    Spelled (.statement isOpen (.ifElse condition thenBranch elseBranch))
      (keyword :: opening :: (u ++ closing :: (v ++ elseKeyword :: w)))
  | whileLoop {keyword opening condition closing isOpen body u v} : keyword.kind = .whileKw →
    opening.kind = .leftParen → Spelled (.expr .assignment condition) u →
    closing.kind = .rightParen → Spelled (.statement isOpen body) v →
    Spelled (.statement isOpen (.whileLoop condition body))
      (keyword :: opening :: (u ++ closing :: v))
  | forLoop (id) {keyword opening start condition semicolon increment closing isOpen body u v w x} :
    keyword.kind = .forKw → opening.kind = .leftParen → Spelled (.forStart start) u →
    Spelled (.optional condition) v → semicolon.kind = .semicolon →
    Spelled (.optional increment) w → closing.kind = .rightParen →
    Spelled (.statement isOpen body) x →
    Spelled (.statement isOpen (Reading.forLoop start
        (condition.getD (.literal id (.bool true))) increment body))
      (keyword :: opening :: (u ++ (v ++ semicolon :: (w ++ closing :: x))))
  | noStart {semicolon} : semicolon.kind = .semicolon → Spelled (.forStart none) [semicolon]
  | varStart {name initializer u} : Spelled (.varDecl name initializer) u →
    Spelled (.forStart (some (.varDecl name initializer))) u
  | exprStart {expr semicolon u} : Spelled (.expr .assignment expr) u →
    semicolon.kind = .semicolon → Spelled (.forStart (some (.expression expr))) (u ++ [semicolon])
  | block {opening body closing u} : opening.kind = .leftBrace → Spelled (.declarations body) u →
    closing.kind = .rightBrace → Spelled (.block body) (opening :: (u ++ [closing]))
  | classDecl {keyword name opening methods closing u} : keyword.kind = .classKw →
    name.kind = .identifier → opening.kind = .leftBrace → Spelled (.routines methods) u →
    closing.kind = .rightBrace →
    Spelled (.declaration (.classDecl name methods))
      (keyword :: name :: opening :: (u ++ [closing]))
  | funDecl {keyword declaration u} : keyword.kind = .funKw → Spelled (.routine declaration) u →
    Spelled (.declaration (.funDecl declaration)) (keyword :: u)
  | varDeclared {name initializer u} : Spelled (.varDecl name initializer) u →
    Spelled (.declaration (.varDecl name initializer)) u
  | stated {isOpen stmt u} : Spelled (.statement isOpen stmt) u → Spelled (.declaration stmt) u
  | noDeclarations : Spelled (.declarations []) []
  | declarations {stmt stmts u v} : Spelled (.declaration stmt) u →
    Spelled (.declarations stmts) v → Spelled (.declarations (stmt :: stmts)) (u ++ v)
  | routine {name opening params closing body u v} : name.kind = .identifier →
    opening.kind = .leftParen → Spelled (.parameters params) u →
    params.length ≤ Reading.maxArity → closing.kind = .rightParen → Spelled (.block body) v →
    Spelled (.routine ⟨name, params, body⟩) (name :: opening :: (u ++ closing :: v))
  | noRoutines : Spelled (.routines []) []
  | routines {declaration declarations u v} : Spelled (.routine declaration) u →
    Spelled (.routines declarations) v → Spelled (.routines (declaration :: declarations)) (u ++ v)

namespace Spelled

/-- In a looser place, an expression is spelled in the same way. -/
theorem of_depth_le {rank rank' : Rank} {expr : Expr} {u : List Token}
    (h : Spelled (.expr rank expr) u) (hle : rank.depth ≤ rank'.depth) :
    Spelled (.expr rank' expr) u :=
  Rank.of_depth_le (P := fun rank => Spelled (.expr rank expr) u) (fun _ => .loosen) hle h

theorem kind_ne_eof {phrase : Phrase} {u : List Token} (h : Spelled phrase u) :
    ∀ token ∈ u, token.kind ≠ .eof := by
  induction h with
  | @literal id value token hvalue =>
    simp only [List.forall_mem_singleton]
    intro hkind
    simp [hkind, Kind.constant?] at hvalue
  | @unary id operator right u hjoins _ ih =>
    refine List.forall_mem_cons.mpr ⟨fun hkind => ?_, ih⟩
    simp [hkind, Level.joins] at hjoins
  | @combine level id left operator right u v hlevel _ hjoins _ ih ih' =>
    refine List.forall_mem_append.mpr ⟨ih, List.forall_mem_cons.mpr ⟨fun hkind => ?_, ih'⟩⟩
    simp [Level.joins_iff hlevel, hkind, Kind.rank?] at hjoins
  | _ =>
    simp_all only [List.forall_mem_append, List.forall_mem_cons, ne_eq, reduceCtorEq,
      not_false_eq_true, and_self, List.not_mem_nil, false_implies, implies_true]

end Spelled

namespace Kind

/-- A primary expression can start with a token of this kind. -/
def startsPrimary (kind : Kind) : Bool :=
  kind.constant?.isSome || kind = .thisKw || kind = .identifier || kind = .leftParen

theorem joins_of_startsPrimary {kind : Kind} (h : kind.startsPrimary = true) :
    Level.joins .unary kind = false := by
  cases kind <;> first | rfl | exact absurd h (by decide)

def startsExpression (kind : Kind) : Bool := kind.startsPrimary || Level.joins .unary kind

def startsStatement (kind : Kind) : Bool :=
  kind.startsExpression || kind = .forKw || kind = .ifKw || kind = .printKw || kind = .returnKw ||
    kind = .whileKw || kind = .leftBrace

def startsDeclaration (kind : Kind) : Bool :=
  kind.startsStatement || kind = .classKw || kind = .funKw || kind = .varKw

end Kind

/-- The first tokens of the pieces that are told by them. -/
def Phrase.Starts : Phrase → Kind → Prop
  | .expr (.assignment) _, kind | .expr (.operation _) _, kind => kind.startsExpression = true
  | .expr .call _, kind | .expr .primary _, kind => kind.startsPrimary = true
  | .arguments (_ :: _), kind => kind.startsExpression = true
  | .parameters (_ :: _), kind => kind = .identifier
  | .varDecl _ _, kind => kind = .varKw
  | .statement _ _, kind => kind.startsStatement = true
  | .block _, kind => kind = .leftBrace
  | .declaration _, kind => kind.startsDeclaration = true
  | .routine _, kind => kind = .identifier
  | _, _ => True

def firstKind (tokens : List Token) : Kind := (tokens.head?.map Token.kind).getD .eof

@[simp] theorem firstKind_cons (token : Token) (tokens : List Token) :
    firstKind (token :: tokens) = token.kind := rfl

@[simp] theorem firstKind_nil : firstKind [] = .eof := rfl

theorem firstKind_append {u : List Token} (h : u ≠ []) (v : List Token) :
    firstKind (u ++ v) = firstKind u := by
  cases u with
  | nil => exact absurd rfl h
  | cons token u => rfl

namespace Spelled

theorem ne_nil_expr {rank : Rank} {expr : Expr} {u : List Token} (h : Spelled (.expr rank expr) u) :
    u ≠ [] := by
  generalize hphrase : Phrase.expr rank expr = phrase at h
  induction h generalizing rank expr <;> cases hphrase
  all_goals simp_all

theorem starts {phrase : Phrase} {u : List Token} (h : Spelled phrase u) :
    phrase.Starts (firstKind u) := by
  induction h with
  | literal hvalue => simp [Phrase.Starts, Kind.startsPrimary, hvalue]
  | var hname => simp [Phrase.Starts, Kind.startsPrimary, hname]
  | this hkeyword => simp [Phrase.Starts, Kind.startsPrimary, hkeyword]
  | grouping hopening => simp [Phrase.Starts, Kind.startsPrimary, hopening]
  | call h _ _ _ _ ih | get h _ _ ih => rw [firstKind_append h.ne_nil_expr]; exact ih
  | combine _ h _ _ ih => rw [firstKind_append h.ne_nil_expr]; exact ih
  | set h _ _ _ _ ih =>
    rw [firstKind_append h.ne_nil_expr]
    exact Bool.or_eq_true_iff.mpr (.inl ih)
  | unary hjoins => simp [Phrase.Starts, Kind.startsExpression, hjoins]
  | assign hname => simp [Phrase.Starts, Kind.startsExpression, Kind.startsPrimary, hname]
  | @loosen rank expr u _ ih =>
    rcases rank with _ | level | _ | _
    · exact ih
    · by_cases hlevel : level = .unary
      · subst hlevel
        exact Bool.or_eq_true_iff.mpr (.inl ih)
      · rw [Rank.tighter_operation hlevel] at ih
        exact ih
    · exact ih
    · exact ih
  | moreArguments h _ _ ih => rw [firstKind_append h.ne_nil_expr]; exact ih
  | expression h _ ih =>
    rw [firstKind_append h.ne_nil_expr]
    simp_all [Phrase.Starts, Kind.startsStatement]
  | _ => simp_all [Phrase.Starts, Kind.startsStatement, Kind.startsDeclaration]

theorem of_var {rank : Rank} {id : Nat} {name : Token} {u : List Token}
    (h : Spelled (.expr rank (.var id name)) u) : u = [name] ∧ name.kind = .identifier := by
  generalize hphrase : Phrase.expr rank (.var id name) = phrase at h
  induction h generalizing rank with
  | var hname =>
    cases hphrase
    exact ⟨rfl, hname⟩
  | @combine level =>
    obtain ⟨-, hexpr⟩ := Phrase.expr.inj hphrase
    cases level <;> cases hexpr
  | loosen _ ih =>
    cases hphrase
    exact ih rfl
  | _ => cases hphrase

theorem of_get {rank : Rank} {id : Nat} {object : Expr} {name : Token} {u : List Token}
    (h : Spelled (.expr rank (.get id object name)) u) : name.kind = .identifier ∧
      ∃ v dot, u = v ++ [dot, name] ∧ dot.kind = .dot ∧ Spelled (.expr .call object) v := by
  generalize hphrase : Phrase.expr rank (.get id object name) = phrase at h
  induction h generalizing rank with
  | get hobject hdot hname =>
    cases hphrase
    exact ⟨hname, _, _, rfl, hdot, hobject⟩
  | @combine level =>
    obtain ⟨-, hexpr⟩ := Phrase.expr.inj hphrase
    cases level <;> cases hexpr
  | loosen _ ih =>
    cases hphrase
    exact ih rfl
  | _ => cases hphrase

/-- An `else` behind an open statement belongs to the last `if` in it that has none. -/
theorem attachElse {stmt elseBranch : Stmt} {isOpen : Bool} {keyword : Token} {u v : List Token}
    (h : Spelled (.statement true stmt) u) (hkeyword : keyword.kind = .elseKw)
    (helse : Spelled (.statement isOpen elseBranch) v) :
    ∃ isOpen' stmt', Spelled (.statement isOpen' stmt') (u ++ keyword :: v) := by
  generalize hphrase : Phrase.statement true stmt = phrase at h
  induction h generalizing stmt <;> cases hphrase
  all_goals simp only [List.cons_append, List.append_assoc]
  case ifThen isOpenThen _ _ _ hif hopening hcondition hclosing hthen _ ih =>
    cases isOpenThen with
    | true =>
      obtain ⟨isOpen', stmt', hinner⟩ := ih rfl
      exact ⟨_, _, ifThen hif hopening hcondition hclosing hinner⟩
    | false => exact ⟨_, _, ifElse hif hopening hcondition hclosing hthen hkeyword helse⟩
  case ifElse hif hopening hcondition hclosing hthen hkeyword' _ _ _ ih =>
    obtain ⟨isOpen', stmt', hinner⟩ := ih rfl
    exact ⟨_, _, ifElse hif hopening hcondition hclosing hthen hkeyword' hinner⟩
  case whileLoop hwhile hopening hcondition hclosing _ _ ih =>
    obtain ⟨isOpen', stmt', hinner⟩ := ih rfl
    exact ⟨_, _, whileLoop hwhile hopening hcondition hclosing hinner⟩
  case forLoop hfor hopening hstart hcondition hsemicolon hincrement hclosing _ _ _ _ ih =>
    obtain ⟨isOpen', stmt', hinner⟩ := ih rfl
    exact ⟨_, _,
      forLoop 0 hfor hopening hstart hcondition hsemicolon hincrement hclosing hinner⟩

end Spelled

end LoxLang
