import LoxLang.Tree

/-!
# Programs on other lines

The same program with the line of every token changed by a function. Nothing but reports of faults
depends on lines, so whatever a program does, it does on other lines, too.
-/
namespace LoxLang

/-- The same token on another line. -/
def Token.renumber (f : Nat → Nat) (token : Token) : Token := { token with line := f token.line }

@[simp] theorem Token.kind_renumber (f : Nat → Nat) (token : Token) :
    (token.renumber f).kind = token.kind := rfl

@[simp] theorem Token.lexeme_renumber (f : Nat → Nat) (token : Token) :
    (token.renumber f).lexeme = token.lexeme := rfl

mutual

def Expr.renumber (f : Nat → Nat) : Expr → Expr
  | .literal id value => .literal id value
  | .grouping id inner => .grouping id (inner.renumber f)
  | .unary id operator right => .unary id (operator.renumber f) (right.renumber f)
  | .binary id left operator right =>
    .binary id (left.renumber f) (operator.renumber f) (right.renumber f)
  | .logical id left operator right =>
    .logical id (left.renumber f) (operator.renumber f) (right.renumber f)
  | .var id name => .var id (name.renumber f)
  | .assign id name value => .assign id (name.renumber f) (value.renumber f)
  | .call id callee paren arguments =>
    .call id (callee.renumber f) (paren.renumber f) (Expr.renumberAll f arguments)
  | .get id object name => .get id (object.renumber f) (name.renumber f)
  | .set id object name value => .set id (object.renumber f) (name.renumber f) (value.renumber f)
  | .this id keyword => .this id (keyword.renumber f)

def Expr.renumberAll (f : Nat → Nat) : List Expr → List Expr
  | [] => []
  | expr :: exprs => expr.renumber f :: Expr.renumberAll f exprs

end

mutual

def Stmt.renumber (f : Nat → Nat) : Stmt → Stmt
  | .expression expr => .expression (expr.renumber f)
  | .print expr => .print (expr.renumber f)
  | .varDecl name initializer => .varDecl (name.renumber f) (initializer.map (Expr.renumber f))
  | .block body => .block (Stmt.renumberAll f body)
  | .ifThen condition thenBranch => .ifThen (condition.renumber f) (thenBranch.renumber f)
  | .ifElse condition thenBranch elseBranch =>
    .ifElse (condition.renumber f) (thenBranch.renumber f) (elseBranch.renumber f)
  | .whileLoop condition body => .whileLoop (condition.renumber f) (body.renumber f)
  | .funDecl declaration => .funDecl (declaration.renumber f)
  | .returnStmt keyword value => .returnStmt (keyword.renumber f) (value.map (Expr.renumber f))
  | .classDecl name methods => .classDecl (name.renumber f) (FunctionDecl.renumberAll f methods)

def Stmt.renumberAll (f : Nat → Nat) : List Stmt → List Stmt
  | [] => []
  | stmt :: stmts => stmt.renumber f :: Stmt.renumberAll f stmts

def FunctionDecl.renumber (f : Nat → Nat) : FunctionDecl → FunctionDecl
  | ⟨name, params, body⟩ =>
    ⟨name.renumber f, params.map (Token.renumber f), Stmt.renumberAll f body⟩

def FunctionDecl.renumberAll (f : Nat → Nat) : List FunctionDecl → List FunctionDecl
  | [] => []
  | declaration :: declarations =>
    declaration.renumber f :: FunctionDecl.renumberAll f declarations

end

section Parts

variable (f : Nat → Nat)

@[simp] theorem FunctionDecl.params_renumber (declaration : FunctionDecl) :
    (declaration.renumber f).params = declaration.params.map (Token.renumber f) := by
  cases declaration
  rfl

@[simp] theorem FunctionDecl.body_renumber (declaration : FunctionDecl) :
    (declaration.renumber f).body = Stmt.renumberAll f declaration.body := by
  cases declaration
  rfl

@[simp] theorem FunctionDecl.name_renumber (declaration : FunctionDecl) :
    (declaration.renumber f).name = declaration.name.renumber f := by
  cases declaration
  rfl

end Parts

section Composition

variable (f g : Nat → Nat)

theorem Token.renumber_renumber (token : Token) :
    (token.renumber f).renumber g = token.renumber fun line => g (f line) := rfl

mutual

theorem Expr.renumber_renumber (expr : Expr) :
    (expr.renumber f).renumber g = expr.renumber fun line => g (f line) := by
  cases expr <;> simp only [renumber, Token.renumber_renumber, Expr.renumber_renumber,
    Expr.renumberAll_renumberAll]

theorem Expr.renumberAll_renumberAll (exprs : List Expr) :
    Expr.renumberAll g (Expr.renumberAll f exprs) =
      Expr.renumberAll (fun line => g (f line)) exprs := by
  cases exprs <;> simp only [renumberAll, Expr.renumber_renumber, Expr.renumberAll_renumberAll]

end

theorem Expr.map_renumber_renumber (expr : Option Expr) :
    (expr.map (Expr.renumber f)).map (Expr.renumber g) =
      expr.map (Expr.renumber fun line => g (f line)) := by
  cases expr with
  | none => rfl
  | some expr => exact congrArg some (expr.renumber_renumber f g)

mutual

theorem Stmt.renumber_renumber :
    ∀ stmt : Stmt, (stmt.renumber f).renumber g = stmt.renumber fun line => g (f line)
  | .expression expr => by simp only [Stmt.renumber, expr.renumber_renumber f g]
  | .print expr => by simp only [Stmt.renumber, expr.renumber_renumber f g]
  | .varDecl name initializer => by
    simp only [Stmt.renumber, Token.renumber_renumber, Expr.map_renumber_renumber]
  | .block body => by simp only [Stmt.renumber, Stmt.renumberAll_renumberAll body]
  | .ifThen condition thenBranch => by
    simp only [Stmt.renumber, Expr.renumber_renumber, thenBranch.renumber_renumber]
  | .ifElse condition thenBranch elseBranch => by
    simp only [Stmt.renumber, Expr.renumber_renumber, thenBranch.renumber_renumber,
      elseBranch.renumber_renumber]
  | .whileLoop condition body => by
    simp only [Stmt.renumber, Expr.renumber_renumber, body.renumber_renumber]
  | .funDecl declaration => by simp only [Stmt.renumber, declaration.renumber_renumber]
  | .returnStmt keyword value => by
    simp only [Stmt.renumber, Token.renumber_renumber, Expr.map_renumber_renumber]
  | .classDecl name methods => by
    simp only [Stmt.renumber, Token.renumber_renumber,
      FunctionDecl.renumberAll_renumberAll methods]

theorem Stmt.renumberAll_renumberAll :
    ∀ stmts : List Stmt, Stmt.renumberAll g (Stmt.renumberAll f stmts) =
      Stmt.renumberAll (fun line => g (f line)) stmts
  | [] => rfl
  | stmt :: stmts => by
    simp only [Stmt.renumberAll, stmt.renumber_renumber, Stmt.renumberAll_renumberAll stmts]

theorem FunctionDecl.renumber_renumber : ∀ declaration : FunctionDecl,
    (declaration.renumber f).renumber g = declaration.renumber fun line => g (f line)
  | ⟨name, params, body⟩ => by
    simp only [FunctionDecl.renumber, Token.renumber_renumber, List.map_map,
      Stmt.renumberAll_renumberAll body]
    rfl

theorem FunctionDecl.renumberAll_renumberAll :
    ∀ declarations : List FunctionDecl,
      FunctionDecl.renumberAll g (FunctionDecl.renumberAll f declarations) =
        FunctionDecl.renumberAll (fun line => g (f line)) declarations
  | [] => rfl
  | declaration :: declarations => by
    simp only [FunctionDecl.renumberAll, declaration.renumber_renumber,
      FunctionDecl.renumberAll_renumberAll declarations]

end

end Composition

section Identity

theorem Token.map_renumber_id (tokens : List Token) :
    tokens.map (Token.renumber fun line => line) = tokens := List.map_id tokens

mutual

@[simp] theorem Expr.renumber_id : ∀ expr : Expr, expr.renumber (fun line => line) = expr
  | .literal _ _ | .var _ _ | .this _ _ => rfl
  | .grouping _ inner => by rw [renumber, inner.renumber_id]
  | .unary _ operator right => by rw [renumber, right.renumber_id]; rfl
  | .binary _ left operator right => by rw [renumber, left.renumber_id, right.renumber_id]; rfl
  | .logical _ left operator right => by rw [renumber, left.renumber_id, right.renumber_id]; rfl
  | .assign _ name value => by rw [renumber, value.renumber_id]; rfl
  | .call _ callee paren arguments => by
    rw [renumber, callee.renumber_id, Expr.renumberAll_id arguments]
    rfl
  | .get _ object name => by rw [renumber, object.renumber_id]; rfl
  | .set _ object name value => by rw [renumber, object.renumber_id, value.renumber_id]; rfl

theorem Expr.renumberAll_id :
    ∀ exprs : List Expr, Expr.renumberAll (fun line => line) exprs = exprs
  | [] => rfl
  | expr :: exprs => by rw [renumberAll, expr.renumber_id, Expr.renumberAll_id exprs]

end

theorem Expr.map_renumber_id (expr : Option Expr) :
    expr.map (Expr.renumber fun line => line) = expr := by
  cases expr <;> simp

mutual

theorem Stmt.renumber_id : ∀ stmt : Stmt, stmt.renumber (fun line => line) = stmt
  | .expression expr | .print expr => by rw [Stmt.renumber, expr.renumber_id]
  | .varDecl name initializer => by rw [Stmt.renumber, Expr.map_renumber_id]; rfl
  | .block body => by rw [Stmt.renumber, Stmt.renumberAll_id body]
  | .ifThen condition thenBranch => by
    rw [Stmt.renumber, condition.renumber_id, thenBranch.renumber_id]
  | .ifElse condition thenBranch elseBranch => by
    rw [Stmt.renumber, condition.renumber_id, thenBranch.renumber_id, elseBranch.renumber_id]
  | .whileLoop condition body => by rw [Stmt.renumber, condition.renumber_id, body.renumber_id]
  | .funDecl declaration => by rw [Stmt.renumber, declaration.renumber_id]
  | .returnStmt keyword value => by rw [Stmt.renumber, Expr.map_renumber_id]; rfl
  | .classDecl name methods => by
    rw [Stmt.renumber, FunctionDecl.renumberAll_id methods]
    rfl

theorem Stmt.renumberAll_id :
    ∀ stmts : List Stmt, Stmt.renumberAll (fun line => line) stmts = stmts
  | [] => rfl
  | stmt :: stmts => by rw [Stmt.renumberAll, stmt.renumber_id, Stmt.renumberAll_id stmts]

theorem FunctionDecl.renumber_id :
    ∀ declaration : FunctionDecl, declaration.renumber (fun line => line) = declaration
  | ⟨name, params, body⟩ => by
    rw [FunctionDecl.renumber, Stmt.renumberAll_id body]
    exact congrArg (FunctionDecl.mk name · body) (Token.map_renumber_id params)

theorem FunctionDecl.renumberAll_id : ∀ declarations : List FunctionDecl,
    FunctionDecl.renumberAll (fun line => line) declarations = declarations
  | [] => rfl
  | declaration :: declarations => by
    rw [FunctionDecl.renumberAll, declaration.renumber_id,
      FunctionDecl.renumberAll_id declarations]

end

end Identity

end LoxLang
