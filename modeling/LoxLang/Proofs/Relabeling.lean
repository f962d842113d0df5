import LoxLang.Proofs.Reading.Identities

/-!
# Programs with other identities

The same program with the identity of every expression changed by a function. Identities are given
away while a program is read and tell occurrences of names apart; the text of a program tells
nothing about them.
-/
namespace LoxLang

mutual

def Expr.relabel (g : Nat → Nat) : Expr → Expr
  | .literal id value => .literal (g id) value
  | .grouping id inner => .grouping (g id) (inner.relabel g)
  | .unary id operator right => .unary (g id) operator (right.relabel g)
  | .binary id left operator right => .binary (g id) (left.relabel g) operator (right.relabel g)
  | .logical id left operator right => .logical (g id) (left.relabel g) operator (right.relabel g)
  | .var id name => .var (g id) name
  | .assign id name value => .assign (g id) name (value.relabel g)
  | .call id callee paren arguments =>
    .call (g id) (callee.relabel g) paren (Expr.relabelAll g arguments)
  | .get id object name => .get (g id) (object.relabel g) name
  | .set id object name value => .set (g id) (object.relabel g) name (value.relabel g)
  | .this id keyword => .this (g id) keyword

def Expr.relabelAll (g : Nat → Nat) : List Expr → List Expr
  | [] => []
  | expr :: exprs => expr.relabel g :: Expr.relabelAll g exprs

end

mutual

def Stmt.relabel (g : Nat → Nat) : Stmt → Stmt
  | .expression expr => .expression (expr.relabel g)
  | .print expr => .print (expr.relabel g)
  | .varDecl name initializer => .varDecl name (initializer.map (Expr.relabel g))
  | .block body => .block (Stmt.relabelAll g body)
  | .ifThen condition thenBranch => .ifThen (condition.relabel g) (thenBranch.relabel g)
  | .ifElse condition thenBranch elseBranch =>
    .ifElse (condition.relabel g) (thenBranch.relabel g) (elseBranch.relabel g)
  | .whileLoop condition body => .whileLoop (condition.relabel g) (body.relabel g)
  | .funDecl declaration => .funDecl (declaration.relabel g)
  | .returnStmt keyword value => .returnStmt keyword (value.map (Expr.relabel g))
  | .classDecl name methods => .classDecl name (FunctionDecl.relabelAll g methods)

def Stmt.relabelAll (g : Nat → Nat) : List Stmt → List Stmt
  | [] => []
  | stmt :: stmts => stmt.relabel g :: Stmt.relabelAll g stmts

def FunctionDecl.relabel (g : Nat → Nat) : FunctionDecl → FunctionDecl
  | ⟨name, params, body⟩ => ⟨name, params, Stmt.relabelAll g body⟩

def FunctionDecl.relabelAll (g : Nat → Nat) : List FunctionDecl → List FunctionDecl
  | [] => []
  | declaration :: declarations =>
    declaration.relabel g :: FunctionDecl.relabelAll g declarations

end

section Parts

variable (g : Nat → Nat)

@[simp] theorem Expr.id_relabel (expr : Expr) : (expr.relabel g).id = g expr.id := by
  cases expr <;> rfl

@[simp] theorem FunctionDecl.params_relabel (declaration : FunctionDecl) :
    (declaration.relabel g).params = declaration.params := by
  cases declaration
  rfl

@[simp] theorem FunctionDecl.body_relabel (declaration : FunctionDecl) :
    (declaration.relabel g).body = Stmt.relabelAll g declaration.body := by
  cases declaration
  rfl

@[simp] theorem FunctionDecl.name_relabel (declaration : FunctionDecl) :
    (declaration.relabel g).name = declaration.name := by
  cases declaration
  rfl

end Parts

/-! Only the identities that occur in a program matter. -/
section Congruence

variable {g g' : Nat → Nat}

mutual

theorem Expr.relabel_congr : ∀ {expr : Expr}, (∀ id ∈ expr.ids, g id = g' id) →
    expr.relabel g = expr.relabel g'
  | .literal id _, h | .var id _, h | .this id _, h => by
    simp [relabel, h id (by simp [ids])]
  | .grouping id inner, h | .unary id _ inner, h | .assign id _ inner, h | .get id inner _, h => by
    obtain ⟨hinner, hid⟩ := List.forall_mem_append.mp h
    simp [relabel, hid id (by simp), Expr.relabel_congr hinner]
  | .binary id left _ right, h | .logical id left _ right, h | .set id left _ right, h => by
    simp only [ids, List.forall_mem_append, List.forall_mem_singleton] at h
    simp [relabel, h.2, Expr.relabel_congr h.1.1, Expr.relabel_congr h.1.2]
  | .call id callee paren arguments, h => by
    simp only [ids, List.forall_mem_append, List.forall_mem_singleton] at h
    simp [relabel, h.2, Expr.relabel_congr h.1.1, Expr.relabelAll_congr h.1.2]

theorem Expr.relabelAll_congr : ∀ {exprs : List Expr}, (∀ id ∈ Expr.idsAll exprs, g id = g' id) →
    Expr.relabelAll g exprs = Expr.relabelAll g' exprs
  | [], _ => rfl
  | expr :: exprs, h => by
    obtain ⟨hexpr, hexprs⟩ := List.forall_mem_append.mp h
    rw [relabelAll, relabelAll, Expr.relabel_congr hexpr, Expr.relabelAll_congr hexprs]

end

theorem Expr.map_relabel_congr {expr : Option Expr} (h : ∀ id ∈ Expr.idsOption expr, g id = g' id) :
    expr.map (Expr.relabel g) = expr.map (Expr.relabel g') := by
  cases expr with
  | none => rfl
  | some expr => exact congrArg some (Expr.relabel_congr h)

mutual

theorem Stmt.relabel_congr : ∀ {stmt : Stmt}, (∀ id ∈ stmt.ids, g id = g' id) →
    stmt.relabel g = stmt.relabel g'
  | .expression _, h => congrArg Stmt.expression (Expr.relabel_congr h)
  | .print _, h => congrArg Stmt.print (Expr.relabel_congr h)
  | .varDecl name _, h => congrArg (Stmt.varDecl name) (Expr.map_relabel_congr h)
  | .block _, h => congrArg Stmt.block (Stmt.relabelAll_congr h)
  | .ifThen condition thenBranch, h | .whileLoop condition thenBranch, h => by
    obtain ⟨hcondition, hthen⟩ := List.forall_mem_append.mp h
    simp [Stmt.relabel, Expr.relabel_congr hcondition, Stmt.relabel_congr hthen]
  | .ifElse condition thenBranch elseBranch, h => by
    simp only [Stmt.ids, List.forall_mem_append] at h
    simp [Stmt.relabel, Expr.relabel_congr h.1.1, Stmt.relabel_congr h.1.2, Stmt.relabel_congr h.2]
  | .funDecl _, h => congrArg Stmt.funDecl (FunctionDecl.relabel_congr h)
  | .returnStmt keyword _, h => congrArg (Stmt.returnStmt keyword) (Expr.map_relabel_congr h)
  | .classDecl name _, h => congrArg (Stmt.classDecl name) (FunctionDecl.relabelAll_congr h)

theorem Stmt.relabelAll_congr : ∀ {stmts : List Stmt}, (∀ id ∈ Stmt.idsAll stmts, g id = g' id) →
    Stmt.relabelAll g stmts = Stmt.relabelAll g' stmts
  | [], _ => rfl
  | stmt :: stmts, h => by
    obtain ⟨hstmt, hstmts⟩ := List.forall_mem_append.mp h
    rw [Stmt.relabelAll, Stmt.relabelAll, Stmt.relabel_congr hstmt, Stmt.relabelAll_congr hstmts]

theorem FunctionDecl.relabel_congr : ∀ {declaration : FunctionDecl},
    (∀ id ∈ declaration.ids, g id = g' id) → declaration.relabel g = declaration.relabel g'
  | ⟨name, params, _⟩, h => congrArg (FunctionDecl.mk name params) (Stmt.relabelAll_congr h)

theorem FunctionDecl.relabelAll_congr : ∀ {declarations : List FunctionDecl},
    (∀ id ∈ FunctionDecl.idsAll declarations, g id = g' id) →
      FunctionDecl.relabelAll g declarations = FunctionDecl.relabelAll g' declarations
  | [], _ => rfl
  | declaration :: declarations, h => by
    obtain ⟨hfirst, hrest⟩ := List.forall_mem_append.mp h
    rw [FunctionDecl.relabelAll, FunctionDecl.relabelAll, FunctionDecl.relabel_congr hfirst,
      FunctionDecl.relabelAll_congr hrest]

end

end Congruence

section Identity

mutual

@[simp] theorem Expr.relabel_id : ∀ expr : Expr, expr.relabel (fun id => id) = expr
  | .literal _ _ | .var _ _ | .this _ _ => rfl
  | .grouping _ inner => by rw [relabel, inner.relabel_id]
  | .unary _ _ right => by rw [relabel, right.relabel_id]
  | .binary _ left _ right | .logical _ left _ right => by
    rw [relabel, left.relabel_id, right.relabel_id]
  | .assign _ _ value => by rw [relabel, value.relabel_id]
  | .call _ callee _ arguments => by
    rw [relabel, callee.relabel_id, Expr.relabelAll_id arguments]
  | .get _ object _ => by rw [relabel, object.relabel_id]
  | .set _ object _ value => by rw [relabel, object.relabel_id, value.relabel_id]

@[simp] theorem Expr.relabelAll_id :
    ∀ exprs : List Expr, Expr.relabelAll (fun id => id) exprs = exprs
  | [] => rfl
  | expr :: exprs => by rw [relabelAll, expr.relabel_id, Expr.relabelAll_id exprs]

end

@[simp] theorem Expr.map_relabel_id (expr : Option Expr) :
    expr.map (Expr.relabel fun id => id) = expr := by
  cases expr <;> simp

mutual

@[simp] theorem Stmt.relabel_id : ∀ stmt : Stmt, stmt.relabel (fun id => id) = stmt
  | .expression expr | .print expr => by rw [Stmt.relabel, expr.relabel_id]
  | .varDecl _ initializer => by rw [Stmt.relabel, Expr.map_relabel_id]
  | .block body => by rw [Stmt.relabel, Stmt.relabelAll_id body]
  | .ifThen condition thenBranch => by
    rw [Stmt.relabel, condition.relabel_id, thenBranch.relabel_id]
  | .ifElse condition thenBranch elseBranch => by
    rw [Stmt.relabel, condition.relabel_id, thenBranch.relabel_id, elseBranch.relabel_id]
  | .whileLoop condition body => by rw [Stmt.relabel, condition.relabel_id, body.relabel_id]
  | .funDecl declaration => by rw [Stmt.relabel, declaration.relabel_id]
  | .returnStmt _ value => by rw [Stmt.relabel, Expr.map_relabel_id]
  | .classDecl _ methods => by rw [Stmt.relabel, FunctionDecl.relabelAll_id methods]

@[simp] theorem Stmt.relabelAll_id :
    ∀ stmts : List Stmt, Stmt.relabelAll (fun id => id) stmts = stmts
  | [] => rfl
  | stmt :: stmts => by rw [Stmt.relabelAll, stmt.relabel_id, Stmt.relabelAll_id stmts]

@[simp] theorem FunctionDecl.relabel_id :
    ∀ declaration : FunctionDecl, declaration.relabel (fun id => id) = declaration
  | ⟨_, _, body⟩ => by rw [FunctionDecl.relabel, Stmt.relabelAll_id body]

@[simp] theorem FunctionDecl.relabelAll_id : ∀ declarations : List FunctionDecl,
    FunctionDecl.relabelAll (fun id => id) declarations = declarations
  | [] => rfl
  | declaration :: declarations => by
    rw [FunctionDecl.relabelAll, declaration.relabel_id, FunctionDecl.relabelAll_id declarations]

end

end Identity

end LoxLang
