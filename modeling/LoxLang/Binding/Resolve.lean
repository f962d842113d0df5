import LoxLang.Binding.Scope
import LoxLang.Tree

/-!
# Binding names

One walk over a program finds the distance of every local name and all violations of the scope
rules. A violation never keeps the walk from going on. The scopes of the walk follow the frames of a
run: one for a block, one for the parameters and the body of a function together, and one with
`this` around each method.
-/
namespace LoxLang

mutual

def Expr.resolve : Expr → Walk → Walk
  | .literal _ _, w => w
  | .grouping _ inner, w => inner.resolve w
  | .unary _ _ right, w => right.resolve w
  | .binary _ left _ right, w => right.resolve (left.resolve w)
  | .logical _ left _ right, w => right.resolve (left.resolve w)
  | .var id name, w => (w.checkReady name).link id name
  | .assign id name value, w => (value.resolve w).link id name
  | .call _ callee _ arguments, w => Expr.resolveAll arguments (callee.resolve w)
  | .get _ object _, w => object.resolve w
  | .set _ object _ value, w => object.resolve (value.resolve w)
  | .this id keyword, w =>
    if w.inClass then w.link id keyword else w.report keyword .thisOutsideClass

def Expr.resolveAll : List Expr → Walk → Walk
  | [], w => w
  | expr :: exprs, w => Expr.resolveAll exprs (expr.resolve w)

end

def Expr.resolveOption : Option Expr → Walk → Walk
  | none, w => w
  | some expr, w => expr.resolve w

mutual

/-- Binds the names of a statement. A class is noted before its name is declared, and forgotten
behind its methods if none is around. -/
def Stmt.resolve : Stmt → Walk → Walk
  | .expression expr, w => expr.resolve w
  | .print expr, w => expr.resolve w
  | .varDecl name initializer, w =>
    (Expr.resolveOption initializer (w.declare name)).define name.lexeme
  | .block body, w => (Stmt.resolveAll body w.enter).leave
  | .ifThen condition thenBranch, w => thenBranch.resolve (condition.resolve w)
  | .ifElse condition thenBranch elseBranch, w =>
    elseBranch.resolve (thenBranch.resolve (condition.resolve w))
  | .whileLoop condition body, w => body.resolve (condition.resolve w)
  | .funDecl declaration, w => declaration.resolve .function (w.introduce declaration.name)
  | .returnStmt keyword value, w =>
    Expr.resolveOption value
      (if w.currentFunction = none then w.report keyword .topLevelReturn else w)
  | .classDecl name methods, w =>
    let enclosing := w.inClass
    let w := (w.setClass true).introduce name
    (FunctionDecl.resolveMethods methods w).setClass enclosing

def Stmt.resolveAll : List Stmt → Walk → Walk
  | [], w => w
  | stmt :: stmts, w => Stmt.resolveAll stmts (stmt.resolve w)

def FunctionDecl.resolve (kind : Routine) : FunctionDecl → Walk → Walk
  | ⟨_, params, body⟩, w =>
    let enclosing := w.currentFunction
    let w := Walk.introduceAll params (w.setFunction (some kind)).enter
    (Stmt.resolveAll body w).leave.setFunction enclosing

/-- Binds the names of methods, each in a scope that holds `this`. -/
def FunctionDecl.resolveMethods : List FunctionDecl → Walk → Walk
  | [], w => w
  | method :: methods, w =>
    FunctionDecl.resolveMethods methods
      (method.resolve .method (w.enter.define "this")).leave

end

/-- Binds the names of a program, adding to the distances that are known already. -/
def resolve (statements : List Stmt) (distances : Distances) : Distances × List ScopeFault :=
  let w := Stmt.resolveAll statements (.begin distances)
  (w.distances, w.faults.toList)

end LoxLang
