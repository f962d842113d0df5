import LoxLang.Token

/-!
# Programs as trees

Every expression carries an identity, a number that is given to it when it is read. A table of
binding distances is keyed on these identities, so that two occurrences of one name in different
scopes are kept apart. There is no `for` statement: it is read as a `while` in blocks.
-/
namespace LoxLang

inductive Literal
  | number (value : Float)
  | string (value : String)
  | bool (value : Bool)
  | nil
deriving DecidableEq

inductive Expr
  | literal (id : Nat) (value : Literal)
  | grouping (id : Nat) (inner : Expr)
  | unary (id : Nat) (operator : Token) (right : Expr)
  | binary (id : Nat) (left : Expr) (operator : Token) (right : Expr)
  | logical (id : Nat) (left : Expr) (operator : Token) (right : Expr)
  | var (id : Nat) (name : Token)
  | assign (id : Nat) (name : Token) (value : Expr)
  | call (id : Nat) (callee : Expr) (paren : Token) (arguments : List Expr)
  | get (id : Nat) (object : Expr) (name : Token)
  | set (id : Nat) (object : Expr) (name : Token) (value : Expr)
  | this (id : Nat) (keyword : Token)

def Expr.id : Expr → Nat
  | literal id _ | grouping id _ | unary id _ _ | binary id _ _ _ | logical id _ _ _
  | var id _ | assign id _ _ | call id _ _ _ | get id _ _ | set id _ _ _ | this id _ => id

mutual

inductive Stmt
  | expression (expr : Expr)
  | print (expr : Expr)
  | varDecl (name : Token) (initializer : Option Expr)
  | block (body : List Stmt)
  | ifThen (condition : Expr) (thenBranch : Stmt)
  | ifElse (condition : Expr) (thenBranch elseBranch : Stmt)
  | whileLoop (condition : Expr) (body : Stmt)
  | funDecl (declaration : FunctionDecl)
  | returnStmt (keyword : Token) (value : Option Expr)
  | classDecl (name : Token) (methods : List FunctionDecl)

/-- A function or method as it is declared. -/
structure FunctionDecl where
  name : Token
  params : List Token
  body : List Stmt

end

end LoxLang
