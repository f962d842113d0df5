import LoxLang.Tree

/-!
# Outlines

The outline of a program shows its tree in parentheses, the operator before its operands:
`1 + 2 * 3` has the outline `(+ 1.0 (* 2.0 3.0))`. Identities, lines and quotes are not shown.
-/
namespace LoxLang

def Literal.outline : Literal → String
  | .number value => Numeral.outlineText value
  | .string value => value
  | .bool true => "true"
  | .bool false => "false"
  | .nil => "nil"

namespace Outline

/-- A form with a head and parts, each part behind a space. -/
def form (head : String) (parts : List String) : String :=
  "(" ++ head ++ String.join (parts.map (" " ++ ·)) ++ ")"

end Outline

open Outline

mutual

def Expr.outline : Expr → String
  | .literal _ value => value.outline
  | .grouping _ inner => form "group" [inner.outline]
  | .unary _ operator right => form operator.lexeme [right.outline]
  | .binary _ left operator right => form operator.lexeme [left.outline, right.outline]
  | .logical _ left operator right => form operator.lexeme [left.outline, right.outline]
  | .var _ name => name.lexeme
  | .assign _ name value => form "=" [name.lexeme, value.outline]
  | .call _ callee _ arguments => form "call" (callee.outline :: Expr.outlines arguments)
  | .get _ object name => form "." [object.outline, name.lexeme]
  | .set _ object name value => form "=" [form "." [object.outline, name.lexeme], value.outline]
  | .this _ _ => "this"

def Expr.outlines : List Expr → List String
  | [] => []
  | expr :: exprs => expr.outline :: Expr.outlines exprs

end

namespace Outline

def signature (word : String) (name : Token) (params : List Token) : String :=
  word ++ " " ++ name.lexeme ++ "(" ++ String.intercalate " " (params.map Token.lexeme) ++ ")"

end Outline

mutual

def Stmt.outline : Stmt → String
  | .expression expr => form ";" [expr.outline]
  | .print expr => form "print" [expr.outline]
  | .varDecl name initializer => form "var" (name.lexeme :: (initializer.map Expr.outline).toList)
  | .block body => form "block" (Stmt.outlines body)
  | .ifThen condition thenBranch => form "if" [condition.outline, thenBranch.outline]
  | .ifElse condition thenBranch elseBranch =>
    form "if" [condition.outline, thenBranch.outline, elseBranch.outline]
  | .whileLoop condition body => form "while" [condition.outline, body.outline]
  | .funDecl declaration => declaration.outline "fun"
  | .returnStmt _ value => form "return" (value.map Expr.outline).toList
  | .classDecl name methods => form ("class " ++ name.lexeme) (FunctionDecl.outlines methods)

def Stmt.outlines : List Stmt → List String
  | [] => []
  | stmt :: stmts => stmt.outline :: Stmt.outlines stmts

def FunctionDecl.outline (word : String) : FunctionDecl → String
  | ⟨name, params, body⟩ => form (signature word name params) (Stmt.outlines body)

def FunctionDecl.outlines : List FunctionDecl → List String
  | [] => []
  | method :: methods => method.outline "method" :: FunctionDecl.outlines methods

end

end LoxLang
