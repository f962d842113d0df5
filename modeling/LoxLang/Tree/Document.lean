import LoxLang.Document
import LoxLang.Tree

/-!
# Programs as JSON documents

The document of a program holds all of its tree, identities and tokens included. A construct is a
tag around its parts, a part that is absent is `null`, and a token kind without a value is a string.
-/
namespace LoxLang

def Kind.document : Kind → Document
  | .string contents => .tagged "STRING" (.string contents)
  | .number value => .tagged "NUMBER" (.number value)
  | kind => .string kind.name

def Token.document (t : Token) : Document :=
  .object [⟨"token_type", t.kind.document⟩, ⟨"lexeme", .string t.lexeme⟩, ⟨"line", .natural t.line⟩]

def Literal.document : Literal → Document
  | .number value => .tagged "Number" (.number value)
  | .string value => .tagged "Str" (.string value)
  | .bool true => .string "True"
  | .bool false => .string "False"
  | .nil => .string "Nil"

namespace Document

/-- An expression: its identity and, under its tag, its parts. -/
def node (id : Nat) (tag : String) (parts : Document) : Document :=
  .object [⟨"id", .natural id⟩, ⟨"kind", .tagged tag parts⟩]

def operands (left : Document) (operator : Token) (right : Document) : Document :=
  .object [⟨"left", left⟩, ⟨"operator", operator.document⟩, ⟨"right", right⟩]

def ofOption : Option Document → Document
  | some d => d
  | none => .null

end Document

mutual

def Expr.document : Expr → Document
  | .literal id value => .node id "Literal" value.document
  | .grouping id inner => .node id "Grouping" inner.document
  | .unary id operator right =>
    .node id "Unary" (.object [⟨"operator", operator.document⟩, ⟨"right", right.document⟩])
  | .binary id left operator right =>
    .node id "Binary" (.operands left.document operator right.document)
  | .logical id left operator right =>
    .node id "Logical" (.operands left.document operator right.document)
  | .var id name => .node id "Variable" name.document
  | .assign id name value =>
    .node id "Assign" (.object [⟨"name", name.document⟩, ⟨"value", value.document⟩])
  | .call id callee paren arguments =>
    .node id "Call" (.object [⟨"callee", callee.document⟩, ⟨"paren", paren.document⟩,
      ⟨"arguments", .array (Expr.documents arguments)⟩])
  | .get id object name =>
    .node id "Get" (.object [⟨"object", object.document⟩, ⟨"name", name.document⟩])
  | .set id object name value =>
    .node id "Set" (.object [⟨"object", object.document⟩, ⟨"name", name.document⟩,
      ⟨"value", value.document⟩])
  | .this id keyword => .node id "This" keyword.document

def Expr.documents : List Expr → List Document
  | [] => []
  | expr :: exprs => expr.document :: Expr.documents exprs

end

mutual

def Stmt.document : Stmt → Document
  | .expression expr => .tagged "Expression" expr.document
  | .print expr => .tagged "Print" expr.document
  | .varDecl name initializer =>
    .tagged "Var" (.object [⟨"name", name.document⟩,
      ⟨"initializer", .ofOption (initializer.map Expr.document)⟩])
  | .block body => .tagged "Block" (.array (Stmt.documents body))
  | .ifThen condition thenBranch =>
    .tagged "If" (.object [⟨"condition", condition.document⟩,
      ⟨"then_branch", thenBranch.document⟩, ⟨"else_branch", .null⟩])
  | .ifElse condition thenBranch elseBranch =>
    .tagged "If" (.object [⟨"condition", condition.document⟩,
      ⟨"then_branch", thenBranch.document⟩, ⟨"else_branch", elseBranch.document⟩])
  | .whileLoop condition body =>
    .tagged "While" (.object [⟨"condition", condition.document⟩, ⟨"body", body.document⟩])
  | .funDecl declaration => .tagged "Function" declaration.document
  | .returnStmt keyword value =>
    .tagged "Return" (.object [⟨"keyword", keyword.document⟩,
      ⟨"value", .ofOption (value.map Expr.document)⟩])
  | .classDecl name methods =>
    .tagged "Class" (.object [⟨"name", name.document⟩,
      ⟨"methods", .array (FunctionDecl.documents methods)⟩])

def Stmt.documents : List Stmt → List Document
  | [] => []
  | stmt :: stmts => stmt.document :: Stmt.documents stmts

def FunctionDecl.document : FunctionDecl → Document
  | ⟨name, params, body⟩ =>
    .object [⟨"name", name.document⟩, ⟨"params", .array (params.map Token.document)⟩,
      ⟨"body", .array (Stmt.documents body)⟩]

def FunctionDecl.documents : List FunctionDecl → List Document
  | [] => []
  | method :: methods => method.document :: FunctionDecl.documents methods

end

def programText (statements : List Stmt) : String :=
  (Document.array (Stmt.documents statements)).pretty 0

end LoxLang
