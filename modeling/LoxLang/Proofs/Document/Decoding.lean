import LoxLang.Tree.Document

/-!
# Decoding documents

The document of a program holds all of the program: identities, the kinds of tokens with their
values, lexemes and lines, and parts that are absent. `ofDocument?` inverts `document` on tokens,
expressions, statements and declarations, case by case along their constructors.
-/
namespace LoxLang

/-! ## Decoding -/

/-- The kinds without a value. -/
def plainKinds : List Kind :=
  [.leftParen, .rightParen, .leftBrace, .rightBrace, .comma, .dot, .minus, .plus, .semicolon,
    .slash, .star, .bang, .bangEqual, .equal, .equalEqual, .greater, .greaterEqual, .less,
    .lessEqual, .identifier, .andKw, .classKw, .elseKw, .falseKw, .funKw, .forKw, .ifKw, .nilKw,
    .orKw, .printKw, .returnKw, .superKw, .thisKw, .trueKw, .varKw, .whileKw, .eof]

def Kind.ofDocument? : Document → Option Kind
  | .object [⟨"STRING", .string contents⟩] => some (.string contents)
  | .object [⟨"NUMBER", .number value⟩] => some (.number value)
  | .string name => plainKinds.find? (·.name = name)
  | _ => none

def Token.ofDocument? : Document → Option Token
  | .object [⟨"token_type", kind⟩, ⟨"lexeme", .string lexeme⟩, ⟨"line", .natural line⟩] =>
    (Kind.ofDocument? kind).map (⟨·, lexeme, line⟩)
  | _ => none

def Literal.ofDocument? : Document → Option Literal
  | .object [⟨"Number", .number value⟩] => some (.number value)
  | .object [⟨"Str", .string value⟩] => some (.string value)
  | .string "True" => some (.bool true)
  | .string "False" => some (.bool false)
  | .string "Nil" => some .nil
  | _ => none

mutual

def Expr.ofDocument? : Document → Option Expr
  | .object [⟨"id", .natural id⟩, ⟨"kind", .object [⟨"Literal", value⟩]⟩] => do
    some (.literal id (← Literal.ofDocument? value))
  | .object [⟨"id", .natural id⟩, ⟨"kind", .object [⟨"Grouping", inner⟩]⟩] => do
    some (.grouping id (← Expr.ofDocument? inner))
  | .object [⟨"id", .natural id⟩, ⟨"kind", .object [⟨"Unary",
      .object [⟨"operator", operator⟩, ⟨"right", right⟩]⟩]⟩] => do
    some (.unary id (← Token.ofDocument? operator) (← Expr.ofDocument? right))
  | .object [⟨"id", .natural id⟩, ⟨"kind", .object [⟨"Binary",
      .object [⟨"left", left⟩, ⟨"operator", operator⟩, ⟨"right", right⟩]⟩]⟩] => do
    some (.binary id (← Expr.ofDocument? left) (← Token.ofDocument? operator)
      (← Expr.ofDocument? right))
  | .object [⟨"id", .natural id⟩, ⟨"kind", .object [⟨"Logical",
      .object [⟨"left", left⟩, ⟨"operator", operator⟩, ⟨"right", right⟩]⟩]⟩] => do
    some (.logical id (← Expr.ofDocument? left) (← Token.ofDocument? operator)
      (← Expr.ofDocument? right))
  | .object [⟨"id", .natural id⟩, ⟨"kind", .object [⟨"Variable", name⟩]⟩] => do
    some (.var id (← Token.ofDocument? name))
  | .object [⟨"id", .natural id⟩, ⟨"kind", .object [⟨"Assign",
      .object [⟨"name", name⟩, ⟨"value", value⟩]⟩]⟩] => do
    some (.assign id (← Token.ofDocument? name) (← Expr.ofDocument? value))
  | .object [⟨"id", .natural id⟩, ⟨"kind", .object [⟨"Call",
      .object [⟨"callee", callee⟩, ⟨"paren", paren⟩, ⟨"arguments", .array arguments⟩]⟩]⟩] => do
    some (.call id (← Expr.ofDocument? callee) (← Token.ofDocument? paren)
      (← Expr.ofDocuments? arguments))
  | .object [⟨"id", .natural id⟩, ⟨"kind", .object [⟨"Get",
      .object [⟨"object", object⟩, ⟨"name", name⟩]⟩]⟩] => do
    some (.get id (← Expr.ofDocument? object) (← Token.ofDocument? name))
  | .object [⟨"id", .natural id⟩, ⟨"kind", .object [⟨"Set",
      .object [⟨"object", object⟩, ⟨"name", name⟩, ⟨"value", value⟩]⟩]⟩] => do
    some (.set id (← Expr.ofDocument? object) (← Token.ofDocument? name)
      (← Expr.ofDocument? value))
  | .object [⟨"id", .natural id⟩, ⟨"kind", .object [⟨"This", keyword⟩]⟩] => do
    some (.this id (← Token.ofDocument? keyword))
  | _ => none

def Expr.ofDocuments? : List Document → Option (List Expr)
  | [] => some []
  | d :: ds => do some ((← Expr.ofDocument? d) :: (← Expr.ofDocuments? ds))

end

mutual

def Stmt.ofDocument? : Document → Option Stmt
  | .object [⟨"Expression", expr⟩] => do some (.expression (← Expr.ofDocument? expr))
  | .object [⟨"Print", expr⟩] => do some (.print (← Expr.ofDocument? expr))
  | .object [⟨"Var", .object [⟨"name", name⟩, ⟨"initializer", .null⟩]⟩] => do
    some (.varDecl (← Token.ofDocument? name) none)
  | .object [⟨"Var", .object [⟨"name", name⟩, ⟨"initializer", initializer⟩]⟩] => do
    some (.varDecl (← Token.ofDocument? name) (← Expr.ofDocument? initializer))
  | .object [⟨"Block", .array body⟩] => do some (.block (← Stmt.ofDocuments? body))
  | .object [⟨"If", .object [⟨"condition", condition⟩, ⟨"then_branch", thenBranch⟩,
      ⟨"else_branch", .null⟩]⟩] => do
    some (.ifThen (← Expr.ofDocument? condition) (← Stmt.ofDocument? thenBranch))
  | .object [⟨"If", .object [⟨"condition", condition⟩, ⟨"then_branch", thenBranch⟩,
      ⟨"else_branch", elseBranch⟩]⟩] => do
    some (.ifElse (← Expr.ofDocument? condition) (← Stmt.ofDocument? thenBranch)
      (← Stmt.ofDocument? elseBranch))
  | .object [⟨"While", .object [⟨"condition", condition⟩, ⟨"body", body⟩]⟩] => do
    some (.whileLoop (← Expr.ofDocument? condition) (← Stmt.ofDocument? body))
  | .object [⟨"Function", declaration⟩] => do
    some (.funDecl (← FunctionDecl.ofDocument? declaration))
  | .object [⟨"Return", .object [⟨"keyword", keyword⟩, ⟨"value", .null⟩]⟩] => do
    some (.returnStmt (← Token.ofDocument? keyword) none)
  | .object [⟨"Return", .object [⟨"keyword", keyword⟩, ⟨"value", value⟩]⟩] => do
    some (.returnStmt (← Token.ofDocument? keyword) (← Expr.ofDocument? value))
  | .object [⟨"Class", .object [⟨"name", name⟩, ⟨"methods", .array methods⟩]⟩] => do
    some (.classDecl (← Token.ofDocument? name) (← FunctionDecl.ofDocuments? methods))
  | _ => none

def Stmt.ofDocuments? : List Document → Option (List Stmt)
  | [] => some []
  | d :: ds => do some ((← Stmt.ofDocument? d) :: (← Stmt.ofDocuments? ds))

def FunctionDecl.ofDocument? : Document → Option FunctionDecl
  | .object [⟨"name", name⟩, ⟨"params", .array params⟩, ⟨"body", .array body⟩] => do
    some ⟨← Token.ofDocument? name, ← params.mapM Token.ofDocument?, ← Stmt.ofDocuments? body⟩
  | _ => none

def FunctionDecl.ofDocuments? : List Document → Option (List FunctionDecl)
  | [] => some []
  | d :: ds => do some ((← FunctionDecl.ofDocument? d) :: (← FunctionDecl.ofDocuments? ds))

end

/-! ## Documents are decoded to what they are made of -/

theorem Kind.ofDocument?_document (kind : Kind) : Kind.ofDocument? kind.document = some kind := by
  cases kind <;> rfl

theorem Token.ofDocument?_document (t : Token) : Token.ofDocument? t.document = some t := by
  rw [Token.document, Token.ofDocument?, Kind.ofDocument?_document]
  rfl

theorem Token.mapM_ofDocument? (ts : List Token) :
    (ts.map Token.document).mapM Token.ofDocument? = some ts := by
  induction ts with
  | nil => rfl
  | cons t ts ih =>
    rw [List.map_cons, List.mapM_cons, Token.ofDocument?_document, ih]
    rfl

theorem Literal.ofDocument?_document (l : Literal) : Literal.ofDocument? l.document = some l := by
  rcases l with _ | _ | ⟨_ | _⟩ | _ <;> rfl

open Document (node tagged operands ofOption)

mutual

theorem Expr.ofDocument?_document (e : Expr) : Expr.ofDocument? e.document = some e := by
  cases e with
  | literal id value =>
    rw [Expr.document, node, tagged, Expr.ofDocument?, Literal.ofDocument?_document]
    rfl
  | grouping id inner =>
    rw [Expr.document, node, tagged, Expr.ofDocument?, Expr.ofDocument?_document inner]
    rfl
  | unary id operator right =>
    rw [Expr.document, node, tagged, Expr.ofDocument?, Token.ofDocument?_document,
      Expr.ofDocument?_document right]
    rfl
  | binary id left operator right =>
    rw [Expr.document, node, tagged, operands, Expr.ofDocument?, Expr.ofDocument?_document left,
      Token.ofDocument?_document, Expr.ofDocument?_document right]
    rfl
  | logical id left operator right =>
    rw [Expr.document, node, tagged, operands, Expr.ofDocument?, Expr.ofDocument?_document left,
      Token.ofDocument?_document, Expr.ofDocument?_document right]
    rfl
  | var id name =>
    rw [Expr.document, node, tagged, Expr.ofDocument?, Token.ofDocument?_document]
    rfl
  | assign id name value =>
    rw [Expr.document, node, tagged, Expr.ofDocument?, Token.ofDocument?_document,
      Expr.ofDocument?_document value]
    rfl
  | call id callee paren arguments =>
    rw [Expr.document, node, tagged, Expr.ofDocument?, Expr.ofDocument?_document callee,
      Token.ofDocument?_document, Expr.ofDocuments?_documents arguments]
    rfl
  | get id object name =>
    rw [Expr.document, node, tagged, Expr.ofDocument?, Expr.ofDocument?_document object,
      Token.ofDocument?_document]
    rfl
  | set id object name value =>
    rw [Expr.document, node, tagged, Expr.ofDocument?, Expr.ofDocument?_document object,
      Token.ofDocument?_document, Expr.ofDocument?_document value]
    rfl
  | this id keyword =>
    rw [Expr.document, node, tagged, Expr.ofDocument?, Token.ofDocument?_document]
    rfl

theorem Expr.ofDocuments?_documents (es : List Expr) :
    Expr.ofDocuments? (Expr.documents es) = some es := by
  cases es with
  | nil => rfl
  | cons e es =>
    rw [Expr.documents, Expr.ofDocuments?, Expr.ofDocument?_document e,
      Expr.ofDocuments?_documents es]
    rfl

end

/-- A value is never taken for an absent one. -/
theorem Expr.document_ne_null (e : Expr) : e.document ≠ .null := by
  cases e <;> rw [Expr.document] <;> exact nofun

theorem Stmt.document_ne_null (s : Stmt) : s.document ≠ .null := by
  cases s <;> rw [Stmt.document] <;> exact nofun

mutual

theorem Stmt.ofDocument?_document (s : Stmt) : Stmt.ofDocument? s.document = some s := by
  cases s with
  | expression e =>
    rw [Stmt.document, tagged, Stmt.ofDocument?, Expr.ofDocument?_document]
    rfl
  | print e =>
    rw [Stmt.document, tagged, Stmt.ofDocument?, Expr.ofDocument?_document]
    rfl
  | varDecl name initializer =>
    cases initializer with
    | none =>
      rw [Stmt.document, tagged, Option.map_none, ofOption, Stmt.ofDocument?,
        Token.ofDocument?_document]
      rfl
    | some e =>
      rw [Stmt.document, tagged, Option.map_some, ofOption, Stmt.ofDocument?,
        Token.ofDocument?_document, Expr.ofDocument?_document]
      · rfl
      · exact e.document_ne_null
  | block body =>
    rw [Stmt.document, tagged, Stmt.ofDocument?, Stmt.ofDocuments?_documents body]
    rfl
  | ifThen condition thenBranch =>
    rw [Stmt.document, tagged, Stmt.ofDocument?, Expr.ofDocument?_document,
      Stmt.ofDocument?_document thenBranch]
    rfl
  | ifElse condition thenBranch elseBranch =>
    rw [Stmt.document, tagged, Stmt.ofDocument?, Expr.ofDocument?_document,
      Stmt.ofDocument?_document thenBranch, Stmt.ofDocument?_document elseBranch]
    · rfl
    · exact elseBranch.document_ne_null
  | whileLoop condition body =>
    rw [Stmt.document, tagged, Stmt.ofDocument?, Expr.ofDocument?_document,
      Stmt.ofDocument?_document body]
    rfl
  | funDecl declaration =>
    rw [Stmt.document, tagged, Stmt.ofDocument?, FunctionDecl.ofDocument?_document declaration]
    rfl
  | returnStmt keyword value =>
    cases value with
    | none =>
      rw [Stmt.document, tagged, Option.map_none, ofOption, Stmt.ofDocument?,
        Token.ofDocument?_document]
      rfl
    | some e =>
      rw [Stmt.document, tagged, Option.map_some, ofOption, Stmt.ofDocument?,
        Token.ofDocument?_document, Expr.ofDocument?_document]
      · rfl
      · exact e.document_ne_null
  | classDecl name methods =>
    rw [Stmt.document, tagged, Stmt.ofDocument?, Token.ofDocument?_document,
      FunctionDecl.ofDocuments?_documents methods]
    rfl

theorem Stmt.ofDocuments?_documents (ss : List Stmt) :
    Stmt.ofDocuments? (Stmt.documents ss) = some ss := by
  cases ss with
  | nil => rfl
  | cons s ss =>
    rw [Stmt.documents, Stmt.ofDocuments?, Stmt.ofDocument?_document s,
      Stmt.ofDocuments?_documents ss]
    rfl

theorem FunctionDecl.ofDocument?_document (f : FunctionDecl) :
    FunctionDecl.ofDocument? f.document = some f := by
  obtain ⟨name, params, body⟩ := f
  rw [FunctionDecl.document, FunctionDecl.ofDocument?, Token.ofDocument?_document,
    Token.mapM_ofDocument?, Stmt.ofDocuments?_documents body]
  rfl

theorem FunctionDecl.ofDocuments?_documents (fs : List FunctionDecl) :
    FunctionDecl.ofDocuments? (FunctionDecl.documents fs) = some fs := by
  cases fs with
  | nil => rfl
  | cons f fs =>
    rw [FunctionDecl.documents, FunctionDecl.ofDocuments?, FunctionDecl.ofDocument?_document f,
      FunctionDecl.ofDocuments?_documents fs]
    rfl

end

end LoxLang
