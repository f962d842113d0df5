import LoxLang.Proofs.Document.Decoding
import LoxLang.Proofs.Document.Reading

/-!
# Recovering programs from their texts

What is printed of a program as a JSON document determines the program, if all of its numbers are
finite: there is one decoder that recovers every such program from its text. The decoder reads the
text as a document and decodes the document as a program.
-/
namespace LoxLang

/-! ## The numbers of a program -/

def Kind.numbers : Kind → List Float
  | .number value => [value]
  | _ => []

def Token.numbers (t : Token) : List Float := t.kind.numbers

def Literal.numbers : Literal → List Float
  | .number value => [value]
  | _ => []

mutual

def Expr.numbers : Expr → List Float
  | .literal _ value => value.numbers
  | .grouping _ inner => inner.numbers
  | .unary _ operator right => operator.numbers ++ right.numbers
  | .binary _ left operator right => left.numbers ++ operator.numbers ++ right.numbers
  | .logical _ left operator right => left.numbers ++ operator.numbers ++ right.numbers
  | .var _ name => name.numbers
  | .assign _ name value => name.numbers ++ value.numbers
  | .call _ callee paren arguments =>
    callee.numbers ++ paren.numbers ++ Expr.numbersOf arguments
  | .get _ object name => object.numbers ++ name.numbers
  | .set _ object name value => object.numbers ++ name.numbers ++ value.numbers
  | .this _ keyword => keyword.numbers

def Expr.numbersOf : List Expr → List Float
  | [] => []
  | expr :: exprs => expr.numbers ++ Expr.numbersOf exprs

end

def Expr.numbersOf? : Option Expr → List Float
  | some expr => expr.numbers
  | none => []

mutual

/-- The numbers in a statement: the values of literals and of the tokens that it keeps. -/
def Stmt.numbers : Stmt → List Float
  | .expression expr => expr.numbers
  | .print expr => expr.numbers
  | .varDecl name initializer => name.numbers ++ Expr.numbersOf? initializer
  | .block body => Stmt.numbersOf body
  | .ifThen condition thenBranch => condition.numbers ++ thenBranch.numbers
  | .ifElse condition thenBranch elseBranch =>
    condition.numbers ++ thenBranch.numbers ++ elseBranch.numbers
  | .whileLoop condition body => condition.numbers ++ body.numbers
  | .funDecl declaration => declaration.numbers
  | .returnStmt keyword value => keyword.numbers ++ Expr.numbersOf? value
  | .classDecl name methods => name.numbers ++ FunctionDecl.numbersOf methods

def Stmt.numbersOf : List Stmt → List Float
  | [] => []
  | stmt :: stmts => stmt.numbers ++ Stmt.numbersOf stmts

def FunctionDecl.numbers : FunctionDecl → List Float
  | ⟨name, params, body⟩ => name.numbers ++ params.flatMap Token.numbers ++ Stmt.numbersOf body

def FunctionDecl.numbersOf : List FunctionDecl → List Float
  | [] => []
  | method :: methods => method.numbers ++ FunctionDecl.numbersOf methods

end

/-! ## The numbers of documents -/

namespace Document

@[simp] theorem numbers_null : null.numbers = [] := by
  rw [numbers] <;> exact nofun

@[simp] theorem numbers_natural (n : Nat) : (natural n).numbers = [] := by
  rw [numbers] <;> exact nofun

@[simp] theorem numbers_string (s : String) : (string s).numbers = [] := by
  rw [numbers] <;> exact nofun

@[simp] theorem numbers_array (items : List Document) :
    (array items).numbers = numbersOfItems items := by
  rw [numbers]

@[simp] theorem numbers_object (members : List Member) :
    (object members).numbers = members.flatMap (·.value.numbers) := by
  rw [numbers]
  induction members with
  | nil => rfl
  | cons m members ih =>
    obtain ⟨key, value⟩ := m
    rw [numbersOfMembers, ih, List.flatMap_cons]

@[simp] theorem numbers_tagged (tag : String) (d : Document) :
    (tagged tag d).numbers = d.numbers := by
  rw [tagged, numbers_object, List.flatMap_singleton]

@[simp] theorem numbers_node (id : Nat) (tag : String) (parts : Document) :
    (node id tag parts).numbers = parts.numbers := by
  rw [node, numbers_object, List.flatMap_cons, List.flatMap_singleton, numbers_tagged,
    numbers_natural, List.nil_append]

end Document

@[simp] theorem Kind.numbers_document (kind : Kind) : kind.document.numbers = kind.numbers := by
  cases kind <;> rfl

@[simp] theorem Token.numbers_document (t : Token) : t.document.numbers = t.numbers := by
  simp [Token.document, Token.numbers]

@[simp] theorem Token.numbersOfItems_map (ts : List Token) :
    Document.numbersOfItems (ts.map Token.document) = ts.flatMap Token.numbers := by
  induction ts with
  | nil => rfl
  | cons t ts ih =>
    rw [List.map_cons, Document.numbersOfItems, Token.numbers_document, ih, List.flatMap_cons]

@[simp] theorem Literal.numbers_document (l : Literal) : l.document.numbers = l.numbers := by
  rcases l with _ | _ | ⟨_ | _⟩ | _ <;> rfl

@[simp] theorem Document.numbers_operands (left right : Document) (operator : Token) :
    (Document.operands left operator right).numbers =
      left.numbers ++ operator.numbers ++ right.numbers := by
  simp [Document.operands]

mutual

theorem Expr.numbers_document (e : Expr) : e.document.numbers = e.numbers := by
  cases e with
  | literal id value => simp [Expr.document, Expr.numbers]
  | grouping id inner =>
    have hinner := Expr.numbers_document inner
    simp [Expr.document, Expr.numbers, hinner]
  | unary id operator right =>
    have hright := Expr.numbers_document right
    simp [Expr.document, Expr.numbers, hright]
  | binary id left operator right =>
    have hleft := Expr.numbers_document left
    have hright := Expr.numbers_document right
    simp [Expr.document, Expr.numbers, hleft, hright]
  | logical id left operator right =>
    have hleft := Expr.numbers_document left
    have hright := Expr.numbers_document right
    simp [Expr.document, Expr.numbers, hleft, hright]
  | var id name => simp [Expr.document, Expr.numbers]
  | assign id name value =>
    have hvalue := Expr.numbers_document value
    simp [Expr.document, Expr.numbers, hvalue]
  | call id callee paren arguments =>
    have hcallee := Expr.numbers_document callee
    have harguments := Expr.numbersOfItems_documents arguments
    simp [Expr.document, Expr.numbers, hcallee, harguments]
  | get id object name =>
    have hobject := Expr.numbers_document object
    simp [Expr.document, Expr.numbers, hobject]
  | set id object name value =>
    have hobject := Expr.numbers_document object
    have hvalue := Expr.numbers_document value
    simp [Expr.document, Expr.numbers, hobject, hvalue]
  | this id keyword => simp [Expr.document, Expr.numbers]

theorem Expr.numbersOfItems_documents (es : List Expr) :
    Document.numbersOfItems (Expr.documents es) = Expr.numbersOf es := by
  cases es with
  | nil => rfl
  | cons e es =>
    rw [Expr.documents, Document.numbersOfItems, Expr.numbers_document e,
      Expr.numbersOfItems_documents es, Expr.numbersOf]

end

theorem Expr.numbers_ofOption (e : Option Expr) :
    (Document.ofOption (e.map Expr.document)).numbers = Expr.numbersOf? e := by
  cases e with
  | none => exact Document.numbers_null
  | some e => exact e.numbers_document

mutual

theorem Stmt.numbers_document (s : Stmt) : s.document.numbers = s.numbers := by
  cases s with
  | expression expr => simp [Stmt.document, Stmt.numbers, expr.numbers_document]
  | print expr => simp [Stmt.document, Stmt.numbers, expr.numbers_document]
  | varDecl name initializer =>
    simp [Stmt.document, Stmt.numbers, Expr.numbers_ofOption]
  | block body =>
    have hbody := Stmt.numbersOfItems_documents body
    simp [Stmt.document, Stmt.numbers, hbody]
  | ifThen condition thenBranch =>
    have hthen := Stmt.numbers_document thenBranch
    simp [Stmt.document, Stmt.numbers, condition.numbers_document, hthen]
  | ifElse condition thenBranch elseBranch =>
    have hthen := Stmt.numbers_document thenBranch
    have helse := Stmt.numbers_document elseBranch
    simp [Stmt.document, Stmt.numbers, condition.numbers_document, hthen, helse]
  | whileLoop condition body =>
    have hbody := Stmt.numbers_document body
    simp [Stmt.document, Stmt.numbers, condition.numbers_document, hbody]
  | funDecl declaration =>
    have hdeclaration := FunctionDecl.numbers_document declaration
    simp [Stmt.document, Stmt.numbers, hdeclaration]
  | returnStmt keyword value =>
    simp [Stmt.document, Stmt.numbers, Expr.numbers_ofOption]
  | classDecl name methods =>
    have hmethods := FunctionDecl.numbersOfItems_documents methods
    simp [Stmt.document, Stmt.numbers, hmethods]

theorem Stmt.numbersOfItems_documents (ss : List Stmt) :
    Document.numbersOfItems (Stmt.documents ss) = Stmt.numbersOf ss := by
  cases ss with
  | nil => rfl
  | cons s ss =>
    rw [Stmt.documents, Document.numbersOfItems, Stmt.numbers_document s,
      Stmt.numbersOfItems_documents ss, Stmt.numbersOf]

theorem FunctionDecl.numbers_document (f : FunctionDecl) : f.document.numbers = f.numbers := by
  obtain ⟨name, params, body⟩ := f
  have hbody := Stmt.numbersOfItems_documents body
  simp [FunctionDecl.document, FunctionDecl.numbers, hbody]

theorem FunctionDecl.numbersOfItems_documents (fs : List FunctionDecl) :
    Document.numbersOfItems (FunctionDecl.documents fs) = FunctionDecl.numbersOf fs := by
  cases fs with
  | nil => rfl
  | cons f fs =>
    rw [FunctionDecl.documents, Document.numbersOfItems, FunctionDecl.numbers_document f,
      FunctionDecl.numbersOfItems_documents fs, FunctionDecl.numbersOf]

end

/-! ## Recovery -/

/-- The program that is printed as this text. -/
def decode? (text : String) : Option (List Stmt) := do
  match ← Document.ofText? text with
  | .array ds => Stmt.ofDocuments? ds
  | _ => none

theorem decode?_programText {statements : List Stmt}
    (h : ∀ n ∈ Stmt.numbersOf statements, Numeral.isFinite n) :
    decode? (programText statements) = some statements := by
  have hnumbers : ∀ n ∈ (Document.array (Stmt.documents statements)).numbers,
      Numeral.isFinite n := by
    rw [Document.numbers_array, Stmt.numbersOfItems_documents]
    exact h
  rw [decode?, programText, Document.ofText?_pretty _ hnumbers]
  exact Stmt.ofDocuments?_documents statements

/-- The printed document of a program with finite numbers loses nothing of the program: the program
can be decoded from it, and no other such program has the same text. -/
theorem programText_injective {statements others : List Stmt}
    (h : ∀ n ∈ Stmt.numbersOf statements, Numeral.isFinite n) :
    decode? (programText statements) = some statements ∧
      ((∀ n ∈ Stmt.numbersOf others, Numeral.isFinite n) →
        programText statements = programText others → statements = others) := by
  refine ⟨decode?_programText h, fun hothers htext => ?_⟩
  have hdecoded := decode?_programText h
  rw [htext, decode?_programText hothers] at hdecoded
  exact (Option.some.inj hdecoded).symm

/-- A return on a line, under a condition that is a half. -/
def halfReturn (line : Nat) : List Stmt :=
  [.ifThen (.literal 0 (.number 0.5)) (.returnStmt ⟨.returnKw, "return", line⟩ none)]

theorem programText_halfReturn : decode? (programText (halfReturn 1)) = some (halfReturn 1) ∧
    programText (halfReturn 1) ≠ programText (halfReturn 2) := by
  have hfirst : ∀ n ∈ Stmt.numbersOf (halfReturn 1), Numeral.isFinite n := by decide +kernel
  have hsecond : ∀ n ∈ Stmt.numbersOf (halfReturn 2), Numeral.isFinite n := by decide +kernel
  obtain ⟨hdecoded, hinjective⟩ := @programText_injective (halfReturn 1) (halfReturn 2) hfirst
  refine ⟨hdecoded, fun htext => ?_⟩
  have heq := hinjective hsecond htext
  simp [halfReturn] at heq

end LoxLang
