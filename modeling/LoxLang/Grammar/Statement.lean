import LoxLang.Grammar.Expression

/-!
# Reading statements and programs

    program     → declaration* END
    declaration → "class" NAME "{" routine* "}" | "fun" routine | variable | statement
    routine     → NAME "(" ( NAME ( "," NAME )* )? ")" block
    variable    → "var" NAME ( "=" expression )? ";"
    statement   → "for" "(" ( variable | expression ";" | ";" ) expression? ";" expression? ")"
                  statement
                | "if" "(" expression ")" statement ( "else" statement )?
                | "while" "(" expression ")" statement
                | "return" expression? ";"
                | "print" expression ";"
                | block
                | expression ";"
    block       → "{" declaration* "}"

A declaration that fails is reported and skipped; the next one is read from a likely statement
boundary. A failure inside a block stays inside the block.
-/
namespace LoxLang
namespace Reading

/-- An expression, unless a token of this kind comes next. -/
def optionalExpression (fuel : Nat) (stop : Kind) : Reading (Option Expr) := do
  if (← nextKind) = stop then return none else return some (← expression fuel)

/-- An expression after an equals sign, if there is one. -/
def initializer (fuel : Nat) : Reading (Option Expr) := do
  if ← accept .equal then return some (← expression fuel) else return none

def varDeclaration (fuel : Nat) : Reading Stmt := do
  let name ← want .identifier .variableName
  let initializer ← initializer fuel
  let _ ← want .semicolon .variableEnd
  return .varDecl name initializer

def expressionStatement (fuel : Nat) : Reading Stmt := do
  let expr ← expression fuel
  let _ ← want .semicolon .expressionEnd
  return .expression expr

def printStatement (fuel : Nat) : Reading Stmt := do
  let expr ← expression fuel
  let _ ← want .semicolon .printEnd
  return .print expr

def returnStatement (fuel : Nat) (keyword : Token) : Reading Stmt := do
  let value ← optionalExpression fuel .semicolon
  let _ ← want .semicolon .returnEnd
  return .returnStmt keyword value

def condition (fuel : Nat) (opening closing : Wanted) : Reading Expr := do
  let _ ← want .leftParen opening
  let expr ← expression fuel
  let _ ← want .rightParen closing
  return expr

/-- One or more parameters, after `count` others. -/
def parameters : (fuel : Nat) → (count : Nat) → Reading (List Token)
  | 0, _ => Action.exhausted
  | fuel + 1, count => do
    checkCount count .tooManyParameters
    let parameter ← want .identifier .parameterName
    if ← accept .comma then return parameter :: (← parameters fuel (count + 1))
    else return [parameter]

/-- The three clauses of a `for`; the ones that are absent are `none`. -/
structure ForClauses where
  initializer : Option Stmt
  condition : Option Expr
  increment : Option Expr

/-- The first clause of a `for`, with its semicolon. -/
def forInitializer (fuel : Nat) : Reading (Option Stmt) := do
  match ← nextKind with
  | .semicolon =>
    advance
    return none
  | .varKw =>
    advance
    return some (← varDeclaration fuel)
  | _ => return some (← expressionStatement fuel)

def forClauses (fuel : Nat) : Reading ForClauses := do
  let _ ← want .leftParen .forOpen
  let initializer ← forInitializer fuel
  let condition ← optionalExpression fuel .semicolon
  let _ ← want .semicolon .forCondition
  let increment ← optionalExpression fuel .rightParen
  let _ ← want .rightParen .forClose
  return ⟨initializer, condition, increment⟩

/-- Without a condition a loop goes on forever. -/
def conditionOrTrue : Option Expr → Reading Expr
  | some condition => return condition
  | none => node fun id => .literal id (.bool true)

/-- A `for` loop as a `while` loop: the increment follows the body in a block of its own, and the
initializer stands before the loop in a block around both. -/
def forLoop (initializer : Option Stmt) (condition : Expr) (increment : Option Expr) (body : Stmt) :
    Stmt :=
  let body := match increment with
    | some increment => .block [body, .expression increment]
    | none => body
  let loop := .whileLoop condition body
  match initializer with
  | some initializer => .block [initializer, loop]
  | none => loop

mutual

/-- A declaration, or `none` after a failure. -/
def declaration : (fuel : Nat) → Reading (Option Stmt)
  | 0 => Action.exhausted
  | fuel + 1 => do
    match ← Action.attempt (declared fuel) with
    | .ok stmt => return some stmt
    | .error fault =>
      note fault
      resume
      return none

def declared : (fuel : Nat) → Reading Stmt
  | 0 => Action.exhausted
  | fuel + 1 => do
    match ← nextKind with
    | .classKw =>
      advance
      let name ← want .identifier .className
      let _ ← want .leftBrace .classOpen
      let methods ← methods fuel
      let _ ← want .rightBrace .classClose
      return .classDecl name methods
    | .funKw =>
      advance
      return .funDecl (← routine fuel .function)
    | .varKw =>
      advance
      varDeclaration fuel
    | _ => statement fuel

/-- The rest of a function or method from its name on. -/
def routine : (fuel : Nat) → Routine → Reading FunctionDecl
  | 0, _ => Action.exhausted
  | fuel + 1, kind => do
    let name ← want .identifier (.routineName kind)
    let _ ← want .leftParen (.parametersOpen kind)
    let params ← listUntil .rightParen (parameters fuel 0)
    let _ ← want .rightParen .parametersClose
    let _ ← want .leftBrace (.bodyOpen kind)
    let body ← block fuel
    return ⟨name, params, body⟩

/-- Methods up to the end of a class body. -/
def methods : (fuel : Nat) → Reading (List FunctionDecl)
  | 0 => Action.exhausted
  | fuel + 1 => do
    if (← isAtEnd) || (← nextKind) = .rightBrace then return []
    else
      let method ← routine fuel .method
      return method :: (← methods fuel)

def block : (fuel : Nat) → Reading (List Stmt)
  | 0 => Action.exhausted
  | fuel + 1 => do
    let body ← declarations fuel .rightBrace
    let _ ← want .rightBrace .blockClose
    return body

/-- Declarations up to a token of this kind or the end; those that failed are left out. -/
def declarations : (fuel : Nat) → (stop : Kind) → Reading (List Stmt)
  | 0, _ => Action.exhausted
  | fuel + 1, stop => do
    if (← isAtEnd) || (← nextKind) = stop then return []
    else
      let stmt ← declaration fuel
      return stmt.toList ++ (← declarations fuel stop)

def statement : (fuel : Nat) → Reading Stmt
  | 0 => Action.exhausted
  | fuel + 1 => do
    let token ← peek
    match token.kind with
    | .forKw =>
      advance
      let clauses ← forClauses fuel
      let body ← statement fuel
      let condition ← conditionOrTrue clauses.condition
      return forLoop clauses.initializer condition clauses.increment body
    | .ifKw =>
      advance
      let condition ← condition fuel .ifOpen .ifClose
      let thenBranch ← statement fuel
      if ← accept .elseKw then return .ifElse condition thenBranch (← statement fuel)
      else return .ifThen condition thenBranch
    | .whileKw =>
      advance
      let condition ← condition fuel .whileOpen .whileClose
      return .whileLoop condition (← statement fuel)
    | .returnKw =>
      advance
      returnStatement fuel token
    | .leftBrace =>
      advance
      return .block (← block fuel)
    | .printKw =>
      advance
      printStatement fuel
    | _ => expressionStatement fuel

end

end Reading

/-- What reading a list of tokens gives: the statements that were read, the faults that were
reported, and the first identity that was not given away. -/
structure Program where
  statements : List Stmt
  faults : List GrammarFault
  nextId : Nat

namespace Program

/-- Enough fuel for this many tokens: from one token to the next, rules nest less than thirty-two
deep. -/
def fuelFor (count : Nat) : Nat := 32 * (count + 1)

/-- Reads a program from its tokens, up to the first end token. -/
def ofTokens (tokens : List Token) (firstId : Nat) : Program :=
  match Reading.declarations (fuelFor tokens.length) .eof (Cursor.start tokens firstId) with
  | .done statements c => ⟨statements, c.faults.toList, c.nextId⟩
  | .failed fault c => ⟨[], (c.faults.push fault).toList, c.nextId⟩
  | .exhausted => ⟨[], [], firstId⟩

end Program
end LoxLang
