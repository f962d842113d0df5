import LoxLang.Grammar.Cursor

/-!
# Reading expressions

    expression → ( call "." )? NAME "=" expression | or
    or         → and ( "or" and )*
    and        → equality ( "and" equality )*
    equality   → comparison ( ( "!=" | "==" ) comparison )*
    comparison → term ( ( ">" | ">=" | "<" | "<=" ) term )*
    term       → factor ( ( "-" | "+" ) factor )*
    factor     → unary ( ( "/" | "*" ) unary )*
    unary      → ( "!" | "-" ) unary | call
    call       → primary ( "(" arguments? ")" | "." NAME )*
    arguments  → expression ( "," expression )*
    primary    → NUMBER | STRING | "true" | "false" | "nil" | "this" | NAME | "(" expression ")"

The six levels of binary operators are one rule with a `Level`. The target of an assignment is read
as an expression first; what is no target is reported at the equals sign and stays as it is. Fuel
bounds the depth of rules within rules.
-/
namespace LoxLang

/-- The levels of binary operators, loosest first, and the level of unary operators after them. -/
inductive Level
  | or
  | and
  | equality
  | comparison
  | term
  | factor
  | unary
deriving DecidableEq

namespace Level

/-- The level of the operands of this level. -/
def tighter : Level → Level
  | or => and
  | and => equality
  | equality => comparison
  | comparison => term
  | term => factor
  | factor => unary
  | unary => unary

def joins : Level → Kind → Bool
  | or, .orKw => true
  | and, .andKw => true
  | equality, .bangEqual | equality, .equalEqual => true
  | comparison, .greater | comparison, .greaterEqual => true
  | comparison, .less | comparison, .lessEqual => true
  | term, .minus | term, .plus => true
  | factor, .star | factor, .slash => true
  | unary, .bang | unary, .minus => true
  | _, _ => false

/-- The expression that an operator of this level makes of its operands. -/
def combine (level : Level) (left : Expr) (operator : Token) (right : Expr) (id : Nat) : Expr :=
  match level with
  | or | and => .logical id left operator right
  | _ => .binary id left operator right

end Level

namespace Reading

/-- What an assignment to `target` is; `none` if nothing can be assigned to it. -/
def assignment? (target value : Expr) : Option (Nat → Expr) :=
  match target with
  | .var _ name => some fun id => .assign id name value
  | .get _ object name => some fun id => .set id object name value
  | _ => none

def constant (value : Literal) : Reading Expr := do
  advance
  node fun id => .literal id value

mutual

def expression : (fuel : Nat) → Reading Expr
  | 0 => Action.exhausted
  | fuel + 1 => do
    let target ← operation fuel .or
    match ← takeIf (· = .equal) with
    | none => return target
    | some equals =>
      let value ← expression fuel
      match assignment? target value with
      | some build => node build
      | none =>
        note ⟨equals, .invalidTarget⟩
        return target

/-- An expression of this level or a tighter one. -/
def operation : (fuel : Nat) → Level → Reading Expr
  | 0, _ => Action.exhausted
  | fuel + 1, .unary => do
    match ← takeIf (Level.joins .unary) with
    | some operator =>
      let right ← operation fuel .unary
      node fun id => .unary id operator right
    | none => do suffixes fuel (← primary fuel)
  | fuel + 1, level => do
    let left ← operation fuel level.tighter
    operands fuel level left

/-- Further operands of this level, grouped to the left. -/
def operands : (fuel : Nat) → Level → Expr → Reading Expr
  | 0, _, _ => Action.exhausted
  | fuel + 1, level, left => do
    match ← takeIf level.joins with
    | none => return left
    | some operator =>
      let right ← operation fuel level.tighter
      operands fuel level (← node (level.combine left operator right))

/-- Calls and property reads behind an expression. -/
def suffixes : (fuel : Nat) → Expr → Reading Expr
  | 0, _ => Action.exhausted
  | fuel + 1, expr => do
    match ← nextKind with
    | .leftParen =>
      advance
      let args ← listUntil .rightParen (arguments fuel 0)
      let paren ← want .rightParen .argumentsClose
      suffixes fuel (← node fun id => .call id expr paren args)
    | .dot =>
      advance
      let name ← want .identifier .propertyName
      suffixes fuel (← node fun id => .get id expr name)
    | _ => return expr

/-- One or more arguments, after `count` others. -/
def arguments : (fuel : Nat) → (count : Nat) → Reading (List Expr)
  | 0, _ => Action.exhausted
  | fuel + 1, count => do
    checkCount count .tooManyArguments
    let argument ← expression fuel
    if ← accept .comma then return argument :: (← arguments fuel (count + 1))
    else return [argument]

def primary : (fuel : Nat) → Reading Expr
  | 0 => Action.exhausted
  | fuel + 1 => do
    let token ← peek
    match token.kind with
    | .falseKw => constant (.bool false)
    | .trueKw => constant (.bool true)
    | .nilKw => constant .nil
    | .number value => constant (.number value)
    | .string value => constant (.string value)
    | .thisKw =>
      advance
      node fun id => .this id token
    | .identifier =>
      advance
      node fun id => .var id token
    | .leftParen =>
      advance
      let inner ← expression fuel
      let _ ← want .rightParen .groupClose
      node fun id => .grouping id inner
    | _ => Action.fail ⟨token, .expect .expression⟩

end

end Reading
end LoxLang
