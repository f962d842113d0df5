import LoxLang.Numeral.Text

/-!
# Tokens

A token is a kind, the text it was written with and a line. Kinds of literals carry the value of the
literal; a token's text and its value are independent data, since tokens can also be made by hand.
-/
namespace LoxLang

/-- The kinds of tokens. `super` is reserved and has no meaning. -/
inductive Kind
  | leftParen | rightParen | leftBrace | rightBrace
  | comma | dot | minus | plus | semicolon | slash | star
  | bang | bangEqual | equal | equalEqual
  | greater | greaterEqual | less | lessEqual
  | identifier
  | string (contents : String)
  | number (value : Float)
  | andKw | classKw | elseKw | falseKw | funKw | forKw | ifKw | nilKw | orKw
  | printKw | returnKw | superKw | thisKw | trueKw | varKw | whileKw
  | eof
deriving DecidableEq

namespace Kind

/-- The name of a kind in a token listing; it tells nothing of a literal's value. -/
def name : Kind → String
  | leftParen => "LEFT_PAREN"
  | rightParen => "RIGHT_PAREN"
  | leftBrace => "LEFT_BRACE"
  | rightBrace => "RIGHT_BRACE"
  | comma => "COMMA"
  | dot => "DOT"
  | minus => "MINUS"
  | plus => "PLUS"
  | semicolon => "SEMICOLON"
  | slash => "SLASH"
  | star => "STAR"
  | bang => "BANG"
  | bangEqual => "BANG_EQUAL"
  | equal => "EQUAL"
  | equalEqual => "EQUAL_EQUAL"
  | greater => "GREATER"
  | greaterEqual => "GREATER_EQUAL"
  | less => "LESS"
  | lessEqual => "LESS_EQUAL"
  | identifier => "IDENTIFIER"
  | string _ => "STRING"
  | number _ => "NUMBER"
  | andKw => "AND"
  | classKw => "CLASS"
  | elseKw => "ELSE"
  | falseKw => "FALSE"
  | funKw => "FUN"
  | forKw => "FOR"
  | ifKw => "IF"
  | nilKw => "NIL"
  | orKw => "OR"
  | printKw => "PRINT"
  | returnKw => "RETURN"
  | superKw => "SUPER"
  | thisKw => "THIS"
  | trueKw => "TRUE"
  | varKw => "VAR"
  | whileKw => "WHILE"
  | eof => "EOF"

/-- Two kinds are alike when they differ at most in the value of a literal. -/
def alike (a b : Kind) : Bool := a.name == b.name

def literal : Kind → String
  | string contents => contents
  | number value => Numeral.literalText value
  | _ => "null"

end Kind

structure Token where
  kind : Kind
  lexeme : String
  line : Nat
deriving DecidableEq

namespace Token

def row (t : Token) : String :=
  t.kind.name ++ " " ++ t.lexeme ++ " " ++ t.kind.literal

/-- Where a report about a token points: to its text, or to the end of the source. -/
def place (t : Token) : String :=
  if t.kind = .eof then " at end" else " at '" ++ t.lexeme ++ "'"

end Token
end LoxLang
