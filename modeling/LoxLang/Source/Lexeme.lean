import LoxLang.Fault

/-!
# Lexemes

What a lexeme can be, and what its text says: which words are keywords, and which number the digits
of a literal write.
-/
namespace LoxLang

/-- What a stretch of text is. -/
inductive Content
  | token (kind : Kind)
  | layout
  | fault (cause : LexicalCause)
deriving DecidableEq

def startsWord (c : Char) : Bool := c.isAlpha || c = '_'

def continuesWord (c : Char) : Bool := c.isAlphanum || c = '_'

/-- The words with a meaning of their own. -/
def keyword? : String → Option Kind
  | "and" => some .andKw
  | "class" => some .classKw
  | "else" => some .elseKw
  | "false" => some .falseKw
  | "fun" => some .funKw
  | "for" => some .forKw
  | "if" => some .ifKw
  | "nil" => some .nilKw
  | "or" => some .orKw
  | "print" => some .printKw
  | "return" => some .returnKw
  | "super" => some .superKw
  | "this" => some .thisKw
  | "true" => some .trueKw
  | "var" => some .varKw
  | "while" => some .whileKw
  | _ => none

/-- The decimal that the digits of a number literal write. -/
def decimal (literal : List Char) : Decimal :=
  let whole := literal.takeWhile Char.isDigit
  let fraction := literal.drop (whole.length + 1)
  ⟨Nat.ofDigitChars 10 (whole ++ fraction) 0, -fraction.length⟩

/-- A number literal denotes the double nearest to its decimal. -/
def numberKind (literal : List Char) : Kind := .number (decimal literal).toFloat

end LoxLang
