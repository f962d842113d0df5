import LoxLang.Outcome
import LoxLang.Source.Lexeme

/-!
# The scanner

The scanner goes over the bytes of a source. It keeps where the lexeme starts that is being scanned,
which byte comes next and which line it is on. Past the end there are zero bytes to peek at, so that
a loop needs no test of its own for the end. What is cut out of the source is cut at the numbers of
bytes, and this is a text only if both cuts are between two characters. A byte taken past the end,
or a cut that is no text, is a `Misstep`.
-/
namespace LoxLang

/-- A scanned source holds tokens and, in their places, faults. -/
abbrev ScanItem := Except LexicalFault Token

structure Scanner where
  source : String
  /-- The first byte of the lexeme that is being scanned. -/
  start : Nat
  /-- The next byte to examine. -/
  place : Nat
  line : Nat
  /-- The end token has been given out. -/
  ended : Bool
deriving DecidableEq

/-- What stops a scanner at once. -/
inductive Misstep
  | noByte (place : Nat)
  | noText (first last : Nat)
deriving DecidableEq

abbrev Scanning := Action Scanner Misstep

namespace Scanner

def begin (source : String) : Scanner := ⟨source, 0, 0, 1, false⟩

def byte? (s : Scanner) (i : Nat) : Option UInt8 :=
  if h : i < s.source.utf8ByteSize then some (s.source.getUTF8Byte ⟨i⟩ h) else none

def isAtEnd (s : Scanner) : Bool := s.source.utf8ByteSize ≤ s.place

/-- The byte so far behind the next one, or zero past the end. -/
def peek (s : Scanner) (ahead : Nat) : UInt8 := (s.byte? (s.place + ahead)).getD 0

def pass (s : Scanner) : Scanner := { s with place := s.place + 1 }

def countLine (s : Scanner) : Scanner := { s with line := s.line + 1 }

/-- The first place from `i` on with this byte, or the end. -/
def find (s : Scanner) (byte : UInt8) (i : Nat) : Nat :=
  if i < s.source.utf8ByteSize then
    if s.byte? i = some byte then i else s.find byte (i + 1)
  else s.source.utf8ByteSize
termination_by s.source.utf8ByteSize - i

/-- Passes everything before the next quote, or before the end, and counts the lines. -/
def toQuote (s : Scanner) : Scanner :=
  if s.isAtEnd || s.peek 0 = '"'.toUInt8 then s
  else if s.peek 0 = '\n'.toUInt8 then s.pass.countLine.toQuote
  else s.pass.toQuote
termination_by s.source.utf8ByteSize - s.place
decreasing_by
  all_goals
    simp_all only [isAtEnd, pass, countLine, Bool.or_eq_true, decide_eq_true_eq, not_or]
    omega

def slice? (source : String) (first last : Nat) : Option String :=
  if h : first ≤ last ∧ String.Pos.Raw.IsValid source ⟨first⟩ ∧
      String.Pos.Raw.IsValid source ⟨last⟩ then
    some (String.extract (s := source) ⟨⟨first⟩, h.2.1⟩ ⟨⟨last⟩, h.2.2⟩)
  else none

end Scanner

namespace Scanning
open Scanner

def peek (ahead : Nat) : Scanning UInt8 := Action.view (·.peek ahead)

def pass : Scanning Unit := Action.change Scanner.pass

def advance : Scanning UInt8 := fun s =>
  match s.byte? s.place with
  | some byte => .done byte s.pass
  | none => .failed (.noByte s.place) s

/-- Passes the bytes that `p` holds of. There is no test for the end: a `p` that holds of zero goes
on for ever. -/
def skipWhile (p : UInt8 → Bool) : Scanning Unit := fun s =>
  if p (s.peek 0) then
    if s.place < s.source.utf8ByteSize then skipWhile p s.pass else .exhausted
  else .done () s
termination_by s => s.source.utf8ByteSize - s.place
decreasing_by
  simp only [Scanner.pass]
  omega

/-- Passes a comment; the newline behind it stays. -/
def skipLine : Scanning Unit := fun s =>
  if s.place ≤ s.source.utf8ByteSize then
    .done () { s with place := s.find '\n'.toUInt8 s.place }
  else .failed (.noText s.place s.source.utf8ByteSize) s

/-- The text of the lexeme so far, less this many bytes on either side. -/
def cut (margin : Nat) : Scanning String := fun s =>
  match slice? s.source (s.start + margin) (s.place - margin) with
  | some text => .done text s
  | none => .failed (.noText (s.start + margin) (s.place - margin)) s

def isDigit (byte : UInt8) : Bool := (Char.ofUInt8 byte).isDigit

/-- What each byte but the first of an encoded character looks like. -/
def continuesChar (byte : UInt8) : Bool := byte &&& 0xC0 = 0x80

/-- The rest of a number: digits, and a point only before another digit. So the text is a decimal,
and it has a value. -/
def number : Scanning Kind := do
  skipWhile isDigit
  if (← peek 0) = '.'.toUInt8 && isDigit (← peek 1) then
    pass
    skipWhile isDigit
  return numberKind (← cut 0).toList

def identifier : Scanning Kind := do
  skipWhile (continuesWord ∘ Char.ofUInt8)
  return (keyword? (← cut 0)).getD .identifier

/-- The rest of a string, over lines if need be. -/
def string : Scanning Content := do
  Action.change toQuote
  if ← Action.view isAtEnd then
    return .fault .unterminated
  pass
  return .token (.string (← cut 1))

/-- An operator that may have an equals sign behind it. -/
def oneOrTwo (alone withEqual : Kind) : Scanning Content := do
  if (← peek 0) = '='.toUInt8 then
    pass
    return .token withEqual
  return .token alone

/-- The lexeme, or the piece of layout, with this first byte, which has been passed. -/
def startingWith (first : Char) : Scanning Content := do
  match first with
  | '(' => return .token .leftParen
  | ')' => return .token .rightParen
  | '{' => return .token .leftBrace
  | '}' => return .token .rightBrace
  | ',' => return .token .comma
  | '.' => return .token .dot
  | '-' => return .token .minus
  | '+' => return .token .plus
  | ';' => return .token .semicolon
  | '*' => return .token .star
  | '!' => oneOrTwo .bang .bangEqual
  | '=' => oneOrTwo .equal .equalEqual
  | '<' => oneOrTwo .less .lessEqual
  | '>' => oneOrTwo .greater .greaterEqual
  | '/' =>
    if (← peek 0) = '/'.toUInt8 then
      skipLine
      return .layout
    return .token .slash
  | ' ' | '\r' | '\t' => return .layout
  | '\n' =>
    Action.change countLine
    return .layout
  | '"' => string
  | c =>
    if c.isDigit then
      return .token (← number)
    else if startsWord c then
      return .token (← identifier)
    else
      -- the place must be between two characters again
      skipWhile continuesChar
      return .fault (.unexpected (← cut 0))

/-- One lexeme, or one piece of layout, that starts here. -/
def lexeme : Scanning Content := do
  Action.change fun s => { s with start := s.place }
  startingWith (Char.ofUInt8 (← advance))

/-- The next item; at the end there is one end token, and nothing behind it. -/
def next : (fuel : Nat) → Scanning (Option ScanItem)
  | 0 => Action.exhausted
  | fuel + 1 => do
    if ← Action.view isAtEnd then
      if ← Action.view Scanner.ended then
        return none
      Action.change fun s => { s with ended := true }
      return some (.ok ⟨.eof, "", ← Action.view Scanner.line⟩)
    match ← lexeme with
    | .layout => next fuel
    | .token kind =>
      let text ← cut 0
      return some (.ok ⟨kind, text, ← Action.view Scanner.line⟩)
    | .fault cause => return some (.error ⟨← Action.view Scanner.line, cause⟩)

def collect (rest : Scanning (List ScanItem)) : Option ScanItem → Scanning (List ScanItem)
  | none => return []
  | some item => return item :: (← rest)

def items : (fuel : Nat) → Scanning (List ScanItem)
  | 0 => Action.exhausted
  | fuel + 1 => next (fuel + 1) >>= collect (items fuel)

end Scanning
end LoxLang
