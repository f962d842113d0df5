import LoxLang.Fault
import LoxLang.Outcome
import LoxLang.Tree

/-!
# Reading tokens

A cursor stands at a place of a buffer of tokens, the last of which is an end token. It moves on
from one token to the next and never past an end token. Beside the place the cursor holds the next
free identity and the faults reported so far. A `Reading` that fails keeps all three.
-/
namespace LoxLang

structure Cursor where
  tokens : Array Token
  /-- The index of the next token. -/
  place : Nat
  nextId : Nat
  faults : Array GrammarFault

namespace Cursor

/-- The tokens, with an end token behind them if the last one is none. -/
def buffer (tokens : List Token) : List Token :=
  if tokens.getLast?.any (·.kind = .eof) then tokens
  else tokens ++ [⟨.eof, "", (tokens.getLast?.map Token.line).getD 1⟩]

def start (tokens : List Token) (firstId : Nat) : Cursor :=
  ⟨(buffer tokens).toArray, 0, firstId, #[]⟩

/-- The token at an index; behind the buffer it is an end token. -/
def tokenAt (c : Cursor) (index : Nat) : Token := c.tokens[index]?.getD ⟨.eof, "", 1⟩

def peek (c : Cursor) : Token := c.tokenAt c.place

def previous (c : Cursor) : Token := c.tokenAt (c.place - 1)

def isAtEnd (c : Cursor) : Bool := c.peek.kind = .eof

/-- The next token is of a kind that is looked for; an end token never is. -/
def check (p : Kind → Bool) (c : Cursor) : Bool := !c.isAtEnd && p c.peek.kind

/-- Moves behind the next token; the end is never passed. -/
def advance (c : Cursor) : Cursor := if c.isAtEnd then c else { c with place := c.place + 1 }

def startsStatement : Kind → Bool
  | .classKw | .funKw | .varKw | .forKw | .ifKw | .whileKw | .printKw | .returnKw => true
  | _ => false

theorem place_lt_of_not_isAtEnd {c : Cursor} (h : ¬c.isAtEnd) : c.place < c.tokens.size := by
  apply Nat.lt_of_not_le
  intro hge
  apply h
  rw [isAtEnd, peek, tokenAt, Array.getElem?_eq_none hge]
  rfl

/-- Skips tokens up to a likely statement boundary: behind a semicolon, or before a keyword that
starts a statement. -/
def settle (c : Cursor) : Cursor :=
  if c.isAtEnd then c
  else if c.previous.kind = .semicolon then c
  else if startsStatement c.peek.kind then c
  else c.advance.settle
termination_by c.tokens.size - c.place
decreasing_by
  have hlt := place_lt_of_not_isAtEnd ‹¬c.isAtEnd = true›
  rw [advance, if_neg ‹¬c.isAtEnd = true›]
  dsimp only
  omega

/-- Skips at least one token, and more up to a likely statement boundary. -/
def synchronize (c : Cursor) : Cursor := c.advance.settle

def report (fault : GrammarFault) (c : Cursor) : Cursor :=
  { c with faults := c.faults.push fault }

end Cursor

/-- Reading something from the tokens ahead. -/
abbrev Reading := Action Cursor GrammarFault

namespace Reading

def peek : Reading Token := Action.view Cursor.peek

def isAtEnd : Reading Bool := Action.view Cursor.isAtEnd

def nextKind : Reading Kind := Action.view (·.peek.kind)

def advance : Reading Unit := Action.change Cursor.advance

/-- Takes the next token if its kind is among those that are looked for. -/
def takeIf (p : Kind → Bool) : Reading (Option Token) := Action.update fun c =>
  if c.check p then (some c.advance.previous, c.advance) else (none, c)

def accept (kind : Kind) : Reading Bool := return (← takeIf (· = kind)).isSome

/-- Takes the next token, which has to be of this kind. -/
def want (kind : Kind) (wanted : Wanted) : Reading Token := do
  match ← takeIf (· = kind) with
  | some token => return token
  | none => Action.fail ⟨← peek, .expect wanted⟩

def note (fault : GrammarFault) : Reading Unit := Action.change (Cursor.report fault)

/-- Reports a fault at the next token without failing. -/
def complain (cause : GrammarCause) : Reading Unit := do note ⟨← peek, cause⟩

/-- A new expression, with an identity of its own. -/
def node (build : Nat → Expr) : Reading Expr := Action.update fun c =>
  (build c.nextId, { c with nextId := c.nextId + 1 })

/-- Skips to a likely statement boundary. -/
def resume : Reading Unit := Action.change Cursor.synchronize

/-- The largest number of parameters of a function, and of arguments of a call. -/
def maxArity : Nat := 255

/-- Reports one more parameter or argument when there are `count` already and that is the limit. -/
def checkCount (count : Nat) (cause : GrammarCause) : Reading Unit :=
  if maxArity ≤ count then complain cause else pure ()

/-- A list, which is empty if a token of this kind comes next. -/
@[always_inline, inline]
def listUntil {α : Type} (stop : Kind) (list : Reading (List α)) : Reading (List α) := do
  if (← nextKind) = stop then return [] else list

end Reading

end LoxLang
