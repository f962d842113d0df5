import LoxLang.Fault

/-!
# Sinks

Printed text goes to a sink, piece by piece. A sink may have a capacity in lines: once that many
newlines have been taken, every further piece is refused and nothing of it is kept. Flushing a sink
may fail, too.
-/
namespace LoxLang

structure Sink where
  /-- The pieces taken since the last time they were handed over, newest first. -/
  pending : List String
  /-- Newlines taken from the beginning. -/
  newlines : Nat
  capacity : Option Nat
  flushFails : Bool

namespace Sink

def unlimited : Sink := ⟨[], 0, none, false⟩

def isClosed (s : Sink) : Bool := s.capacity.any (· ≤ s.newlines)

/-- Takes a piece of text, all or nothing. -/
def write (s : Sink) (piece : String) : Except OutputCause Sink :=
  if piece.isEmpty then .ok s
  else if s.isClosed then .error .closed
  else .ok { s with
    pending := piece :: s.pending
    newlines := s.newlines + piece.toList.count '\n' }

def flush (s : Sink) : Except OutputCause Unit :=
  if s.flushFails then .error .flushFailed else .ok ()

def text (s : Sink) : String := String.join s.pending.reverse

/-- What is taken is taken whole, behind what is waiting already. -/
theorem text_write {s t : Sink} {piece : String} (h : s.write piece = .ok t) :
    t.text = s.text ++ piece := by
  unfold write at h
  split at h
  · next hp =>
    cases h
    simp [String.isEmpty_iff.mp hp]
  · split at h
    · cases h
    · cases h
      simp [text, String.join_append]

/-- Hands over the text that is waiting. -/
def drain (s : Sink) : String × Sink := (s.text, { s with pending := [] })

end Sink
end LoxLang
