/-!
# Text from bytes

UTF-8 is decoded byte by byte. A fault says where the first bad character starts and how many of its
bytes could have belonged to a character; there is no such number when the text just ends too early.
-/
namespace LoxLang
namespace Text

structure Utf8Fault where
  index : Nat
  length : Option Nat
deriving DecidableEq

def Utf8Fault.message (f : Utf8Fault) : String :=
  match f.length with
  | some n =>
    "invalid utf-8 sequence of " ++ toString n ++ " bytes from index " ++ toString f.index
  | none => "incomplete utf-8 byte sequence from index " ++ toString f.index

/-- A character of which some bytes have been read. -/
structure Started where
  index : Nat
  taken : Nat
  value : Nat
  /-- Bytes that are still missing. -/
  missing : Nat
  /-- The range of the next byte. -/
  least : Nat
  greatest : Nat

/-- What the first byte of a longer character says about the rest; overlong forms, surrogates and
codes beyond the last character are kept out by the range of the second byte. -/
def started? (index : Nat) (b : Nat) : Option Started :=
  if 0xc2 ≤ b ∧ b ≤ 0xdf then some ⟨index, 1, b - 0xc0, 1, 0x80, 0xbf⟩
  else if 0xe0 ≤ b ∧ b ≤ 0xef then
    some ⟨index, 1, b - 0xe0, 2, if b = 0xe0 then 0xa0 else 0x80, if b = 0xed then 0x9f else 0xbf⟩
  else if 0xf0 ≤ b ∧ b ≤ 0xf4 then
    some ⟨index, 1, b - 0xf0, 3, if b = 0xf0 then 0x90 else 0x80, if b = 0xf4 then 0x8f else 0xbf⟩
  else none

/-- Decodes the bytes from `index` on, in the middle of a character if one has been started. -/
def decodeFrom (index : Nat) : Option Started → List UInt8 → Except Utf8Fault (List Char)
  | none, [] => .ok []
  | some s, [] => .error ⟨s.index, none⟩
  | none, byte :: bytes =>
    let b := byte.toNat
    if b < 0x80 then return Char.ofNat b :: (← decodeFrom (index + 1) none bytes)
    else
      match started? index b with
      | some s => decodeFrom (index + 1) (some s) bytes
      | none => .error ⟨index, some 1⟩
  | some s, byte :: bytes =>
    let b := byte.toNat
    if s.least ≤ b ∧ b ≤ s.greatest then
      let value := s.value * 64 + (b - 0x80)
      if s.missing ≤ 1 then return Char.ofNat value :: (← decodeFrom (index + 1) none bytes)
      else
        decodeFrom (index + 1)
          (some ⟨s.index, s.taken + 1, value, s.missing - 1, 0x80, 0xbf⟩) bytes
    else .error ⟨s.index, some s.taken⟩

def decode (bytes : List UInt8) : Except Utf8Fault String :=
  (decodeFrom 0 none bytes).map String.ofList

/-- Cuts bytes into lines. A line ends with a newline, which is dropped together with a carriage
return before it; what follows the last newline is a line only if there is something. -/
def byteLines (bytes : List UInt8) : List (List UInt8) :=
  let rec go : List UInt8 → List UInt8 → List (List UInt8)
    | [], [] => []
    | line, [] => [line.reverse]
    | line, 10 :: rest =>
      let line := match line with
        | 13 :: line => line
        | line => line
      line.reverse :: go [] rest
    | line, b :: rest => go (b :: line) rest
  go [] bytes

end Text
end LoxLang
