import LoxLang.Numeral.Text

/-!
# JSON documents

Documents with ordered members, and their text on one line or indented. Members keep the order in
which they are given. Text is escaped only where JSON demands it: quotes, backslashes and control
characters.
-/
namespace LoxLang

mutual

inductive Document
  | null
  | natural (n : Nat)
  | number (n : Float)
  | string (s : String)
  | array (items : List Document)
  | object (members : List Member)

structure Member where
  key : String
  value : Document

end

namespace Document

/-- An object with one member, as a tag around a value. -/
def tagged (tag : String) (value : Document) : Document := .object [⟨tag, value⟩]

/-- The two lower-case hexadecimal digits of a character below 256. -/
def hexPair (c : Char) : List Char :=
  [Nat.digitChar (c.toNat / 16), Nat.digitChar (c.toNat % 16)]

/-- A character as it stands between the quotes of a string. -/
def escapeChar (c : Char) : List Char :=
  if c = '"' then ['\\', '"']
  else if c = '\\' then ['\\', '\\']
  else if c = '\n' then ['\\', 'n']
  else if c = '\r' then ['\\', 'r']
  else if c = '\t' then ['\\', 't']
  else if c = '\x08' then ['\\', 'b']
  else if c = '\x0c' then ['\\', 'f']
  else if c.toNat < 32 then '\\' :: 'u' :: '0' :: '0' :: hexPair c
  else [c]

def quoted (s : String) : String :=
  "\"" ++ String.ofList (s.toList.flatMap escapeChar) ++ "\""

/-- Items between brackets, each on an indented line of its own. -/
def indented (opening closing : String) (depth : Nat) (items : List String) : String :=
  if items.isEmpty then opening ++ closing
  else
    let margin (n : Nat) := "\n" ++ String.ofList (List.replicate (2 * n) ' ')
    opening ++ margin (depth + 1) ++ String.intercalate ("," ++ margin (depth + 1)) items
      ++ margin depth ++ closing

end Document

mutual

/-- The indented text of a document whose first line has this depth. -/
def Document.pretty (depth : Nat) : Document → String
  | .null => "null"
  | .natural n => toString n
  | .number n => Numeral.jsonText n
  | .string s => Document.quoted s
  | .array items => Document.indented "[" "]" depth (Document.prettyItems (depth + 1) items)
  | .object members =>
    Document.indented "\x7b" "\x7d" depth (Document.prettyMembers (depth + 1) members)

def Document.prettyItems (depth : Nat) : List Document → List String
  | [] => []
  | item :: items => item.pretty depth :: Document.prettyItems depth items

def Document.prettyMembers (depth : Nat) : List Member → List String
  | [] => []
  | ⟨key, value⟩ :: members =>
    (Document.quoted key ++ ": " ++ value.pretty depth) :: Document.prettyMembers depth members

end

mutual

def Document.compact : Document → String
  | .null => "null"
  | .natural n => toString n
  | .number n => Numeral.jsonText n
  | .string s => Document.quoted s
  | .array items => "[" ++ String.intercalate "," (Document.compactItems items) ++ "]"
  | .object members =>
    "\x7b" ++ String.intercalate "," (Document.compactMembers members) ++ "\x7d"

def Document.compactItems : List Document → List String
  | [] => []
  | item :: items => item.compact :: Document.compactItems items

def Document.compactMembers : List Member → List String
  | [] => []
  | ⟨key, value⟩ :: members =>
    (Document.quoted key ++ ":" ++ value.compact) :: Document.compactMembers members

end

end LoxLang
