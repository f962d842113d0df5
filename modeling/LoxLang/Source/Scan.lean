import LoxLang.Source.Scanner

/-!
# Tokens of a source

A source is scanned to its end. Every round of the scanner passes at least one byte, so there is
fuel enough for all of them, for the end token and for what comes behind it.
-/
namespace LoxLang

/-- Tokens and faults of a source, in order; the last one is the end token. -/
def scan (source : String) : List ScanItem :=
  match Scanning.items (source.utf8ByteSize + 2) (.begin source) with
  | .done items _ => items
  | _ => []

def scannedTokens (items : List ScanItem) : List Token :=
  items.filterMap fun
    | .ok token => some token
    | .error _ => none

def scannedFaults (items : List ScanItem) : List LexicalFault :=
  items.filterMap fun
    | .ok _ => none
    | .error fault => some fault

end LoxLang
