import LoxLang.Fault
import LoxLang.Table
import Std.Data.TreeMap

/-!
# Scopes and binding distances

While names are bound, a stack of local scopes says which names are visible. A name is first
declared and then, when its initializer has been passed, ready. The global scope is not on the
stack: names found in no scope are global and get no distance.
-/
namespace LoxLang

/-- For occurrences of local names, by the identity of the expression: how many scopes out the name
is bound. -/
abbrev Distances := Std.TreeMap Nat Nat

/-- The names of one scope; `true` for those that are ready. -/
abbrev Scope := Table Bool

/-- Where the walk over a program is, and what it has found so far. -/
structure Walk where
  /-- The open scopes, innermost first. -/
  scopes : List Scope
  distances : Distances
  /-- What the innermost function around is, if there is one. -/
  currentFunction : Option Routine
  /-- There is a class around. -/
  inClass : Bool
  faults : Array ScopeFault

namespace Walk

def begin (distances : Distances) : Walk := ⟨[], distances, none, false, #[]⟩

def report (token : Token) (cause : ScopeCause) (w : Walk) : Walk :=
  { w with faults := w.faults.push ⟨token, cause⟩ }

def setFunction (kind : Option Routine) (w : Walk) : Walk := { w with currentFunction := kind }

def setClass (inClass : Bool) (w : Walk) : Walk := { w with inClass }

def enter (w : Walk) : Walk := { w with scopes := ∅ :: w.scopes }

def leave (w : Walk) : Walk := { w with scopes := w.scopes.tail }

def define (name : String) (w : Walk) : Walk :=
  match w.scopes with
  | [] => w
  | scope :: outer => { w with scopes := scope.set name true :: outer }

/-- Declares a name in the innermost scope, which must not know it yet. -/
def declare (name : Token) (w : Walk) : Walk :=
  match w.scopes with
  | [] => w
  | scope :: outer =>
    if scope.contains name.lexeme then w.report name .redeclared
    else { w with scopes := scope.set name.lexeme false :: outer }

/-- Declares a name and makes it ready at once. -/
def introduce (name : Token) (w : Walk) : Walk := (w.declare name).define name.lexeme

def introduceAll : List Token → Walk → Walk
  | [], w => w
  | name :: names, w => introduceAll names (w.introduce name)

/-- A name must not be read while the innermost scope has it declared and not ready. -/
def checkReady (name : Token) (w : Walk) : Walk :=
  match w.scopes.head?.bind (·.get? name.lexeme) with
  | some false => w.report name .ownInitializer
  | _ => w

/-- Notes how many scopes out the name of an occurrence is bound. -/
def link (id : Nat) (name : Token) (w : Walk) : Walk :=
  match w.scopes.findIdx? (·.contains name.lexeme) with
  | some distance => { w with distances := w.distances.insert id distance }
  | none => w

end Walk
end LoxLang
