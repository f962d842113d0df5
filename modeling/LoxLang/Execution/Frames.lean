import LoxLang.Fault
import LoxLang.Execution.Value
import LoxLang.Table

/-!
# Frames

A frame holds the variables of one scope, and the frame around it is its parent. Frames are only
ever added, and a parent is always older than its children: every chain of parents is finite, which
is why looking up a name along it ends. Variables are found by name along the chain, or by name in
the frame a known number of steps up.
-/
namespace LoxLang

structure Frame where
  parent : Option Nat
  vars : Table Value

structure Frames where
  all : Array Frame
  parent_lt : ∀ {i : Nat} {f : Frame} {p : Nat}, all[i]? = some f → f.parent = some p → p < i

namespace Frames

def empty : Frames where
  all := #[]
  parent_lt h := by simp at h

def parent? (fs : Frames) (i : Nat) : Option Nat := (fs.all[i]?).bind Frame.parent

theorem lt_of_parent? {fs : Frames} {i p : Nat} (h : fs.parent? i = some p) : p < i := by
  obtain ⟨f, hf, hp⟩ := Option.bind_eq_some_iff.mp h
  exact fs.parent_lt hf hp

/-- Adds a frame inside an existing one, or outside all. -/
def push (fs : Frames) (parent : Option Nat) (vars : Table Value) : Frames where
  all := fs.all.push ⟨parent.filter (· < fs.all.size), vars⟩
  parent_lt {i f p} h hp := by
    rw [Array.getElem?_push] at h
    split at h
    · cases h
      obtain ⟨_, hlt⟩ := Option.filter_eq_some_iff.mp hp
      simp at hlt
      omega
    · exact fs.parent_lt h hp

abbrev next (fs : Frames) : Nat := fs.all.size

/-- Binds a name in a frame, whether it was bound there or not. -/
def define (fs : Frames) (i : Nat) (name : String) (value : Value) : Frames where
  all := fs.all.modify i fun f => { f with vars := f.vars.set name value }
  parent_lt {j f p} h hp := by
    rw [Array.getElem?_modify] at h
    split at h
    · obtain ⟨g, hg, rfl⟩ := Option.map_eq_some_iff.mp h
      exact fs.parent_lt hg hp
    · exact fs.parent_lt h hp

/-- The value of a name in this frame alone. -/
def getHere? (fs : Frames) (i : Nat) (name : String) : Option Value :=
  (fs.all[i]?).bind (·.vars.get? name)

@[simp]
theorem next_push (fs : Frames) (parent : Option Nat) (vars : Table Value) :
    (fs.push parent vars).next = fs.next + 1 := Array.size_push _

@[simp]
theorem next_define (fs : Frames) (i : Nat) (name : String) (value : Value) :
    (fs.define i name value).next = fs.next := Array.size_modify

theorem parent?_push (fs : Frames) (parent : Option Nat) (vars : Table Value) (i : Nat) :
    (fs.push parent vars).parent? i =
      if i = fs.next then parent.filter (· < fs.next) else fs.parent? i := by
  simp only [parent?, push, Array.getElem?_push]
  split <;> rfl

@[simp]
theorem parent?_define (fs : Frames) (i j : Nat) (name : String) (value : Value) :
    (fs.define i name value).parent? j = fs.parent? j := by
  simp only [parent?, define, Array.getElem?_modify]
  split
  · cases fs.all[j]? <;> rfl
  · rfl

theorem getHere?_push (fs : Frames) (parent : Option Nat) (vars : Table Value) (i : Nat)
    (name : String) :
    (fs.push parent vars).getHere? i name =
      if i = fs.next then vars.get? name else fs.getHere? i name := by
  simp only [getHere?, push, Array.getElem?_push]
  split <;> rfl

/-- A definition shows under its name in its frame and nowhere else. -/
theorem getHere?_define (fs : Frames) (i j : Nat) (name other : String) (value : Value) :
    (fs.define i name value).getHere? j other =
      if i = j ∧ name = other ∧ j < fs.next then some value else fs.getHere? j other := by
  simp only [getHere?, define, Array.getElem?_modify]
  by_cases hi : i = j
  · by_cases hj : j < fs.all.size
    · by_cases hn : name = other <;> simp [hi, hj, hn, Table.get?_set]
    · simp [hj]
  · simp [hi]

/-- The nearest frame along the chain that binds a name. -/
def holder? (fs : Frames) (i : Nat) (name : String) : Option Nat :=
  if (fs.getHere? i name).isSome then some i
  else
    match _h : fs.parent? i with
    | none => none
    | some p => fs.holder? p name
termination_by i
decreasing_by exact lt_of_parent? _h

/-- The frame a number of steps up the chain. -/
def ancestor? (fs : Frames) (i : Nat) : (distance : Nat) → Option Nat
  | 0 => some i
  | distance + 1 => (fs.parent? i).bind (fs.ancestor? · distance)

/-- The frame this many steps up, if it binds the name. -/
def holderAt? (fs : Frames) (i distance : Nat) (name : String) : Option Nat :=
  (fs.ancestor? i distance).filter fun j => (fs.getHere? j name).isSome

/-- The value of a name along the chain. -/
def get? (fs : Frames) (i : Nat) (name : String) : Option Value :=
  (fs.holder? i name).bind (fs.getHere? · name)

def getAt? (fs : Frames) (i distance : Nat) (name : String) : Option Value :=
  (fs.ancestor? i distance).bind (fs.getHere? · name)

/-- Rebinds a name in the nearest frame along the chain that binds it. -/
def assign? (fs : Frames) (i : Nat) (name : String) (value : Value) : Option Frames :=
  (fs.holder? i name).map (fs.define · name value)

def assignAt? (fs : Frames) (i distance : Nat) (name : String) (value : Value) : Option Frames :=
  (fs.holderAt? i distance name).map (fs.define · name value)

/-- Without a result, the fault is an undefined variable at this token. -/
def orUndefined {α : Type} (name : Token) : Option α → Except RunFault α
  | some a => .ok a
  | none => .error (.operation name (.undefinedVariable name.lexeme))

end Frames
end LoxLang
