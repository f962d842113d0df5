import LoxLang.Binding.Scope
import LoxLang.Outcome
import LoxLang.Execution.Heap
import LoxLang.Execution.Sink

/-!
# The machine

The state of a running program, and the steps that touch it. The current frame and the depth of
calls are part of the state: a step that changes one of them for a while puts it back on every way
out.
-/
namespace LoxLang

structure Machine where
  heap : Heap
  /-- The frame of the innermost scope. -/
  current : Nat
  /-- Calls that are running. -/
  depth : Nat
  distances : Distances
  sink : Sink
  /-- The readings of the clock, one after the other, and how many have been taken. -/
  readings : Nat → Float
  taken : Nat

namespace Machine

def initial (sink : Sink) (readings : Nat → Float) : Machine :=
  ⟨Heap.initial, Heap.globals, 0, ∅, sink, readings, 0⟩

/-- Notes that an occurrence of a name is bound this many scopes out. -/
def noteDistance (m : Machine) (id distance : Nat) : Machine :=
  { m with distances := m.distances.insert id distance }

def distance? (m : Machine) (id : Nat) : Option Nat := m.distances[id]?

/-- The value of the name of an occurrence: at its distance, or else among the globals. -/
def valueOf? (m : Machine) (id : Nat) (name : String) : Option Value :=
  match m.distance? id with
  | some distance => m.heap.frames.getAt? m.current distance name
  | none => m.heap.frames.get? Heap.globals name

/-- The frame that holds the name of an occurrence: the one at its distance, or else that of the
globals. -/
def holderOf? (m : Machine) (id : Nat) (name : String) : Option Nat :=
  match m.distance? id with
  | some distance => m.heap.frames.holderAt? m.current distance name
  | none => m.heap.frames.holder? Heap.globals name

end Machine

def maxDepth : Nat := 255

/-- How a statement ended: by itself, or by a `return` that still has to reach its call. -/
inductive Flow
  | normal
  | returned (value : Value)
deriving DecidableEq

/-- A step of a running program. -/
abbrev Run := Action Machine RunFault

namespace Run

variable {α : Type}

@[always_inline, inline]
def onHeap (f : Heap → α × Heap) : Run α := Action.update fun m =>
  let (a, heap) := f m.heap
  (a, { m with heap })

def fault (token : Token) (cause : RunCause) : Run α := Action.fail (.operation token cause)

def define (name : String) (value : Value) : Run Unit := Action.change fun m =>
  { m with heap := { m.heap with frames := m.heap.frames.define m.current name value } }

/-- Rebinds a name in the frame that holds it; without one the name is undefined. -/
@[always_inline, inline]
def rebind (name : Token) (value : Value) (holder? : Machine → Option Nat) : Run Unit := do
  match ← Action.view holder? with
  | some frame =>
    Action.change fun m =>
      { m with heap := { m.heap with frames := m.heap.frames.define frame name.lexeme value } }
  | none => fault name (.undefinedVariable name.lexeme)

/-- Rebinds a name along the chain of the current frame. -/
def assignAlong (name : Token) (value : Value) : Run Unit :=
  rebind name value fun m => m.heap.frames.holder? m.current name.lexeme

/-- Reads the name of an occurrence. -/
def readName (id : Nat) (name : Token) : Run Value := do
  match ← Action.view (·.valueOf? id name.lexeme) with
  | some value => return value
  | none => fault name (.undefinedVariable name.lexeme)

def writeName (id : Nat) (name : Token) (value : Value) : Run Unit :=
  rebind name value (·.holderOf? id name.lexeme)

/-- Reads a property of an instance: a field, or else a freshly bound method. -/
def readProperty (place : Nat) (name : Token) : Run Value := do
  match ← Action.view (·.heap.field? place name.lexeme) with
  | some value => return value
  | none =>
    match ← Action.view (·.heap.method? place name.lexeme) with
    | some method =>
      let bound ← onHeap (·.bind method place)
      onHeap (·.addClosure bound)
    | none => fault name (.undefinedProperty name.lexeme)

def writeField (place : Nat) (name : String) (value : Value) : Run Unit := Action.change fun m =>
  { m with heap := m.heap.setField place name value }

def write (piece : String) : Run Unit := fun m =>
  match m.sink.write piece with
  | .ok sink => .done () { m with sink }
  | .error cause => .failed (.output cause) m

def print (value : Value) : Run Unit := do
  write (← Action.view (·.heap.text value))
  write "\n"

def flush : Run Unit := fun m =>
  match m.sink.flush with
  | .ok () => .done () m
  | .error cause => .failed (.output cause) m

/-- Runs `body` with another current frame and puts the old one back. -/
@[always_inline, inline]
def inFrame (frame : Nat) (body : Run α) : Run α := fun m =>
  let previous := m.current
  Action.ensuring body (fun m => { m with current := previous }) { m with current := frame }

/-- Runs `body` one call deeper. -/
@[always_inline, inline]
def deeper (body : Run α) : Run α := fun m =>
  Action.ensuring body (fun m => { m with depth := m.depth - 1 }) { m with depth := m.depth + 1 }

/-- A failure of a native function inside `body` is blamed on the call at this parenthesis. -/
@[always_inline, inline]
def blaming (paren : Token) (body : Run α) : Run α := fun m =>
  match body m with
  | .done value m => .done value m
  | .failed fault m => .failed (fault.blame paren) m
  | .exhausted => .exhausted

def callNative (n : Native) (arguments : List Value) : Run Value := fun m =>
  let call : NativeCall := ⟨arguments, arguments.map m.heap.text, m.readings m.taken⟩
  match n.run call with
  | .ok value => .done value { m with taken := m.taken + 1 }
  | .error text => .failed (.native text) { m with taken := m.taken + 1 }

end Run
end LoxLang
