import LoxLang.Execution.Frames
import LoxLang.Text.Quoted
import LoxLang.Tree

/-!
# The heap

Everything that values refer to: frames, functions, classes, instances and native functions. The
heap only grows. Of what is in it, only variables and fields change; functions and classes stay as
they were made.
-/
namespace LoxLang

/-- A function with the frame it was declared in. An initializer always yields its instance. -/
structure Closure where
  declaration : FunctionDecl
  frame : Nat
  isInitializer : Bool

structure Class where
  name : String
  methods : Table Closure

structure Instance where
  cls : Nat
  fields : Table Value

/-- What a native function gets to see: its arguments, how `print` shows each of them, and a
reading of the clock in seconds. -/
structure NativeCall where
  arguments : List Value
  texts : List String
  seconds : Float

/-- A function of the host; its own words say why it failed. -/
structure Native where
  name : String
  arity : Nat
  run : NativeCall → Except String Value

/-- The seconds since the start of the epoch. -/
def Native.clock : Native := ⟨"clock", 0, fun call => .ok (.number call.seconds)⟩

namespace Closure

def name (c : Closure) : String := c.declaration.name.lexeme

def arity (c : Closure) : Nat := c.declaration.params.length

end Closure

namespace Class

def initializer? (c : Class) : Option Closure := c.methods.get? "init"

/-- A class takes the arguments of its initializer. -/
def arity (c : Class) : Nat := (c.initializer?.map Closure.arity).getD 0

end Class

structure Heap where
  frames : Frames
  closures : Array Closure
  classes : Array Class
  instances : Array Instance
  natives : Array Native

inductive Callee
  | native (n : Native)
  | function (c : Closure)
  | cls (place : Nat) (c : Class)

def Callee.arity : Callee → Nat
  | native n => n.arity
  | function c => c.arity
  | cls _ c => c.arity

namespace Heap

/-- The global frame, with the clock in it. -/
def initial : Heap where
  frames := Frames.empty.push none (Table.set ∅ "clock" (.native 0))
  closures := #[]
  classes := #[]
  instances := #[]
  natives := #[Native.clock]

def globals : Nat := 0

def addClosure (h : Heap) (c : Closure) : Value × Heap :=
  (.function h.closures.size, { h with closures := h.closures.push c })

def addClass (h : Heap) (c : Class) : Value × Heap :=
  (.cls h.classes.size, { h with classes := h.classes.push c })

def addNative (h : Heap) (n : Native) : Value × Heap :=
  (.native h.natives.size, { h with natives := h.natives.push n })

def addFrame (h : Heap) (parent : Option Nat) (vars : Table Value) : Nat × Heap :=
  (h.frames.next, { h with frames := h.frames.push parent vars })

def addInstance (h : Heap) (cls : Nat) : Nat × Heap :=
  (h.instances.size, { h with instances := h.instances.push ⟨cls, ∅⟩ })

def setField (h : Heap) (place : Nat) (name : String) (value : Value) : Heap :=
  let change (i : Instance) : Instance := { i with fields := i.fields.set name value }
  { h with instances := h.instances.modify place change }

def field? (h : Heap) (place : Nat) (name : String) : Option Value :=
  (h.instances[place]?).bind (·.fields.get? name)

/-- A method of the class of an instance. -/
def method? (h : Heap) (place : Nat) (name : String) : Option Closure :=
  ((h.instances[place]?).bind (h.classes[·.cls]?)).bind (·.methods.get? name)

/-- A method whose frame has `this` bound to an instance. -/
def bind (h : Heap) (method : Closure) (place : Nat) : Closure × Heap :=
  let (frame, h) := h.addFrame (some method.frame) (Table.set ∅ "this" (.inst place))
  ({ method with frame }, h)

/-- What a value does when it is called, if it can be. -/
def callee? (h : Heap) : Value → Option Callee
  | .native place => (h.natives[place]?).map .native
  | .function place => (h.closures[place]?).map .function
  | .cls place => (h.classes[place]?).map (.cls place)
  | _ => none

def arity? (h : Heap) (v : Value) : Option Nat := (h.callee? v).map Callee.arity

def className (h : Heap) (place : Nat) : String := ((h.classes[place]?).map Class.name).getD ""

def instanceText (h : Heap) (place : Nat) : String :=
  "<" ++ ((h.instances[place]?).map (h.className ·.cls)).getD "" ++ " instance>"

/-- What `print` shows of a value. -/
def text (h : Heap) : Value → String
  | .nil => "nil"
  | .bool true => "true"
  | .bool false => "false"
  | .number n => Numeral.display n
  | .string s => s
  | .native _ => "<native fn>"
  | .function place => "<fn " ++ ((h.closures[place]?).map Closure.name).getD "" ++ ">"
  | .cls place => h.className place
  | .inst place => h.instanceText place

/-- What a host's programmer gets to see of a callable value or an instance. -/
def describe? (h : Heap) : Value → Option String
  | .native place => (h.natives[place]?).map fun n => "<native fn " ++ n.name ++ ">"
  | .function place =>
    (h.closures[place]?).map fun c => "<fn " ++ c.name ++ "/" ++ toString c.arity ++ ">"
  | .cls place =>
    (h.classes[place]?).map fun c =>
      "LoxClass \x7b name: " ++ Text.quoted c.name ++ ", methods: ["
        ++ String.intercalate ", " (c.methods.names.map Text.quoted) ++ "] \x7d"
  | .inst place => some (h.instanceText place)
  | _ => none

end Heap
end LoxLang
