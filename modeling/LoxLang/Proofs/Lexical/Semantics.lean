import LoxLang.Session

/-!
# Lexical scoping

A second meaning of programs, in which scopes are persistent. A scope is a list of names, each with
the location of its variable; it is never changed, only extended. Every local declaration takes a
new location and extends the scope of what follows it. A function keeps the scope that is visible
where it is declared, itself included. A name is looked up in the scope, innermost first, and if it
is not there, by its name among the globals. There are no frames, no distances and no identities.

Everything else is as it is in a run: values, operators, output and faults are the same, and so is
the use of fuel.
-/
namespace LoxLang
namespace Lexical

/-- The names that are visible at a point of a program, innermost first. What is declared outside
all functions and blocks is global. -/
structure Scope where
  isLocal : Bool
  names : List (String × Nat)

namespace Scope

def global : Scope := ⟨false, []⟩

def enter (scope : Scope) : Scope := ⟨true, scope.names⟩

def find? (scope : Scope) (name : String) : Option Nat := scope.names.lookup name

/-- With one more name, unless names are global here. -/
def extend (scope : Scope) (name : String) (location : Nat) : Scope :=
  if scope.isLocal then ⟨true, (name, location) :: scope.names⟩ else scope

end Scope

/-- A function with the scope that it was declared in. -/
structure Closure where
  declaration : FunctionDecl
  scope : Scope
  isInitializer : Bool

structure Class where
  name : String
  methods : Table Closure

namespace Class

def initializer? (c : Class) : Option Closure := c.methods.get? "init"

def arity (c : Class) : Nat := (c.initializer?.map (·.declaration.params.length)).getD 0

end Class

/-- The state of a run: the globals by name, the local variables by location, and everything that
values refer to. -/
structure Store where
  globals : Table Value
  cells : Array Value
  closures : Array Closure
  classes : Array Class
  instances : Array Instance
  natives : Array Native
  depth : Nat
  sink : Sink
  readings : Nat → Float
  taken : Nat

inductive Callee
  | native (n : Native)
  | function (c : Closure)
  | cls (place : Nat) (c : Class)

def Callee.arity : Callee → Nat
  | native n => n.arity
  | function c => c.declaration.params.length
  | cls _ c => c.arity

namespace Store

def initial (sink : Sink) (readings : Nat → Float) : Store where
  globals := Table.set ∅ "clock" (.native 0)
  cells := #[]
  closures := #[]
  classes := #[]
  instances := #[]
  natives := #[Native.clock]
  depth := 0
  sink := sink
  readings := readings
  taken := 0

def valueOf? (t : Store) (scope : Scope) (name : String) : Option Value :=
  match scope.find? name with
  | some location => t.cells[location]?
  | none => t.globals.get? name

def declare (t : Store) (scope : Scope) (name : String) (value : Value) : Store :=
  if scope.isLocal then { t with cells := t.cells.push value }
  else { t with globals := t.globals.set name value }

def assign? (t : Store) (scope : Scope) (name : String) (value : Value) : Option Store :=
  match scope.find? name with
  | some location => some { t with cells := t.cells.setIfInBounds location value }
  | none =>
    if t.globals.contains name then some { t with globals := t.globals.set name value } else none

def setField (t : Store) (place : Nat) (name : String) (value : Value) : Store :=
  let change (i : Instance) : Instance := { i with fields := i.fields.set name value }
  { t with instances := t.instances.modify place change }

def field? (t : Store) (place : Nat) (name : String) : Option Value :=
  (t.instances[place]?).bind (·.fields.get? name)

def method? (t : Store) (place : Nat) (name : String) : Option Closure :=
  ((t.instances[place]?).bind (t.classes[·.cls]?)).bind (·.methods.get? name)

def callee? (t : Store) : Value → Option Callee
  | .native place => (t.natives[place]?).map .native
  | .function place => (t.closures[place]?).map .function
  | .cls place => (t.classes[place]?).map (.cls place)
  | _ => none

def className (t : Store) (place : Nat) : String := ((t.classes[place]?).map Class.name).getD ""

def text (t : Store) : Value → String
  | .nil => "nil"
  | .bool true => "true"
  | .bool false => "false"
  | .number n => Numeral.display n
  | .string s => s
  | .native _ => "<native fn>"
  | .function place =>
    "<fn " ++ ((t.closures[place]?).map (·.declaration.name.lexeme)).getD "" ++ ">"
  | .cls place => t.className place
  | .inst place =>
    "<" ++ ((t.instances[place]?).map (t.className ·.cls)).getD "" ++ " instance>"

end Store

abbrev Run := Action Store RunFault

namespace Run

variable {α : Type}

def fault (token : Token) (cause : RunCause) : Run α := Action.fail (.operation token cause)

def declare (scope : Scope) (name : String) (value : Value) : Run Scope := Action.update fun t =>
  (scope.extend name t.cells.size, t.declare scope name value)

def declareAll : List Token → List Value → Scope → Run Scope
  | param :: params, argument :: arguments, scope => do
    declareAll params arguments (← declare scope param.lexeme argument)
  | _, _, scope => return scope

def readName (scope : Scope) (name : Token) : Run Value := do
  match ← Action.view (·.valueOf? scope name.lexeme) with
  | some value => return value
  | none => fault name (.undefinedVariable name.lexeme)

def writeName (scope : Scope) (name : Token) (value : Value) : Run Unit := fun t =>
  match t.assign? scope name.lexeme value with
  | some t => .done () t
  | none => .failed (.operation name (.undefinedVariable name.lexeme)) t

def bind (method : Closure) (place : Nat) : Run Closure := do
  return { method with scope := ← declare method.scope.enter "this" (.inst place) }

def addClosure (c : Closure) : Run Value := Action.update fun t =>
  (.function t.closures.size, { t with closures := t.closures.push c })

def readProperty (place : Nat) (name : Token) : Run Value := do
  match ← Action.view (·.field? place name.lexeme) with
  | some value => return value
  | none =>
    match ← Action.view (·.method? place name.lexeme) with
    | some method => addClosure (← bind method place)
    | none => fault name (.undefinedProperty name.lexeme)

def writeField (place : Nat) (name : String) (value : Value) : Run Unit := Action.change fun t =>
  t.setField place name value

def write (piece : String) : Run Unit := fun t =>
  match t.sink.write piece with
  | .ok sink => .done () { t with sink }
  | .error cause => .failed (.output cause) t

def print (value : Value) : Run Unit := do
  write (← Action.view (·.text value))
  write "\n"

def flush : Run Unit := fun t =>
  match t.sink.flush with
  | .ok () => .done () t
  | .error cause => .failed (.output cause) t

def deeper (body : Run α) : Run α := fun t =>
  Action.ensuring body (fun t => { t with depth := t.depth - 1 }) { t with depth := t.depth + 1 }

def blaming (paren : Token) (body : Run α) : Run α := fun t =>
  match body t with
  | .done value t => .done value t
  | .failed fault t => .failed (fault.blame paren) t
  | .exhausted => .exhausted

def callNative (n : Native) (arguments : List Value) : Run Value := fun t =>
  let call : NativeCall := ⟨arguments, arguments.map t.text, t.readings t.taken⟩
  match n.run call with
  | .ok value => .done value { t with taken := t.taken + 1 }
  | .error text => .failed (.native text) { t with taken := t.taken + 1 }

def collect (eval : Expr → Run Value) : List Expr → Run (List Value)
  | [] => return []
  | expr :: exprs => do
    let value ← eval expr
    return value :: (← collect eval exprs)

def evalOption (eval : Expr → Run Value) : Option Expr → Run Value
  | some expr => eval expr
  | none => return .nil

/-- Runs statements until one of them returns, each in the scope that the ones before it leave. -/
def sequence (exec : Scope → Stmt → Run (Flow × Scope)) : Scope → List Stmt → Run Flow
  | _, [] => return .normal
  | scope, stmt :: stmts => do
    match ← exec scope stmt with
    | (.normal, scope) => sequence exec scope stmts
    | (flow, _) => return flow

def callClosure (exec : Scope → Stmt → Run (Flow × Scope)) (c : Closure)
    (arguments : List Value) : Run Value := do
  let scope ← declareAll c.declaration.params arguments c.scope.enter
  let flow ← sequence exec scope c.declaration.body
  if c.isInitializer then
    Action.view fun t => (t.valueOf? c.scope "this").getD .nil
  else
    match flow with
    | .returned value => return value
    | .normal => return .nil

def construct (exec : Scope → Stmt → Run (Flow × Scope)) (place : Nat) (c : Class)
    (arguments : List Value) : Run Value := do
  let new ← Action.update fun t =>
    (t.instances.size, { t with instances := t.instances.push ⟨place, ∅⟩ })
  match c.initializer? with
  | some method =>
    let bound ← bind method new
    let _ ← callClosure exec bound arguments
    return .inst new
  | none => return .inst new

def call (exec : Scope → Stmt → Run (Flow × Scope)) (callee : Callee) (arguments : List Value) :
    Run Value :=
  match callee with
  | .native n => callNative n arguments
  | .function c => callClosure exec c arguments
  | .cls place c => construct exec place c arguments

def invoke (exec : Scope → Stmt → Run (Flow × Scope)) (value : Value) (paren : Token)
    (arguments : List Value) : Run Value := do
  let depth ← Action.view Store.depth
  match ← Action.view (·.callee? value) with
  | none => fault paren .notCallable
  | some callee =>
    if arguments.length ≠ callee.arity then
      fault paren (.wrongArity callee.arity arguments.length)
    else if maxDepth ≤ depth then fault paren .stackOverflow
    else blaming paren (deeper (call exec callee arguments))

/-- Declares a function, which sees its own name. -/
def declareFunction (scope : Scope) (declaration : FunctionDecl) : Run Scope :=
  Action.update fun t =>
    let name := declaration.name.lexeme
    let inner := scope.extend name t.cells.size
    let value := .function t.closures.size
    (inner,
      { t with closures := t.closures.push ⟨declaration, inner, false⟩ }.declare scope name value)

def methodTable (scope : Scope) : List FunctionDecl → Table Closure → Table Closure
  | [], table => table
  | method :: methods, table =>
    let name := method.name.lexeme
    methodTable scope methods (table.set name ⟨method, scope, name = "init"⟩)

/-- Declares a class; its methods see its name. -/
def declareClass (scope : Scope) (name : Token) (methods : List FunctionDecl) : Run Scope := do
  let scope ← declare scope name.lexeme .nil
  let value ← Action.update fun t =>
    (.cls t.classes.size,
      { t with classes := t.classes.push ⟨name.lexeme, methodTable scope methods ∅⟩ })
  writeName scope name value
  return scope

/-- Evaluates an expression in a scope. -/
def evalWith (eval : Scope → Expr → Run Value) (exec : Scope → Stmt → Run (Flow × Scope))
    (scope : Scope) : Expr → Run Value
  | .literal _ value => return LoxLang.Run.literal value
  | .grouping _ inner => eval scope inner
  | .unary _ operator right => do
    let right ← eval scope right
    Action.ofExcept (right.unary operator)
  | .binary _ left operator right => do
    let left ← eval scope left
    let right ← eval scope right
    Action.ofExcept (left.binary operator right)
  | .logical _ left operator right => do
    let left ← eval scope left
    if left.isTruthy = decide (operator.kind = .orKw) then return left
    else eval scope right
  | .var _ name => readName scope name
  | .this _ keyword => readName scope keyword
  | .assign _ name value => do
    let value ← eval scope value
    writeName scope name value
    return value
  | .call _ callee paren arguments => do
    let callee ← eval scope callee
    let arguments ← collect (eval scope) arguments
    invoke exec callee paren arguments
  | .get _ object name => do
    match ← eval scope object with
    | .inst place => readProperty place name
    | _ => fault name .propertyOfNonInstance
  | .set _ object name value => do
    match ← eval scope object with
    | .inst place =>
      let value ← eval scope value
      writeField place name.lexeme value
      return value
    | _ => fault name .fieldOfNonInstance

/-- Executes a statement in a scope, and yields the scope of what follows it. Only declarations
change that scope. -/
def execWith (eval : Scope → Expr → Run Value) (exec : Scope → Stmt → Run (Flow × Scope))
    (scope : Scope) : Stmt → Run (Flow × Scope)
  | .expression expr => do
    let _ ← eval scope expr
    return (.normal, scope)
  | .print expr => do
    print (← eval scope expr)
    return (.normal, scope)
  | .varDecl name initializer => do
    let value ← evalOption (eval scope) initializer
    return (.normal, ← declare scope name.lexeme value)
  | .block body => do
    return (← sequence exec scope.enter body, scope)
  | .ifThen condition thenBranch => do
    if (← eval scope condition).isTruthy then return ((← exec scope thenBranch).1, scope)
    else return (.normal, scope)
  | .ifElse condition thenBranch elseBranch => do
    if (← eval scope condition).isTruthy then return ((← exec scope thenBranch).1, scope)
    else return ((← exec scope elseBranch).1, scope)
  | .whileLoop condition body => do
    if (← eval scope condition).isTruthy then
      match ← exec scope body with
      | (.normal, _) => exec scope (.whileLoop condition body)
      | (flow, _) => return (flow, scope)
    else return (.normal, scope)
  | .funDecl declaration => do
    return (.normal, ← declareFunction scope declaration)
  | .returnStmt _ value => do
    return (.returned (← evalOption (eval scope) value), scope)
  | .classDecl name methods => do
    return (.normal, ← declareClass scope name methods)

mutual

def eval : (fuel : Nat) → Scope → Expr → Run Value
  | 0, _, _ => Action.exhausted
  | fuel + 1, scope, expr => evalWith (eval fuel) (exec fuel) scope expr

def exec : (fuel : Nat) → Scope → Stmt → Run (Flow × Scope)
  | 0, _, _ => Action.exhausted
  | fuel + 1, scope, stmt => execWith (eval fuel) (exec fuel) scope stmt

end

def program (fuel : Nat) : List Stmt → Run Unit
  | [] => flush
  | stmt :: stmts => do
    let _ ← exec fuel .global stmt
    program fuel stmts

end Run

structure Session where
  store : Store
  nextId : Nat

namespace Session

def start (sink : Sink) (readings : Nat → Float) : Session := ⟨.initial sink readings, 0⟩

/-- Runs a source with persistent scopes. What is wrong with a source that is not executed is found
as in every session; the distances that are found on the way are not used. -/
def run (fuel : Nat) (source : String) (s : Session) : Option (Report × Session) :=
  let items := scan source
  let parsed := Program.ofTokens (scannedTokens items) s.nextId
  match sourceFaults items parsed with
  | [] =>
    match (resolve parsed.statements ∅).2 with
    | [] =>
      match Run.program fuel parsed.statements s.store with
      | .done () store => some (.clean, ⟨store, parsed.nextId⟩)
      | .failed fault store => some (⟨[], some fault⟩, ⟨store, parsed.nextId⟩)
      | .exhausted => none
    | faults => some (⟨faults.map .scope, none⟩, ⟨s.store, parsed.nextId⟩)
  | faults => some (⟨faults, none⟩, ⟨s.store, parsed.nextId⟩)

def drain (s : Session) : String × Session :=
  let (text, sink) := s.store.sink.drain
  (text, { s with store := { s.store with sink } })

/-- The outcomes of runs one after the other, each with the text that it printed; a run that needs
more fuel ends the list. -/
def transcript (s : Session) : List (Nat × String) → List (Option (Report × String))
  | [] => []
  | (fuel, source) :: runs =>
    match s.run fuel source with
    | none => [none]
    | some (report, s) => some (report, s.drain.1) :: s.drain.2.transcript runs

end Session
end Lexical

/-- The outcomes of runs one after the other, each with the text that it printed; a run that needs
more fuel ends the list. -/
def Session.transcript (s : Session) : List (Nat × String) → List (Option (Report × String))
  | [] => []
  | (fuel, source) :: runs =>
    match s.run fuel source with
    | none => [none]
    | some (report, s) => some (report, s.drain.1) :: s.drain.2.transcript runs

end LoxLang
