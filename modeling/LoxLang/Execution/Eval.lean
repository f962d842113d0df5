import LoxLang.Execution.Machine
import LoxLang.Execution.Operators

/-!
# Running programs

`eval` and `exec` run expressions and statements. Everything that happens between them, from a list
of statements to a call and to one step of either, is a definition of its own over the functions
that run a single statement or expression, so that facts about it do not depend on how these
functions are defined. Fuel bounds the depth of the recursion and the number of rounds of a loop; a
program that ends needs only so much.
-/
namespace LoxLang
namespace Run

/-- Evaluates expressions from left to right. -/
@[specialize]
def collect (eval : Expr → Run Value) : List Expr → Run (List Value)
  | [] => return []
  | expr :: exprs => do
    let value ← eval expr
    return value :: (← collect eval exprs)

@[always_inline, inline]
def evalOption (eval : Expr → Run Value) : Option Expr → Run Value
  | some expr => eval expr
  | none => return .nil

/-- Runs statements until one of them returns. -/
@[specialize]
def sequence (exec : Stmt → Run Flow) : List Stmt → Run Flow
  | [] => return .normal
  | stmt :: stmts => do
    match ← exec stmt with
    | .normal => sequence exec stmts
    | flow => return flow

def block (exec : Stmt → Run Flow) (body : List Stmt) (frame : Nat) : Run Flow :=
  inFrame frame (sequence exec body)

/-- The variables of a call; arguments without parameter are dropped. -/
def bindAll : List Token → List Value → Table Value → Table Value
  | param :: params, argument :: arguments, vars =>
    bindAll params arguments (vars.set param.lexeme argument)
  | _, _, vars => vars

/-- Calls a function in a new frame inside the one it was declared in. -/
def callClosure (exec : Stmt → Run Flow) (c : Closure) (arguments : List Value) : Run Value := do
  let vars := bindAll c.declaration.params arguments ∅
  let frame ← onHeap (·.addFrame (some c.frame) vars)
  let flow ← block exec c.declaration.body frame
  if c.isInitializer then
    Action.view fun m => (m.heap.frames.getHere? c.frame "this").getD .nil
  else
    match flow with
    | .returned value => return value
    | .normal => return .nil

/-- Makes an instance and runs the initializer on it, if there is one. -/
def construct (exec : Stmt → Run Flow) (place : Nat) (c : Class) (arguments : List Value) :
    Run Value := do
  let new ← onHeap (·.addInstance place)
  match c.initializer? with
  | some method =>
    let bound ← onHeap (·.bind method new)
    let _ ← callClosure exec bound arguments
    return .inst new
  | none => return .inst new

/-- Calls what can be called, without regard to the number of arguments or the depth of calls. -/
def call (exec : Stmt → Run Flow) (callee : Callee) (arguments : List Value) : Run Value :=
  match callee with
  | .native n => callNative n arguments
  | .function c => callClosure exec c arguments
  | .cls place c => construct exec place c arguments

/-- A call expression, after its callee and its arguments have been evaluated. -/
def invoke (exec : Stmt → Run Flow) (value : Value) (paren : Token) (arguments : List Value) :
    Run Value := do
  let depth ← Action.view Machine.depth
  match ← Action.view (·.heap.callee? value) with
  | none => fault paren .notCallable
  | some callee =>
    if arguments.length ≠ callee.arity then
      fault paren (.wrongArity callee.arity arguments.length)
    else if maxDepth ≤ depth then fault paren .stackOverflow
    else blaming paren (deeper (call exec callee arguments))

/-- What a call comes to, by what is called, how many arguments there are and how deep it is. -/
theorem invoke_apply (exec : Stmt → Run Flow) (value : Value) (paren : Token)
    (arguments : List Value) (m : Machine) :
    invoke exec value paren arguments m =
      match m.heap.callee? value with
      | none => .failed (.operation paren .notCallable) m
      | some callee =>
        if arguments.length ≠ callee.arity then
          .failed (.operation paren (.wrongArity callee.arity arguments.length)) m
        else if maxDepth ≤ m.depth then .failed (.operation paren .stackOverflow) m
        else blaming paren (deeper (call exec callee arguments)) m := by
  simp only [invoke, Action.bind_apply, Action.view]
  cases m.heap.callee? value with
  | none => rfl
  | some callee =>
    dsimp only
    by_cases harity : arguments.length ≠ callee.arity
    · rw [if_pos harity, if_pos harity]
      rfl
    · rw [if_neg harity, if_neg harity]
      by_cases hdepth : maxDepth ≤ m.depth
      · rw [if_pos hdepth, if_pos hdepth]
        rfl
      · rw [if_neg hdepth, if_neg hdepth]

def literal : Literal → Value
  | .number n => .number n
  | .string s => .string s
  | .bool b => .bool b
  | .nil => .nil

def declareFunction (declaration : FunctionDecl) : Run Unit := do
  let frame ← Action.view Machine.current
  let value ← onHeap (·.addClosure ⟨declaration, frame, false⟩)
  define declaration.name.lexeme value

/-- The methods of a class; of two with the same name the later one counts. -/
def methodTable (frame : Nat) : List FunctionDecl → Table Closure → Table Closure
  | [], table => table
  | method :: methods, table =>
    let name := method.name.lexeme
    methodTable frame methods (table.set name ⟨method, frame, name = "init"⟩)

/-- Declares a class in the current frame; its methods can refer to it by name. -/
def declareClass (name : Token) (methods : List FunctionDecl) : Run Unit := do
  define name.lexeme .nil
  let frame ← Action.view Machine.current
  let value ← onHeap (·.addClass ⟨name.lexeme, methodTable frame methods ∅⟩)
  assignAlong name value

/-- Evaluates an expression: its parts with `eval`, and the bodies of calls with `exec`. -/
@[always_inline, inline]
def evalWith (eval : Expr → Run Value) (exec : Stmt → Run Flow) : Expr → Run Value
  | .literal _ value => return literal value
  | .grouping _ inner => eval inner
  | .unary _ operator right => do
    let right ← eval right
    Action.ofExcept (right.unary operator)
  | .binary _ left operator right => do
    let left ← eval left
    let right ← eval right
    Action.ofExcept (left.binary operator right)
  | .logical _ left operator right => do
    let left ← eval left
    if left.isTruthy = decide (operator.kind = .orKw) then return left
    else eval right
  | .var id name => readName id name
  | .this id keyword => readName id keyword
  | .assign id name value => do
    let value ← eval value
    writeName id name value
    return value
  | .call _ callee paren arguments => do
    let callee ← eval callee
    let arguments ← collect eval arguments
    invoke exec callee paren arguments
  | .get _ object name => do
    match ← eval object with
    | .inst place => readProperty place name
    | _ => fault name .propertyOfNonInstance
  | .set _ object name value => do
    match ← eval object with
    | .inst place =>
      let value ← eval value
      writeField place name.lexeme value
      return value
    | _ => fault name .fieldOfNonInstance

/-- Executes a statement: its expressions with `eval`, and the statements in it with `exec`. A loop
goes on as a statement of its own. -/
@[always_inline, inline]
def execWith (eval : Expr → Run Value) (exec : Stmt → Run Flow) : Stmt → Run Flow
  | .expression expr => do
    let _ ← eval expr
    return .normal
  | .print expr => do
    print (← eval expr)
    return .normal
  | .varDecl name initializer => do
    let value ← evalOption eval initializer
    define name.lexeme value
    return .normal
  | .block body => do
    let frame ← Action.update fun m =>
      let (frame, heap) := m.heap.addFrame (some m.current) ∅
      (frame, { m with heap })
    block exec body frame
  | .ifThen condition thenBranch => do
    if (← eval condition).isTruthy then exec thenBranch
    else return .normal
  | .ifElse condition thenBranch elseBranch => do
    if (← eval condition).isTruthy then exec thenBranch
    else exec elseBranch
  | .whileLoop condition body => do
    if (← eval condition).isTruthy then
      match ← exec body with
      | .normal => exec (.whileLoop condition body)
      | flow => return flow
    else return .normal
  | .funDecl declaration => do
    declareFunction declaration
    return .normal
  | .returnStmt _ value => do
    return .returned (← evalOption eval value)
  | .classDecl name methods => do
    declareClass name methods
    return .normal

mutual

def eval : (fuel : Nat) → Expr → Run Value
  | 0, _ => Action.exhausted
  | fuel + 1, expr => evalWith (eval fuel) (exec fuel) expr

def exec : (fuel : Nat) → Stmt → Run Flow
  | 0, _ => Action.exhausted
  | fuel + 1, stmt => execWith (eval fuel) (exec fuel) stmt

end

/-- Executes the statements of a program; a `return` ends only the statement that holds it. -/
@[specialize]
def programWith (exec : Stmt → Run Flow) : List Stmt → Run Unit
  | [] => flush
  | stmt :: stmts => do
    let _ ← exec stmt
    programWith exec stmts

def program (fuel : Nat) (stmts : List Stmt) : Run Unit := programWith (exec fuel) stmts

end Run
end LoxLang
