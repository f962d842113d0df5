import LoxLang.Token

/-!
# Faults

Everything that can go wrong, as a cause together with the place where it went wrong. The wording
of a cause is fixed here and nowhere else. A fault found before a program runs is a `StaticFault`;
what stops a running program is a `RunFault`. Every family of causes has a case `other` for a report
in a host's own words.
-/
namespace LoxLang

inductive LexicalCause
  | unexpected (text : String)
  | unterminated
  | other (text : String)
deriving DecidableEq

def LexicalCause.message : LexicalCause → String
  | unexpected text => "Unexpected character: " ++ text
  | unterminated => "Unterminated string."
  | other text => text

structure LexicalFault where
  line : Nat
  cause : LexicalCause
deriving DecidableEq

/-- The two declarations that have parameters and a body. -/
inductive Routine
  | function
  | method
deriving DecidableEq

def Routine.word : Routine → String
  | function => "function"
  | method => "method"

/-- What the grammar asks for at some point of a program. -/
inductive Wanted
  | className
  | classOpen
  | classClose
  | routineName (r : Routine)
  | parametersOpen (r : Routine)
  | parameterName
  | parametersClose
  | bodyOpen (r : Routine)
  | variableName
  | variableEnd
  | forOpen
  | forCondition
  | forClose
  | ifOpen
  | ifClose
  | whileOpen
  | whileClose
  | returnEnd
  | printEnd
  | expressionEnd
  | blockClose
  | propertyName
  | argumentsClose
  | groupClose
  | expression
deriving DecidableEq

def Wanted.phrase : Wanted → String
  | className => "class name"
  | classOpen => "'\x7b' before class body"
  | classClose => "'\x7d' after class body"
  | routineName r => r.word ++ " name"
  | parametersOpen r => "'(' after " ++ r.word ++ " name"
  | parameterName => "parameter name"
  | parametersClose => "')' after parameters"
  | bodyOpen r => "'\x7b' before " ++ r.word ++ " body"
  | variableName => "variable name"
  | variableEnd => "';' after variable declaration"
  | forOpen => "'(' after 'for'"
  | forCondition => "';' after loop condition"
  | forClose => "')' after for clauses"
  | ifOpen => "'(' after 'if'"
  | ifClose => "')' after if condition"
  | whileOpen => "'(' after 'while'"
  | whileClose => "')' after condition"
  | returnEnd => "';' after return value"
  | printEnd => "';' after value"
  | expressionEnd => "';' after expression"
  | blockClose => "'\x7d' after block"
  | propertyName => "property name after '.'"
  | argumentsClose => "')' after arguments"
  | groupClose => "')' after expression"
  | expression => "expression"

inductive GrammarCause
  | expect (wanted : Wanted)
  | tooManyParameters
  | tooManyArguments
  | invalidTarget
  | other (text : String)
deriving DecidableEq

def GrammarCause.message : GrammarCause → String
  | expect wanted => "Expect " ++ wanted.phrase ++ "."
  | tooManyParameters => "Can't have more than 255 parameters."
  | tooManyArguments => "Can't have more than 255 arguments."
  | invalidTarget => "Invalid assignment target."
  | other text => text

structure GrammarFault where
  token : Token
  cause : GrammarCause
deriving DecidableEq

inductive ScopeCause
  | ownInitializer
  | redeclared
  | topLevelReturn
  | thisOutsideClass
  | other (text : String)
deriving DecidableEq

def ScopeCause.message : ScopeCause → String
  | ownInitializer => "Can't read local variable in its own initializer."
  | redeclared => "Already a variable with this name in this scope."
  | topLevelReturn => "Can't return from top-level code."
  | thisOutsideClass => "Can't use 'this' outside of a class."
  | other text => text

structure ScopeFault where
  token : Token
  cause : ScopeCause
deriving DecidableEq

/-- A fault found without running the program. -/
inductive StaticFault
  | lexical (fault : LexicalFault)
  | grammar (fault : GrammarFault)
  | scope (fault : ScopeFault)
deriving DecidableEq

namespace StaticFault

def line : StaticFault → Nat
  | lexical f => f.line
  | grammar f => f.token.line
  | scope f => f.token.line

/-- The part of a report between `Error` and the colon. -/
def place : StaticFault → String
  | lexical _ => ""
  | grammar f => f.token.place
  | scope f => f.token.place

def causeMessage : StaticFault → String
  | lexical f => f.cause.message
  | grammar f => f.cause.message
  | scope f => f.cause.message

def message (f : StaticFault) : String :=
  "[line " ++ toString f.line ++ "] Error" ++ f.place ++ ": " ++ f.causeMessage

end StaticFault

inductive RunCause
  | operandNotNumber
  | operandsNotNumbers
  | operandsNotAddable
  | undefinedVariable (name : String)
  | undefinedProperty (name : String)
  | notCallable
  | wrongArity (expected got : Nat)
  | propertyOfNonInstance
  | fieldOfNonInstance
  | stackOverflow
  | invalidUnary
  | invalidBinary
  | other (text : String)
deriving DecidableEq

def RunCause.message : RunCause → String
  | operandNotNumber => "Operand must be a number."
  | operandsNotNumbers => "Operands must be numbers."
  | operandsNotAddable => "Operands must be two numbers or two strings."
  | undefinedVariable name => "Undefined variable '" ++ name ++ "'."
  | undefinedProperty name => "Undefined property '" ++ name ++ "'."
  | notCallable => "Can only call functions and classes."
  | wrongArity expected got =>
    "Expected " ++ toString expected ++ " arguments but got " ++ toString got ++ "."
  | propertyOfNonInstance => "Only instances have properties."
  | fieldOfNonInstance => "Only instances have fields."
  | stackOverflow => "Stack overflow."
  | invalidUnary => "Invalid unary operator."
  | invalidBinary => "Invalid binary operator."
  | other text => text

inductive OutputCause
  | closed
  | flushFailed
  | other (text : String)
deriving DecidableEq

def OutputCause.message : OutputCause → String
  | closed => "sink closed"
  | flushFailed => "flush failed"
  | other text => text

/-- What stops a running program: an operation at some token, a native function that failed and has
not been blamed on a call yet, or the output. -/
inductive RunFault
  | operation (token : Token) (cause : RunCause)
  | native (text : String)
  | output (cause : OutputCause)
deriving DecidableEq

namespace RunFault

def line? : RunFault → Option Nat
  | operation token _ => some token.line
  | native _ => none
  | output _ => none

def message : RunFault → String
  | operation token cause => cause.message ++ "\n[line " ++ toString token.line ++ "]"
  | native text => text
  | output cause => cause.message

/-- A failure of a native function is blamed on the call that ran it. -/
def blame (paren : Token) : RunFault → RunFault
  | native text => operation paren (.other text)
  | fault => fault

end RunFault
end LoxLang
