import LoxLang.CommandLine.Arguments
import LoxLang.CommandLine.FileTree
import LoxLang.Session
import LoxLang.Text.Utf8
import LoxLang.Tree.Document
import LoxLang.Tree.Outline

/-!
# Commands

What the commands print and how they end, given the files and the input around them. The exit
status is 65 after a fault in a source, 70 after a fault in its run, 2 after a wrong command line
and 1 if a file or the input cannot be read. The prompt goes on after faults and always ends well.
-/
namespace LoxLang
namespace CommandLine

/-- What a command finds around it. -/
structure World where
  file : String → Except FileProblem (List UInt8)
  input : List UInt8
  readings : Nat → Float

/-- What keeps a command from its work. -/
inductive Trouble
  | noFile (file : String) (problem : FileProblem)
  | noText (file : String) (fault : Text.Utf8Fault)
  | noInput

namespace Trouble

/-- What was tried. A directory can be opened and not be read. -/
def context : Trouble → String
  | noFile file .directory => "Failed to read file " ++ Text.quoted file
  | noFile file _ => "Failed to open file " ++ Text.quoted file
  | noText file _ => Text.quoted file ++ " is not valid UTF-8"
  | noInput => "Failed to read from stdin"

def cause : Trouble → String
  | noFile _ problem => problem.message
  | noText _ fault => fault.message
  | noInput => "stream did not contain valid UTF-8"

def message (t : Trouble) : String :=
  "Error: " ++ t.context ++ "\n\nCaused by:\n    " ++ t.cause ++ "\n"

end Trouble

/-- How a command ended. -/
structure Conclusion where
  stdout : String
  stderr : String
  exit : Nat
deriving DecidableEq

def lines (rows : List String) : String := String.join (rows.map (· ++ "\n"))

def status (r : Report) : Nat :=
  if !r.faults.isEmpty then 65 else if r.halt.isSome then 70 else 0

def fileText (w : World) (file : String) : Except Trouble String :=
  match w.file file with
  | .error problem => .error (.noFile file problem)
  | .ok bytes => (Text.decode bytes).mapError (.noText file)

def tokenize (source : String) : Conclusion :=
  let items := scan source
  let report : Report := ⟨(scannedFaults items).map .lexical, none⟩
  ⟨lines ((scannedTokens items).map Token.row), lines report.messages, status report⟩

def parse (json : Bool) (source : String) : Conclusion :=
  let items := scan source
  let parsed := Program.ofTokens (scannedTokens items) 0
  let report : Report := ⟨sourceFaults items parsed, none⟩
  let rows := if json then [programText parsed.statements] else parsed.statements.map Stmt.outline
  ⟨lines rows, lines report.messages, status report⟩

/-- Runs a source in a session of its own. -/
def runSource (fuel : Nat) (readings : Nat → Float) (source : String) : Option Conclusion := do
  let (report, s) ← (Session.start .unlimited readings).run fuel source
  return ⟨s.drain.1, lines report.messages, status report⟩

namespace Prompt

/-- Text that asks for a line. -/
def mark : String := "> "

/-- What a line at the prompt leads to: its output and messages and the session after it, or
trouble. -/
def answer (fuel : Nat) (line : List UInt8) (s : Session) :
    Option (Except Trouble (String × String × Session)) :=
  match Text.decode line with
  | .error _ => some (.error .noInput)
  | .ok source => do
    let (report, s) ← s.run fuel source
    let (text, s) := s.drain
    return .ok (text, lines report.messages, s)

/-- Answers line after line; `stdout` and `stderr` hold what has been written before. -/
def converse (fuel : Nat) (stdout stderr : String) :
    List (List UInt8) → Session → Option Conclusion
  | [], _ => some ⟨stdout ++ mark, stderr, 0⟩
  | line :: rest, s => do
    match ← answer fuel line s with
    | .error trouble => return ⟨stdout ++ mark, stderr ++ trouble.message, 1⟩
    | .ok (text, messages, s) => converse fuel (stdout ++ mark ++ text) (stderr ++ messages) rest s

end Prompt

def withFile (w : World) (file : String) (f : String → Option Conclusion) : Option Conclusion :=
  match fileText w file with
  | .ok source => f source
  | .error trouble => some ⟨"", trouble.message, 1⟩

def perform (fuel : Nat) (w : World) : Command → Option Conclusion
  | .tokenize file => withFile w file fun source => some (tokenize source)
  | .parse file json => withFile w file fun source => some (parse json source)
  | .run (some file) => withFile w file (runSource fuel w.readings)
  | .run none =>
    Prompt.converse fuel "" "" (Text.byteLines w.input) (Session.start .unlimited w.readings)

def versionText : String := "rox 0.1.0\n"

def helpText : String :=
  lines ["Lox language interpreter", "", "Usage: rox [--log] <COMMAND>", "", "Commands:",
    "  tokenize FILE       lists the tokens of a file",
    "  parse FILE [--json] shows the tree of a file",
    "  run [FILE]          runs a file, or a prompt without one"]

def Stop.conclusion : Stop → Conclusion
  | .version => ⟨versionText, "", 0⟩
  | .help => ⟨helpText, "", 0⟩
  | .usage fault => ⟨"", "error: " ++ fault.message ++ "\n\n" ++ helpText, 2⟩

/-- The response to a command line, and whether a log is kept; `none` if the fuel does not
suffice. -/
def respond (fuel : Nat) (w : World) (arguments : List String) : Option (Conclusion × Bool) :=
  match read arguments false with
  | .error stop => some (stop.conclusion, false)
  | .ok (command, log) => do return (← perform fuel w command, log)

end CommandLine
end LoxLang
