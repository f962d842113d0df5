import LoxLang.CommandLine.Respond
import Std.Time.DateTime.Timestamp

/-!
# The program

Reads the file that a command names, writes what the command prints, and talks at the prompt.
-/
namespace LoxLang
namespace Shell

/-- More steps than any run takes. -/
def fuel : Nat := Nat.pow 2 62

def readFile (file : String) : IO (Except CommandLine.FileProblem (List UInt8)) := do
  try
    return .ok (← IO.FS.readBinFile file).toList
  catch e =>
    match e with
    | .noFileOrDirectory .. => return .error .missing
    | .permissionDenied .. => return .error .denied
    | .inappropriateType _ code _ => return .error (if code = 21 then .directory else .notDirectory)
    | .invalidArgument _ code _ =>
      return .error (if code = 36 || code = 0 - 36 then .tooLong else .other (toString e))
    | e => return .error (.other (toString e))

/-- Seconds since the start of the epoch when the program started, and a microsecond more for each
look at the clock. -/
def readings : IO (Nat → Float) := do
  let now := (← Std.Time.Timestamp.now).toNanosecondsSinceUnixEpoch.val
  return fun k => Numeral.ofInt now / 1000000000 + k.toFloat / 1000000

def finish (c : CommandLine.Conclusion) : IO UInt32 := do
  (← IO.getStdout).putStr c.stdout
  (← IO.getStderr).putStr c.stderr
  return c.exit.toUInt32

/-- The bytes of the input up to the end of a line, newest first after those in `taken`. -/
partial def readLine (input : IO.FS.Stream) (taken : List UInt8) : IO (List UInt8) := do
  match (← input.read 1).toList with
  | [] => return taken
  | bytes => if bytes = [10] then return 10 :: taken else readLine input (bytes ++ taken)

/-- Answers lines until the input ends. -/
partial def prompt (s : Session) : IO UInt32 := do
  (← IO.getStdout).putStr CommandLine.Prompt.mark
  (← IO.getStdout).flush
  let line ← readLine (← IO.getStdin) []
  if line.isEmpty then return 0
  match CommandLine.Prompt.answer fuel ((Text.byteLines line.reverse).headD []) s with
  | none => return 1
  | some (.error trouble) =>
    (← IO.getStderr).putStr trouble.message
    return 1
  | some (.ok (text, messages, s)) =>
    (← IO.getStdout).putStr text
    (← IO.getStderr).putStr messages
    prompt s

def perform (command : CommandLine.Command) : IO UInt32 := do
  let readings ← readings
  let file ← match command with
    | .tokenize file | .parse file _ | .run (some file) => readFile file
    | .run none => pure (.error .missing)
  if command = .run none then prompt (Session.start .unlimited readings)
  else
    match CommandLine.perform fuel ⟨fun _ => file, [], readings⟩ command with
    | some conclusion => finish conclusion
    | none => return 1

end Shell
end LoxLang

def main (arguments : List String) : IO UInt32 := do
  match LoxLang.CommandLine.read arguments false with
  | .error stop => LoxLang.Shell.finish stop.conclusion
  | .ok (command, log) =>
    if log then IO.FS.writeFile "app.log" ""
    LoxLang.Shell.perform command
