/-!
# Command lines

    [--log] tokenize FILE
    [--log] parse FILE [--json]
    [--log] run [FILE]
    [--log] help [COMMAND]
    --version

Options of a command may stand before and after its file, and `--log` also before the command.
Behind `--` nothing is an option. Each option may be given once in each of its two places.
-/
namespace LoxLang
namespace CommandLine

inductive Command
  | tokenize (file : String)
  | parse (file : String) (json : Bool)
  | run (file : Option String)
deriving DecidableEq

inductive UsageFault
  | unexpected (argument : String)
  | repeated (flag : String)
  | missingCommand
  | missingFile
  | emptyFile
deriving DecidableEq

def UsageFault.message : UsageFault → String
  | unexpected argument => "unexpected argument '" ++ argument ++ "' found"
  | repeated flag => "the argument '" ++ flag ++ "' cannot be used multiple times"
  | missingCommand => "a command is required: tokenize, parse or run"
  | missingFile => "a file is required"
  | emptyFile => "the name of the file is empty"

inductive Stop
  | usage (fault : UsageFault)
  | version
  | help
deriving DecidableEq

inductive Verb
  | tokenize
  | parse
  | run
deriving DecidableEq

def verb? : String → Option Verb
  | "tokenize" => some .tokenize
  | "parse" => some .parse
  | "run" => some .run
  | _ => none

/-- What stands behind the name of a command. -/
structure Options where
  file : Option String
  json : Bool
  log : Bool
deriving DecidableEq

namespace Options

def none : Options := ⟨.none, false, false⟩

def withFile (o : Options) (argument : String) : Except Stop Options :=
  if o.file.isSome then .error (.usage (.unexpected argument))
  else if argument.isEmpty then .error (.usage .emptyFile)
  else .ok { o with file := some argument }

def withLog (o : Options) : Except Stop Options :=
  if o.log then .error (.usage (.repeated "--log")) else .ok { o with log := true }

def withJson (o : Options) (verb : Verb) : Except Stop Options :=
  if verb ≠ .parse then .error (.usage (.unexpected "--json"))
  else if o.json then .error (.usage (.repeated "--json"))
  else .ok { o with json := true }

/-- One more argument of a command, before any `--`. -/
def withArgument (o : Options) (verb : Verb) (argument : String) : Except Stop Options :=
  match argument.toList with
  | ['-'] => o.withFile argument
  | '-' :: 'h' :: _ => .error .help
  | '-' :: _ =>
    match argument with
    | "--log" => o.withLog
    | "--json" => o.withJson verb
    | "--help" => .error .help
    | _ => .error (.usage (.unexpected argument))
  | _ => o.withFile argument

def read (verb : Verb) : List String → Options → Except Stop Options
  | [], o => .ok o
  | "--" :: files, o => files.foldlM withFile o
  | argument :: arguments, o => do read verb arguments (← o.withArgument verb argument)

def command (o : Options) : Verb → Except Stop Command
  | .tokenize =>
    match o.file with
    | some file => .ok (.tokenize file)
    | .none => .error (.usage .missingFile)
  | .parse =>
    match o.file with
    | some file => .ok (.parse file o.json)
    | .none => .error (.usage .missingFile)
  | .run => .ok (.run o.file)

end Options

/-- What follows `help`: nothing, or one command to tell about. Options have no meaning there. -/
def helpOn : List String → Stop
  | [] => .help
  | topic :: more =>
    if (verb? topic).isNone && topic ≠ "help" then .usage (.unexpected topic)
    else
      match more with
      | [] => .help
      | argument :: _ => .usage (.unexpected argument)

/-- The command of a command line, and whether it is logged. -/
def read : List String → (log : Bool) → Except Stop (Command × Bool)
  | [], _ => .error (.usage .missingCommand)
  | argument :: arguments, log =>
    match verb? argument with
    | some verb => do
      let options ← Options.read verb arguments .none
      return (← options.command verb, log || options.log)
    | none =>
      match argument.toList with
      | '-' :: 'V' :: _ => .error .version
      | '-' :: 'h' :: _ => .error .help
      | _ =>
        match argument with
        | "--log" => if log then .error (.usage (.repeated "--log")) else read arguments true
        | "--version" => .error .version
        | "--help" => .error .help
        | "help" => .error (helpOn arguments)
        | _ => .error (.usage (.unexpected argument))

end CommandLine
end LoxLang
