import LoxLang.Binding.Resolve
import LoxLang.Execution.Eval
import LoxLang.Grammar.Statement
import LoxLang.Source.Scan

/-!
# Sessions

A session runs one source after the other on one machine: globals of one run are there for the next.
Identities go on from run to run, since functions of earlier runs keep their trees. A source is
executed only if nothing is wrong with it; whatever happens, the session can go on.
-/
namespace LoxLang

structure Session where
  machine : Machine
  /-- The first identity that is not in use. -/
  nextId : Nat

/-- What is wrong with a source, or what stopped its run. -/
structure Report where
  faults : List StaticFault
  halt : Option RunFault

namespace Report

def clean : Report := ⟨[], none⟩

def messages (r : Report) : List String :=
  r.faults.map StaticFault.message ++ (r.halt.map RunFault.message).toList

end Report

/-- Lexical faults first, then those of the grammar. -/
def sourceFaults (items : List ScanItem) (parsed : Program) : List StaticFault :=
  (scannedFaults items).map .lexical ++ parsed.faults.map .grammar

namespace Session

def start (sink : Sink) (readings : Nat → Float) : Session := ⟨Machine.initial sink readings, 0⟩

/-- Reads a source into statements. Identities are used up even if there are faults. -/
def read (source : String) (s : Session) : Except (List StaticFault) (List Stmt) × Session :=
  let items := scan source
  let parsed := Program.ofTokens (scannedTokens items) s.nextId
  let s := { s with nextId := parsed.nextId }
  match sourceFaults items parsed with
  | [] => (.ok parsed.statements, s)
  | faults => (.error faults, s)

def bind (statements : List Stmt) (s : Session) :
    Except (List StaticFault) (List Stmt) × Session :=
  let (distances, faults) := resolve statements s.machine.distances
  let s := { s with machine := { s.machine with distances } }
  match faults with
  | [] => (.ok statements, s)
  | faults => (.error (faults.map .scope), s)

def load (source : String) (s : Session) : Except (List StaticFault) (List Stmt) × Session :=
  match s.read source with
  | (.ok statements, s) => s.bind statements
  | (.error faults, s) => (.error faults, s)

/-- Runs a source; `none` if the fuel does not suffice. -/
def run (fuel : Nat) (source : String) (s : Session) : Option (Report × Session) :=
  match s.load source with
  | (.error faults, s) => some (⟨faults, none⟩, s)
  | (.ok statements, ⟨machine, nextId⟩) =>
    match Run.program fuel statements machine with
    | .done () machine => some (.clean, ⟨machine, nextId⟩)
    | .failed fault machine => some (⟨[], some fault⟩, ⟨machine, nextId⟩)
    | .exhausted => none

/-- Hands over the text printed since the last time. -/
def drain (s : Session) : String × Session :=
  let (text, sink) := s.machine.sink.drain
  (text, { s with machine := { s.machine with sink } })

end Session
end LoxLang
