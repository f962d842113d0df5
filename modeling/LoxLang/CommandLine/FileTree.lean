/-!
# Files

Directories and files as a tree, and what a path leads to. A path is followed name by name from the
innermost of a chain of directories, each inside the next; a path that starts with a slash is
followed from the outermost one. Every name but the last has to lead to a directory, and a slash at
the end asks the same of the last.
-/
namespace LoxLang
namespace CommandLine

/-- Why the system does not give the bytes of a file. -/
inductive FileProblem
  | missing
  | denied
  | notDirectory
  | directory
  | tooLong
  | other (text : String)
deriving DecidableEq

def FileProblem.message : FileProblem → String
  | missing => "No such file or directory (os error 2)"
  | denied => "Permission denied (os error 13)"
  | notDirectory => "Not a directory (os error 20)"
  | directory => "Is a directory (os error 21)"
  | tooLong => "File name too long (os error 36)"
  | other text => text

inductive FileTree
  | file (bytes : List UInt8)
  | directory (entries : List (String × FileTree))

namespace FileTree

def maxNameSize : Nat := 255

def maxPathSize : Nat := 4095

/-- What a directory holds; a file holds nothing. -/
def entries : FileTree → List (String × FileTree)
  | file _ => []
  | directory entries => entries

def emptyDirectory : FileTree := .directory []

/-- Puts a file where these names lead, with the directories on the way to it. -/
def insert (bytes : List UInt8) : List String → FileTree → FileTree
  | [], _ => .file bytes
  | name :: names, t =>
    let old := (t.entries.lookup name).getD emptyDirectory
    .directory ((name, insert bytes names old) :: t.entries.filter (·.1 ≠ name))

/-- The chain after one more name of a path. The outermost directory is its own parent. -/
def step (name : String) : List FileTree → Except FileProblem (List FileTree)
  | [] => .error .missing
  | .file _ :: _ => .error .notDirectory
  | .directory entries :: outer =>
    let here := .directory entries :: outer
    if name = "" || name = "." then .ok here
    else if name = ".." then .ok (if outer.isEmpty then here else outer)
    else if maxNameSize < name.utf8ByteSize then .error .tooLong
    else
      match entries.lookup name with
      | some found => .ok (found :: here)
      | none => .error .missing

def walk : List String → List FileTree → Except FileProblem (List FileTree)
  | [], chain => .ok chain
  | name :: names, chain => do walk names (← step name chain)

/-- The bytes of the file that a path leads to. -/
def read (chain : List FileTree) (path : String) : Except FileProblem (List UInt8) :=
  if maxPathSize < path.utf8ByteSize then .error .tooLong
  else
    let start := if path.startsWith "/" then chain.getLast?.toList else chain
    match walk (path.splitOn "/") start with
    | .ok (.file bytes :: _) => .ok bytes
    | .ok _ => .error .directory
    | .error problem => .error problem

end FileTree
end CommandLine
end LoxLang
