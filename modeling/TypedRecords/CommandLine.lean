import TypedRecords.Session
import TypedRecords.Settings.Standard

/-!
# The command line

`[FILE] [-I DIR]...` parses a description and prints every class and def. The directories of `-I`
are searched first, then those of the settings, and the input's own directory last.
-/

namespace TypedRecords

structure Arguments where
  input : Option String
  includeDirs : List String
deriving DecidableEq, Repr

namespace Arguments

def empty : Arguments := ⟨none, []⟩

/-- The directory joined to the option in one argument. -/
def joinedDir? (arg : String) : Option String :=
  match arg.toList with
  | '-' :: 'I' :: dir => some (String.ofList dir)
  | _ => none

/-- Reads arguments behind those already read. A lone `-I` takes the argument after it, and there is
one input at most. -/
def readFrom (a : Arguments) : List String → Option Arguments
  | [] => some a
  | "-I" :: [] => none
  | "-I" :: dir :: args => readFrom { a with includeDirs := a.includeDirs ++ [dir] } args
  | arg :: args =>
    match joinedDir? arg, a.input with
    | some dir, _ => readFrom { a with includeDirs := a.includeDirs ++ [dir] } args
    | none, none => readFrom { a with input := some arg } args
    | none, some _ => none

def read (args : List String) : Option Arguments := empty.readFrom args

end Arguments

namespace CommandLine

def searchDirs (arguments : Arguments) (settings : Settings) (input : String) : List String :=
  arguments.includeDirs ++ settings.includeDirs ++ (Path.parent? input).toList

/-- The text that a run prints; none when it fails. -/
def output? (tree : FileTree) (environment : List (String × String)) (args : List String) :
    Option String := do
  let settings ← Settings.load? tree environment
  let arguments ← Arguments.read args
  let input ← arguments.input.or settings.input
  let source ← tree.text? input
  match Session.read ⟨tree, searchDirs arguments settings input⟩ input source with
  | .ok session => some session.db.text
  | .error _ => none

structure Outcome where
  exitCode : Nat
  stdout : String
deriving DecidableEq, Repr

def run (tree : FileTree) (environment : List (String × String)) (args : List String) : Outcome :=
  match output? tree environment args with
  | some text => ⟨0, text⟩
  | none => ⟨1, ""⟩

end CommandLine
end TypedRecords
