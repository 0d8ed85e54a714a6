import TypedRecords.CommandLine

/-!
# The program

The thin layer around `CommandLine.run`: it reads the environment and the files that a run can ask
for, and prints the outcome.
-/

namespace TypedRecords.Program

/-- The file in which the system shows the variables of a process. -/
def environmentFile : String := "/proc/self/environ"

def readVariable (cs : List Char) : String × String :=
  (String.ofList (cs.takeWhile (· != '=')), String.ofList ((cs.dropWhile (· != '=')).drop 1))

def readVariables : IO (List (String × String)) := do
  try
    let bytes ← IO.FS.readBinFile environmentFile
    return (splitParts '\x00' (Utf8.decode bytes).toList).map readVariable
  catch _ => return []

/-- Adds the file that a path leads to, if it is there and not yet in the tree. -/
def addFile (tree : FileTree) (path : String) : IO FileTree := do
  if (tree.find? path).isSome then return tree
  try
    let bytes ← IO.FS.readBinFile path
    return tree.insert path bytes
  catch _ => return tree

def includedNames (tree : FileTree) (path : String) : List String :=
  match (tree.text? path).map (readStatements path) with
  | some (.ok statements) => (Statement.includesAll statements).filterMap fun i =>
      (stringText i.file i.filePlace).toOption
  | _ => []

/-- Adds all files that a file asks for along the search path, directly or through others. -/
partial def addIncludes (dirs : List String) (tree : FileTree) (path : String) : IO FileTree := do
  let mut tree := tree
  for name in includedNames tree path do
    for candidate in if Path.isAbsolute name then [name] else dirs.map (Path.join · name) do
      if (tree.find? candidate).isNone then
        tree ← addFile tree candidate
        if (tree.find? candidate).isSome then tree ← addIncludes dirs tree candidate
  return tree

/-- The tree of the files that a run with these variables and arguments can ask for. -/
def readTree (environment : List (String × String)) (args : List String) : IO FileTree := do
  let workingDir := (← IO.currentDir).toString
  let root := FileTree.emptyAt []
  let mut tree := FileTree.emptyAt (root.placeOf workingDir)
  let file := (environment.lookup Settings.fileVariable).getD Settings.defaultFile
  for path in file :: (Settings.pathWithEnding? (tree.absolute file)).toList do
    tree ← addFile tree path
  match Settings.load? tree environment, Arguments.read args with
  | some settings, some arguments =>
    match arguments.input.or settings.input with
    | some input =>
      tree ← addFile tree input
      addIncludes (CommandLine.searchDirs arguments settings input) tree input
    | none => return tree
  | _, _ => return tree

end TypedRecords.Program

def main (args : List String) : IO UInt32 := do
  let environment ← TypedRecords.Program.readVariables
  let tree ← TypedRecords.Program.readTree environment args
  let outcome := TypedRecords.CommandLine.run tree environment args
  IO.print outcome.stdout
  return outcome.exitCode.toUInt32
