import TypedRecords.Source.Path

/-!
# File trees

Files and directories below a root, one of them the working directory. A walk along a path goes
through directories that exist and takes `.` and `..` as steps. It gives a file one canonical
place, however its path was spelled.
-/

namespace TypedRecords

/-- The canonical place of a file or directory: the names on the way to it from the root. -/
abbrev TreePath := List String

/-- Files with their bytes, directories other than the root, and where relative paths begin. -/
structure FileTree where
  workingDir : TreePath
  files : List (TreePath × ByteArray)
  dirs : List TreePath

namespace FileTree

/-- The places on the way to a place, the root and the place itself left out. -/
def ancestors (p : TreePath) : List TreePath := (List.range p.length).tail.map p.take

def emptyAt (workingDir : TreePath) : FileTree :=
  ⟨workingDir, [], ancestors workingDir ++ [workingDir]⟩

def hasFile (t : FileTree) (p : TreePath) : Bool := t.files.any fun f => f.1 = p

def hasDir (t : FileTree) (p : TreePath) : Bool := p.isEmpty || t.dirs.contains p

def bytes? (t : FileTree) (p : TreePath) : Option ByteArray :=
  (t.files.find? fun f => f.1 = p).map (·.2)

def origin (t : FileTree) (path : String) : TreePath :=
  if Path.isAbsolute path then [] else t.workingDir

def absolute (t : FileTree) (path : String) : String :=
  if Path.isAbsolute path then path
  else String.join (t.workingDir.map ("/" ++ ·)) ++ "/" ++ path

/-- Follows components from the directory `dir` to a file. The root is its own parent. -/
def walk (t : FileTree) : TreePath → List String → Option TreePath
  | _, [] => none
  | dir, c :: cs =>
    if c = ".." then t.walk dir.dropLast cs
    else if !Path.isEntry c then t.walk dir cs
    else if cs.isEmpty && t.hasFile (dir ++ [c]) then some (dir ++ [c])
    else if t.hasDir (dir ++ [c]) then t.walk (dir ++ [c]) cs
    else none

def find? (t : FileTree) (path : String) : Option TreePath :=
  t.walk (t.origin path) (Path.components path)

/-- One component of a path, taken from the directory `dir` where everything missing is made. -/
def step (dir : TreePath) (c : String) : TreePath :=
  if c = ".." then dir.dropLast else if Path.isEntry c then dir ++ [c] else dir

/-- The canonical place a path leads to where everything missing on the way is made. -/
def placeOf (t : FileTree) (path : String) : TreePath :=
  (Path.components path).foldl step (t.origin path)

def trail : TreePath → List String → List TreePath
  | _, [] => []
  | dir, c :: cs => step dir c :: trail (step dir c) cs

/-- Adds a file, with the directories that its path goes through. -/
def insert (t : FileTree) (path : String) (bytes : ByteArray) : FileTree :=
  let place := t.placeOf path
  let passed := (trail (t.origin path) (Path.components path)).filter (· ≠ place)
  { t with files := t.files ++ [(place, bytes)], dirs := t.dirs ++ passed }

/-- The text of the file that a path leads to; none when it is missing or is no text. -/
def text? (t : FileTree) (path : String) : Option String :=
  ((t.find? path).bind t.bytes?).bind String.fromUTF8?

end FileTree
end TypedRecords
