import TypedRecords.Expr.OfSyntax
import TypedRecords.Source.FileTree

/-!
# Includes

An include leads to the first file of its name along a search path. Files being included are kept on
a stack, and a file on the stack is never entered again, so includes end.
-/

namespace TypedRecords

/-- Where included files are looked for: the directories in order, each in the file tree. -/
structure SearchPath where
  tree : FileTree
  dirs : List String

/-- A file that an include leads to, with the path it was found by. -/
structure Included where
  path : String
  place : TreePath
  statements : List Statement

namespace SearchPath

/-- The first file of that name along the search path, with the path it is found by. An absolute
path is its own. -/
def locate (s : SearchPath) (file : String) : Option (String × TreePath) :=
  let paths := if Path.isAbsolute file then [file] else s.dirs.map (Path.join · file)
  paths.findSome? fun path => (s.tree.find? path).map (path, ·)

def readAt (s : SearchPath) (path : String) (place : TreePath) (origin : Location) :
    Except ParseError (List Statement) :=
  match (s.tree.bytes? place).bind String.fromUTF8? with
  | none => .error ⟨.includeUnreadable path "stream did not contain valid UTF-8", origin⟩
  | some text => (readStatements path text).mapError SyntaxError.toParseError

/-- The file that an include leads to while those on `stack` are being included. -/
def fetch (s : SearchPath) (stack : List TreePath) (i : IncludeSyntax) :
    Except ParseError Included := do
  let name ← stringText i.file i.filePlace
  match s.locate name with
  | none => throw ⟨.includeMissing name, i.place⟩
  | some (path, place) =>
    if stack.contains place then throw ⟨.includeCycle path, i.place⟩
    return ⟨path, place, ← s.readAt path place i.place⟩

end SearchPath

namespace Statement

mutual

def includes : Statement → List IncludeSyntax
  | .includeFile i => [i]
  | .classDecl _ | .defDecl _ => []
  | .scope _ body => includesAll body

def includesAll : List Statement → List IncludeSyntax
  | [] => []
  | s :: ss => s.includes ++ includesAll ss

end

end Statement

end TypedRecords
