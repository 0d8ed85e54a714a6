import TypedRecords.Parts

/-!
# Paths

Paths are texts whose components are set apart by `/`. Paths in messages are shown as they were put
together; only the walk to a file looks at the components.
-/

namespace TypedRecords

namespace Path

def isAbsolute (path : String) : Bool := path.toList.head? == some '/'

/-- The path of `file` in the directory `dir`; the empty directory is the working directory. -/
def join (dir file : String) : String :=
  if dir.isEmpty || dir.toList.getLast? == some '/' then dir ++ file else dir ++ "/" ++ file

def components (path : String) : List String :=
  (splitParts '/' path.toList).map String.ofList

/-- A component that names an entry, and not a directory one is in already. -/
def isEntry (component : String) : Bool := component ≠ "" && component ≠ "."

/-- The directory that holds the entry a path names, as the path spells it; none for a path that names
nothing. A first component that names no entry belongs to every path that goes on from it. -/
def parent? (path : String) : Option String :=
  let front := ((components path).take 1).filter (!isEntry ·)
  match ((components path).drop front.length).reverse.dropWhile (!isEntry ·) with
  | [] => if front = ["."] then some "" else none
  | _ :: before =>
    let dirs := front ++ (before.dropWhile (!isEntry ·)).reverse
    -- the root is the one directory that ends in a separator
    some (if dirs = [""] then "/" else String.intercalate "/" dirs)

/-- A name up to its last dot and its ending behind that. A dot in front begins no ending. -/
def splitName (name : String) : String × Option String :=
  match (splitParts '.' name.toList).reverse with
  | last :: before :: more =>
    if more.isEmpty && before.isEmpty then (name, none)
    else (String.ofList (['.'].intercalate (before :: more).reverse), some (String.ofList last))
  | _ => (name, none)

/-- The name of the entry that a path leads to, and the directories before it, last first; none where
the last step goes up or there is no step. -/
def lastStep? (path : String) : Option (String × List String) :=
  match (components path).reverse.dropWhile (!isEntry ·) with
  | [] | ".." :: _ => none
  | name :: dirs => some (name, dirs)

def ending? (path : String) : Option String :=
  (lastStep? path).bind fun (name, _) => (splitName name).2

/-- The path with another ending of its entry's name, or with one added. -/
def withEnding? (path ending : String) : Option String :=
  (lastStep? path).map fun (name, dirs) =>
    String.intercalate "/" (((splitName name).1 ++ "." ++ ending) :: dirs).reverse

end Path
end TypedRecords
