import TypedRecords.Decimal.Shortest
import TypedRecords.Source.FileTree

/-!
# The library for settings

Settings are read with a library that reads settings files and variables of the environment, keeps the
values found and converts them. `SettingsLibrary` is what is asked of it. What it does is left open
here: results about settings say which of its behaviour they rely on.
-/

namespace TypedRecords

inductive Setting
  | unset
  | text (s : String)
  | truth (b : Bool)
  | integer (n : Int64)
  | float (x : Binary64)
  | list (items : List Setting)
  | table

/-- Values for names. A name is a key or leads into the value of one. -/
abbrev Layer := List (String × Setting)

structure EnvironmentSource where
  mark : String
  tryParsing : Bool
  listSeparator : Char
  listKeys : List String

structure SettingsLibrary where
  Table : Type
  empty : Table
  set : Table → String → Setting → Table
  get : Table → String → Option Setting
  /-- The entries of the settings file at a path, none if there is no such file. It fails for a file
  that it cannot read. -/
  fileEntries? : FileTree → String → Option Layer
  /-- The entries of the variables that hold settings, in any order. -/
  environmentEntries : EnvironmentSource → List (String × String) → Layer
  /-- What the text of a variable is taken for, where the variable is for the name. -/
  ofVariable : EnvironmentSource → String → String → Setting
  text? : Setting → Option String
  texts? : Setting → Option (List String)

end TypedRecords
