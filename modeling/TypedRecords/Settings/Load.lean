import TypedRecords.Settings.Library

/-!
# Settings

The settings of the command line: a default, over it the entries of a settings file, and over these the
variables of the environment. Keys that nothing sets have their defaults.
-/

namespace TypedRecords

/-- What the command line goes by where it is told nothing else. -/
structure Settings where
  includeDirs : List String
  logFilter : String
  input : Option String
deriving DecidableEq, Repr

namespace Settings

def default : Settings := ⟨[], "info", none⟩

def defaultFile : String := "recordkeeper.toml"

def fileVariable : String := "RECORDKEEPER_CONFIG"

def source : EnvironmentSource := ⟨"RECORDKEEPER", true, ',', ["include_dirs"]⟩

def keys : List String := ["include_dirs", "log_filter", "input"]

/-- A key that nothing sets has its default; one with a value of the wrong kind fails. -/
def read? {α : Type} (default : α) (convert : Setting → Option α) : Option Setting → Option α
  | none => some default
  | some s => convert s

end Settings

namespace SettingsLibrary
variable (lib : SettingsLibrary)

def setAll (t : lib.Table) (layer : Layer) : lib.Table :=
  layer.foldl (fun t (name, v) => lib.set t name v) t

def defaults : lib.Table := lib.set lib.empty "log_filter" (.text Settings.default.logFilter)

/-- The environment is laid over the file, and both over the defaults. -/
def table (file environment : Layer) : lib.Table :=
  lib.setAll (lib.setAll lib.defaults file) environment

def includeDirs? (t : lib.Table) : Option (List String) :=
  Settings.read? Settings.default.includeDirs lib.texts? (lib.get t "include_dirs")

def logFilter? (t : lib.Table) : Option String :=
  Settings.read? Settings.default.logFilter lib.text? (lib.get t "log_filter")

def input? (t : lib.Table) : Option (Option String) :=
  Settings.read? Settings.default.input (fun v => (lib.text? v).map some) (lib.get t "input")

def settings? (t : lib.Table) : Option Settings := do
  return ⟨← lib.includeDirs? t, ← lib.logFilter? t, ← lib.input? t⟩

def table? (tree : FileTree) (environment : List (String × String)) (path : String) :
    Option lib.Table :=
  (lib.fileEntries? tree path).map fun file =>
    lib.table file (lib.environmentEntries Settings.source environment)

def loadFrom? (tree : FileTree) (environment : List (String × String)) (path : String) :
    Option Settings := do
  lib.settings? (← lib.table? tree environment path)

def load? (tree : FileTree) (environment : List (String × String)) : Option Settings :=
  lib.loadFrom? tree environment ((environment.lookup Settings.fileVariable).getD Settings.defaultFile)

end SettingsLibrary
end TypedRecords
