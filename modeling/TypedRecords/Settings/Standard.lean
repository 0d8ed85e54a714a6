import TypedRecords.Settings.Standard.Layer
import TypedRecords.Settings.Load
import TypedRecords.Source.Utf8

/-!
# The settings of the program

The library that the program reads its settings with, for settings files in TOML: files of other formats
count as missing. A settings file is read even where its bytes are no text.
-/

namespace TypedRecords
namespace Settings

def ending : String := "toml"

/-- The path tried where `path` leads to no file: its entry's name with the ending of settings files
added. What a name has for an ending belongs to the name then, so a part is put behind the path for
the added ending to replace. -/
def pathWithEnding? (path : String) : Option String :=
  Path.withEnding? (if (Path.ending? path).isSome then path ++ ".placeholder" else path) ending

/-- The settings file that a path names: the file it leads to, if that has the ending of settings
files, or where it leads to no file the one whose name has this ending added. -/
def locate? (tree : FileTree) (path : String) : Option TreePath :=
  match tree.find? path with
  | some place => if Path.ending? path = some ending then some place else none
  | none => (pathWithEnding? (tree.absolute path)).bind tree.find?

/-- What is no text in a settings file is replaced, and the mark of the order of bytes is left out. -/
def fileText (bytes : ByteArray) : String :=
  String.ofList (Toml.unmarked (Utf8.decode bytes).toList)

def fileEntries? (tree : FileTree) (path : String) : Option Layer :=
  match (locate? tree path).bind tree.bytes? with
  | none => some []
  | some bytes => Layer.ofText? (fileText bytes)

end Settings

namespace SettingsLibrary

def standard : SettingsLibrary where
  Table := SettingTable
  empty := []
  set := SettingTable.assign
  get t key := t.lookup key
  fileEntries? := Settings.fileEntries?
  environmentEntries := Layer.ofEnvironment
  ofVariable := Setting.ofVariable
  text? := Setting.asText?
  texts? := Setting.asTexts?

end SettingsLibrary

namespace Settings

def loadFrom? (tree : FileTree) (environment : List (String × String)) (path : String) :
    Option Settings :=
  SettingsLibrary.standard.loadFrom? tree environment path

def load? (tree : FileTree) (environment : List (String × String)) : Option Settings :=
  SettingsLibrary.standard.load? tree environment

end Settings
end TypedRecords
