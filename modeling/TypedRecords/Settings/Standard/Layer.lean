import TypedRecords.Settings.Standard.KeyPath
import TypedRecords.Settings.Library
import TypedRecords.Settings.Standard.Toml.Document

/-!
# Layers of settings

The layers that settings files and environments give, and a table that keeps the values of keys. Numbers
and truth values are written out where a text is wanted; nothing stands in for a list.
-/

namespace TypedRecords

namespace Setting

def asText? : Setting → Option String
  | text s => some s
  | truth b => some (if b then "true" else "false")
  | integer n => some (toString n.toInt)
  | float x => some x.text
  | unset | list _ | table => none

def asTexts? : Setting → Option (List String)
  | list items => items.mapM asText?
  | _ => none

def items : Setting → List Setting
  | list items => items
  | _ => []

/-- Changes the item at an index. A list too short is filled up with unset items, behind its last
item or, for an index from the end, before its first. -/
def changeItem (change : Setting → Setting) (index : Int64) (items : List Setting) : List Setting :=
  let position := index.toInt + (if index < 0 then items.length else 0)
  let filled := List.replicate (-position).toNat unset ++ items
    ++ List.replicate (position + 1 - items.length).toNat unset
  filled.modify position.toNat change

/-- Sets the value that steps lead to, making tables and lists on the way. -/
def setAt (v : Setting) : List KeyStep → Setting → Setting
  | [], _ => v
  | .entry _ :: _, _ => table
  | .item index :: steps, old => list (changeItem (setAt v steps) index old.items)

mutual

def ofToml : Toml → Setting
  | .string s => text s
  | .integer n => integer n
  | .float x => float x
  | .boolean b => truth b
  | .datetime d => text d.text
  | .array items => list (ofTomls items)
  | .table .. => table
  | .tables items => list (items.map fun _ => table)

def ofTomls : List Toml → List Setting
  | [] => []
  | t :: ts => ofToml t :: ofTomls ts

end

def truth? (cs : List Char) : Option Bool :=
  let word := String.ofList (cs.map Char.toLower)
  if word == "true" then some true else if word == "false" then some false else none

/-- The setting that a text in the environment is for a name: a truth value or a number if it reads
as one, and a text or a list of texts otherwise. -/
def ofVariable (source : EnvironmentSource) (name value : String) : Setting :=
  let cs := value.toList
  match source.tryParsing, truth? cs, Decimal.int64? cs, Decimal.float? cs with
  | false, _, _, _ => text value
  | true, some b, _, _ => truth b
  | true, none, some n, _ => integer n
  | true, none, none, some x => float x
  | true, none, none, none =>
    if name ∈ source.listKeys then
      list ((splitParts source.listSeparator cs).map fun part => text (String.ofList part))
    else text value

end Setting

abbrev SettingTable := List (String × Setting)

namespace SettingTable

/-- Changes the value of a key, which is unset before the first change. -/
def change (t : SettingTable) (key : String) (f : Setting → Setting) : SettingTable :=
  if t.any (·.1 = key) then t.map fun (k, v) => if k = key then (k, f v) else (k, v)
  else t ++ [(key, f .unset)]

def assign (t : SettingTable) (name : String) (v : Setting) : SettingTable :=
  let path := KeyPath.ofName name
  t.change path.key (v.setAt path.steps)

end SettingTable

/-- A letter in lower case. Outside ASCII these are the letters whose lower case has a letter of
ASCII in it: no name of a setting has any other. -/
def lowerCase (c : Char) : List Char :=
  if c = '\u212a' then ['k'] else if c = '\u0130' then ['i', '\u0307'] else [c.toLower]

/-- The name that a variable gives a value to: what follows the mark and a `_`, in lower case. -/
def EnvironmentSource.nameOf? (source : EnvironmentSource) (variableName : String) : Option String :=
  let name := variableName.toList.flatMap lowerCase
  let mark := source.mark.toList.flatMap lowerCase ++ ['_']
  if mark.isPrefixOf name then some (String.ofList (name.drop mark.length)) else none

namespace Layer

def ofEnvironment (source : EnvironmentSource) (environment : List (String × String)) : Layer :=
  environment.filterMap fun (variableName, value) =>
    (source.nameOf? variableName).map fun name => (name, Setting.ofVariable source name value)

def ofText? (text : String) : Option Layer :=
  (Toml.parse? text).map fun entries => entries.map fun (name, v) => (name, Setting.ofToml v)

end Layer
end TypedRecords
