import TypedRecords.Settings.Standard.Toml.Datetime

/-!
# Tables of a settings file

The values of a TOML file, and the rules by which its keys and headers build tables.
-/

namespace TypedRecords

/-- How a table came to be, which decides what may still be added to it. -/
inductive TableOrigin
  /-- Named on the way to another table by a header. -/
  | implied
  /-- Named on the way to a key by a dotted key, if not only by that. No header opens it. -/
  | dotted
  | header
  /-- Written between braces, and complete with that. -/
  | inline
deriving DecidableEq, Repr

inductive Toml
  | string (text : String)
  | integer (number : Int64)
  | float (number : Binary64)
  | boolean (truth : Bool)
  | datetime (d : Toml.Datetime)
  | array (items : List Toml)
  | table (origin : TableOrigin) (entries : List (String × Toml))
  /-- The tables of one repeated header, latest last. -/
  | tables (items : List (List (String × Toml)))

namespace Toml

abbrev Entries := List (String × Toml)

def setEntry (entries : Entries) (key : String) (v : Toml) : Entries :=
  if entries.any (·.1 = key) then entries.map fun (k, w) => if k = key then (k, v) else (k, w)
  else entries ++ [(key, v)]

/-- Sets a value under a dotted key; no key is set twice. The tables on the way must not have been
opened, and of a repeated header it is the last table that the way goes through. A key is added only
to a table that dotted keys have named. -/
def setDotted : Entries → List String → Toml → Option Entries
  | _, [], _ => none
  | entries, [key], v =>
    match entries.lookup key with
    | some _ => none
    | none => some (setEntry entries key v)
  | entries, key :: next :: path, v =>
    match entries.lookup key with
    | none =>
      (setDotted [] (next :: path) v).map fun inner => setEntry entries key (.table .dotted inner)
    | some (.table .dotted inner) | some (.table .implied inner) =>
      (setDotted inner (next :: path) v).map fun inner =>
        setEntry entries key (.table .dotted inner)
    | some (.tables items) =>
      match items.getLast?, path with
      | some inner, _ :: _ =>
        (setDotted inner (next :: path) v).map fun inner =>
          setEntry entries key (.tables (items.dropLast ++ [inner]))
      | _, _ => none
    | some _ => none

/-- Changes the table that a header's path leads to, making the tables on the way. -/
def atPath (change : Entries → Option Entries) : List String → Entries → Option Entries
  | [], entries => change entries
  | key :: path, entries =>
    match entries.lookup key with
    | none => (atPath change path []).map fun inner => setEntry entries key (.table .implied inner)
    | some (.table .inline _) => none
    | some (.table origin inner) =>
      (atPath change path inner).map fun inner => setEntry entries key (.table origin inner)
    | some (.tables items) =>
      match items.getLast? with
      | none => none
      | some inner =>
        (atPath change path inner).map fun inner =>
          setEntry entries key (.tables (items.dropLast ++ [inner]))
    | some _ => none

def openTable (key : String) (entries : Entries) : Option Entries :=
  match entries.lookup key with
  | none => some (setEntry entries key (.table .header []))
  | some (.table .implied inner) => some (setEntry entries key (.table .header inner))
  | some _ => none

def openItem (key : String) (entries : Entries) : Option Entries :=
  match entries.lookup key with
  | none => some (setEntry entries key (.tables [[]]))
  | some (.tables items) => some (setEntry entries key (.tables (items ++ [[]])))
  | some _ => none

end Toml
end TypedRecords
