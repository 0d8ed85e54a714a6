import TypedRecords.Value.Basic

/-!
# The text of a value

How a value is written in a dump of its record. An unset place reads `?`, and a bit vector is
written most significant bit first.
-/

namespace TypedRecords

/-- The texts in order, with `, ` between neighbours. -/
def commaSeparated : List String → String
  | [] => ""
  | s :: ss => s ++ String.join (ss.map (", " ++ ·))

/-- How one character of a string value is written between its quotes. -/
def escapeChar (c : Char) : List Char :=
  if c = '\\' then ['\\', '\\']
  else if c = '"' then ['\\', '"']
  else if c = '\n' then ['\\', 'n']
  else if c = '\t' then ['\\', 't']
  else [c]

def escape (text : String) : String := String.ofList (text.toList.flatMap escapeChar)

def quoted (text : String) : String := "\"" ++ escape text ++ "\""

def bitText : Option Bool → String
  | some true => "1"
  | some false => "0"
  | none => "?"

def bitsText (lsbFirst : List (Option Bool)) : String :=
  "\x7b " ++ commaSeparated (lsbFirst.reverse.map bitText) ++ " \x7d"

/-- What follows the value of a named dag argument. -/
def argNameText : Option String → String
  | some name => ":$" ++ name
  | none => ""

namespace Value

mutual

def text : Value → String
  | bit truth => if truth then "1" else "0"
  | bits lsbFirst => bitsText lsbFirst
  | int number => toString number.toInt
  | string text => quoted text
  | code text => "[\x7b" ++ text ++ "\x7d]"
  | list _ items => "[" ++ commaSeparated (itemTexts items) ++ "]"
  | dag operator [] => "(" ++ operator.text ++ ")"
  | dag operator (arg :: args) =>
    "(" ++ operator.text ++ " " ++ commaSeparated (argTexts (arg :: args)) ++ ")"
  | record ref => ref.name

def itemTexts : List Value → List String
  | [] => []
  | v :: vs => v.text :: itemTexts vs

def argTexts : List (DagArg Value) → List String
  | [] => []
  | ⟨name, some v⟩ :: as => (v.text ++ argNameText name) :: argTexts as
  | ⟨name, none⟩ :: as => ("?" ++ argNameText name) :: argTexts as

end

def textOrUnset : Option Value → String
  | some v => v.text
  | none => "?"

end Value

namespace DagArg

def text (arg : DagArg Value) : String := Value.textOrUnset arg.value ++ argNameText arg.name

end DagArg

namespace Value

theorem itemTexts_eq_map (vs : List Value) : itemTexts vs = vs.map text := by
  induction vs with
  | nil => rfl
  | cons v vs ih => simp [itemTexts, ih]

end Value
end TypedRecords
