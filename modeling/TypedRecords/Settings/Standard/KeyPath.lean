import TypedRecords.Decimal.Reading

/-!
# Key paths

The name of a setting may lead into its value: `.name` to an entry of a table and `[index]` to an
item of a list, counted from the end where the index is negative.
-/

namespace TypedRecords

inductive KeyStep
  | entry (name : String)
  | item (index : Int64)
deriving DecidableEq, Repr

structure KeyPath where
  key : String
  steps : List KeyStep
deriving DecidableEq, Repr

namespace KeyPath

def isNameChar (c : Char) : Bool := c.isAlphanum || c == '_' || c == '-'

def name? (cs : List Char) : Option (String × List Char) :=
  match cs.takeWhile isNameChar with
  | [] => none
  | name => some (String.ofList name, cs.dropWhile isNameChar)

def trimSpaces (cs : List Char) : List Char := cs.dropWhile fun c => c == ' ' || c == '\t'

/-- An index with its closing bracket at the front of a text, and what follows it. -/
def index? (cs : List Char) : Option (Int64 × List Char) :=
  let (negative, cs) := match trimSpaces cs with
    | '-' :: cs => (true, cs)
    | cs => (false, cs)
  let digits := cs.takeWhile Char.isDigit
  match trimSpaces (cs.dropWhile Char.isDigit) with
  | ']' :: rest =>
    if digits.isEmpty then none
    else (Decimal.signedInt64? negative (digitsValue 10 digits)).map (·, rest)
  | _ => none

/-- The steps that a text writes, one at least for every character of `size`. -/
def steps? : Nat → List Char → Option (List KeyStep)
  | _, [] => some []
  | 0, _ => none
  | size + 1, '.' :: cs => do
    let (name, rest) ← name? cs
    return .entry name :: (← steps? size rest)
  | size + 1, '[' :: cs => do
    let (index, rest) ← index? cs
    return .item index :: (← steps? size rest)
  | _, _ => none

def parse? (name : String) : Option KeyPath := do
  let (key, rest) ← name? name.toList
  return ⟨key, ← steps? rest.length rest⟩

/-- The path that a name stands for: one that is no path is a key as it stands. -/
def ofName (name : String) : KeyPath := (parse? name).getD ⟨name, []⟩

end KeyPath
end TypedRecords
