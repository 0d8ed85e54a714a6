import TypedRecords.Settings.Standard.Toml.Token

/-!
# Settings files

A TOML text as the table it describes: keys, values and headers, line by line. A text that is not
TOML has no table. Arrays and tables between braces are nested `maxDepth` deep at most, and no key
has more parts than that.
-/

namespace TypedRecords.Toml

def maxDepth : Nat := 80

def isBareChar (c : Char) : Bool := c.isAlphanum || c == '_' || c == '-'

def simpleKey (size : Nat) : Reader String := do
  if (← next?) == some '"' || (← next?) == some '\'' then
    if (← startsWith "\"\"\"") || (← startsWith "'''") then failure
    readString size
  else
    let cs ← span isBareChar
    if cs.isEmpty then failure
    return String.ofList cs

/-- A key of one part or more, up to `parts`, with dots between. -/
def keyParts (size : Nat) : Nat → Reader (List String)
  | 0 => failure
  | parts + 1 => do
    let part ← simpleKey size
    skipSpaces
    if (← next?) == some '.' then
      take 1
      skipSpaces
      return part :: (← keyParts size parts)
    else return [part]

def dottedKey (size : Nat) : Reader (List String) := keyParts size maxDepth

/-- The items of an array behind those already read, latest first, with the closing bracket. -/
def arrayItems (size : Nat) (value : Reader Toml) : Nat → List Toml → Reader (List Toml)
  | 0, _ => failure
  | more + 1, items => do
    skipLines size
    if (← next?) == some ']' then
      take 1
      return items.reverse
    let v ← value
    skipLines size
    if (← next?) == some ',' then
      take 1
      arrayItems size value more (v :: items)
    else
      expect "]"
      return (v :: items).reverse

/-- The entries of a table between braces, behind those already read, with the closing brace. Line
ends and comments may stand between any two tokens outside a dotted key. -/
def inlineEntries (size : Nat) (value : Reader Toml) : Nat → Entries → Reader Entries
  | 0, _ => failure
  | more + 1, entries => do
    skipLines size
    if (← next?) == some '}' then
      take 1
      return entries
    let key ← dottedKey size
    skipLines size
    expect "="
    skipLines size
    let v ← value
    match setDotted entries key v with
    | none => failure
    | some entries =>
      skipLines size
      if (← next?) == some ',' then
        take 1
        inlineEntries size value more entries
      else
        expect "\x7d"
        return entries

def scalar (size : Nat) : Reader Toml := do
  if (← next?) == some '"' || (← next?) == some '\'' then return .string (← readString size)
  else
    match ofToken? (← token) with
    | some v => return v
    | none => failure

/-- A value that nests arrays and tables between braces at most `depth` deep. -/
def value (size : Nat) : Nat → Reader Toml
  | 0 => scalar size
  | depth + 1 => do
    if (← next?) == some '[' then
      take 1
      return .array (← arrayItems size (value size depth) size [])
    else if (← next?) == some '{' then
      take 1
      return .table .inline (← inlineEntries size (value size depth) size [])
    else scalar size

structure Progress where
  root : Entries
  path : List String

def headerLine (size : Nat) (p : Progress) : Reader Progress := do
  let repeated ← startsWith "[["
  take (if repeated then 2 else 1)
  skipSpaces
  let path ← dottedKey size
  expect (if repeated then "]]" else "]")
  match path.getLast? with
  | none => failure
  | some key =>
    match atPath (if repeated then openItem key else openTable key) path.dropLast p.root with
    | some root => return ⟨root, path⟩
    | none => failure

def keyLine (size : Nat) (p : Progress) : Reader Progress := do
  let key ← dottedKey size
  expect "="
  skipSpaces
  let v ← value size maxDepth
  match atPath (setDotted · key v) p.path p.root with
  | some root => return { p with root := root }
  | none => failure

def lines (size : Nat) : Nat → Progress → Reader Entries
  | 0, p => return p.root
  | more + 1, p => do
    skipLines size
    match ← next? with
    | none => return p.root
    | some c =>
      let p ← if c == '[' then headerLine size p else keyLine size p
      restOfLine
      lines size more p

def unmarked : List Char → List Char
  | '\uFEFF' :: cs => cs
  | cs => cs

def parse? (text : String) : Option Entries :=
  let cs := unmarked text.toList
  let size := cs.length + 1
  (lines size size ⟨[], []⟩).whole? cs

end TypedRecords.Toml
