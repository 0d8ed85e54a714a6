import TypedRecords.Parts

/-!
# Readers

A reader takes characters from the front of a text and answers what they stand for, or fails. Loops
that no list bounds take a `size`, which is the length of the whole text or more.
-/

namespace TypedRecords.Toml

abbrev Reader := StateT (List Char) Option

namespace Reader

def whole? {α : Type} (r : Reader α) (cs : List Char) : Option α :=
  match r cs with
  | some (a, []) => some a
  | _ => none

end Reader

def next? : Reader (Option Char) := return (← get).head?

def startsWith (s : String) : Reader Bool := return s.toList.isPrefixOf (← get)

def take (n : Nat) : Reader Unit := modify (List.drop n)

def expect (s : String) : Reader Unit := do
  if ← startsWith s then take s.length else failure

def span (p : Char → Bool) : Reader (List Char) := do
  let cs ← get
  set (cs.dropWhile p)
  return cs.takeWhile p

def anyChar : Reader Char := fun
  | [] => none
  | c :: cs => some (c, cs)

def skipSpaces : Reader Unit := do let _ ← span fun c => c == ' ' || c == '\t'

/-- Control characters, of which only the tab may stand in comments and strings. -/
def isControl (c : Char) : Bool := (c < ' ' && c != '\t') || c == '\x7f'

def atLineEnd : Reader Bool := do
  return (← get).isEmpty || (← startsWith "\n") || (← startsWith "\r\n")

def lineEnd : Reader Unit := do
  if ← startsWith "\r\n" then take 2 else if ← startsWith "\n" then take 1 else failure

def comment : Reader Unit := do
  expect "#"
  let _ ← span fun c => !isControl c
  if ← atLineEnd then return else failure

/-- Spaces and at most one comment, up to the end of the line. -/
def restOfLine : Reader Unit := do
  skipSpaces
  if (← next?) == some '#' then comment
  if ← atLineEnd then return else failure

def skipLines : Nat → Reader Unit
  | 0 => return
  | size + 1 => do
    skipSpaces
    if (← next?) == some '#' then
      comment
      skipLines size
    else if (← startsWith "\n") || (← startsWith "\r\n") then
      lineEnd
      skipLines size

end TypedRecords.Toml
