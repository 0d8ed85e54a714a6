/-!
# Places in a source text

A location names a text and a line and column in it, both counted from 1; a column is one character.
-/

namespace TypedRecords

structure Location where
  file : String
  line : Nat
  col : Nat
deriving DecidableEq, Repr, Inhabited

namespace Location

def start (file : String) : Location := ⟨file, 1, 1⟩

/-- The place after the character `c` read at `l`: only a line feed ends a line. -/
def advance (l : Location) (c : Char) : Location :=
  if c = '\n' then { l with line := l.line + 1, col := 1 } else { l with col := l.col + 1 }

/-- The place after the characters `cs` read from `l` on. -/
def advanceAll (l : Location) (cs : List Char) : Location := cs.foldl advance l

def before (l m : Location) : Bool := l.line < m.line || (l.line == m.line && l.col < m.col)

def text (l : Location) : String := s!"{l.file}:{l.line}:{l.col}"

@[simp] theorem advanceAll_nil (l : Location) : l.advanceAll [] = l := rfl

@[simp] theorem advanceAll_cons (l : Location) (c : Char) (cs : List Char) :
    l.advanceAll (c :: cs) = (l.advance c).advanceAll cs := rfl

theorem advanceAll_append (l : Location) (cs ds : List Char) :
    l.advanceAll (cs ++ ds) = (l.advanceAll cs).advanceAll ds := by
  simp [advanceAll]

@[simp] theorem file_advance (l : Location) (c : Char) : (l.advance c).file = l.file := by
  unfold advance; split <;> rfl

@[simp] theorem file_advanceAll (l : Location) (cs : List Char) :
    (l.advanceAll cs).file = l.file := by
  induction cs generalizing l with
  | nil => rfl
  | cons c cs ih => simp [ih]

end Location
end TypedRecords
