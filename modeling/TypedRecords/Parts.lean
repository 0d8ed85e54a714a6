/-!
# Parts of a text

A text cut at every separator, with nothing trimmed and empty parts kept.
-/

namespace TypedRecords

/-- The parts of a text between the separators, one more than there are separators. -/
def splitParts (separator : Char) : List Char → List (List Char)
  | [] => [[]]
  | c :: cs =>
    if c = separator then [] :: splitParts separator cs
    else
      match splitParts separator cs with
      | [] => [[c]]
      | part :: parts => (c :: part) :: parts

end TypedRecords
