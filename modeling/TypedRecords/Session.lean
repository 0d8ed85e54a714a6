import TypedRecords.Run

/-!
# Sessions

A session is what one successful parse leaves: the database and the directories it was read with.
-/

namespace TypedRecords

/-- The name of a description that was given none. -/
def unnamedSource : String := "<source>"

/-- The database of a description, whose records do not know it yet. -/
def parse (search : SearchPath) (name text : String) : Except ParseError Database :=
  search.run name text

/-- The outcome of one successful parse. -/
structure Session where
  includeDirs : List String
  db : Database

namespace Session

/-- Parses a description; the records of a session can be followed back to its database. -/
def read (search : SearchPath) (name text : String) : Except ParseError Session := do
  return ⟨search.dirs, (← parse search name text).link⟩

end Session
end TypedRecords
