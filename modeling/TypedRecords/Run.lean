import TypedRecords.Source.Include
import TypedRecords.Draft.Inherit
import TypedRecords.Draft.Resolve

/-!
# Running a description

Statements are taken in order, and an include stands for the statements of its file. Each declaration
adds one record to the database, built from what was declared before it and under the lets that
enclose it; the first failure ends the run.
-/

namespace TypedRecords

/-- What the declarations so far have left: records, templates newest first, and the number of
anonymous defs. -/
structure Progress where
  db : Database
  templates : List Template
  anonymous : Nat

namespace Progress

def start : Progress := ⟨.empty, [], 0⟩

/-- A class that types may name. -/
def declared (p : Progress) (name : String) : Bool := p.templates.any fun t => t.name = name

/-- Adds a class: its template, and the record that the defaults of its parameters give. A
parameter without a default is unset in that record. -/
def addClass (p : Progress) (lets : List Override) (c : ClassSyntax) :
    Except ParseError Progress := do
  if p.declared c.name then throw ⟨.classDefined c.name, c.namePlace⟩
  let t ← c.toTemplate (fun name => name = c.name || p.declared name) lets
  let bs ← t.bind p.db [] c.place .unset
  let draft ← Draft.ofTemplate p.db p.templates t bs
  let record ← draft.finish p.db c.name false true t.directSuperclasses
  return { p with
    db := { p.db with classes := (p.db.classes.keep record).table }
    templates := t :: p.templates }

def anonymousName (p : Progress) : String := "anonymous_" ++ toString p.anonymous

def addDef (p : Progress) (lets : List Override) (d : DefSyntax) : Except ParseError Progress := do
  let name := d.name.getD p.anonymousName
  let t ← d.toTemplate p.declared lets name
  if p.db.defs.contains name then throw ⟨.defDefined name, d.place⟩
  let draft ← Draft.ofTemplate p.db p.templates t []
  let record ← draft.finish p.db name d.name.isNone false t.directSuperclasses
  return { p with
    db := { p.db with defs := (p.db.defs.keep record).table }
    anonymous := if d.name.isNone then p.anonymous + 1 else p.anonymous }

/-- What an include does under the lets that enclose it. -/
abbrev Entering := Progress → List Override → IncludeSyntax → Except ParseError Progress

mutual

/-- One statement under the lets that enclose it, outermost first, where `enter` follows includes. -/
def run (enter : Entering) (p : Progress) (lets : List Override) :
    Statement → Except ParseError Progress
  | .includeFile i => enter p lets i
  | .classDecl c => p.addClass lets c
  | .defDecl d => p.addDef lets d
  | .scope bindings body => do
    let inner ← bindings.mapM (·.toOverride p.declared)
    p.runAll enter (lets ++ inner) body

def runAll (enter : Entering) (p : Progress) (lets : List Override) :
    List Statement → Except ParseError Progress
  | [] => .ok p
  | s :: ss => do
    let p ← p.run enter lets s
    p.runAll enter lets ss

end

end Progress

namespace SearchPath

/-- Follows an include from within the files on `stack`. The stack grows by another file of the tree
at each level, so no chain of includes is longer than the number of files. -/
def enter (s : SearchPath) : Nat → List TreePath → Progress.Entering
  | 0, stack, _, _, i => do
    let file ← s.fetch stack i
    throw ⟨.includeCycle file.path, i.place⟩
  | level + 1, stack, p, lets, i => do
    let file ← s.fetch stack i
    p.runAll (s.enter level (file.place :: stack)) lets file.statements

/-- The database of the description `text`, which error messages call `name`. -/
def run (s : SearchPath) (name text : String) : Except ParseError Database := do
  let statements ← (readStatements name text).mapError SyntaxError.toParseError
  return (← Progress.start.runAll (s.enter s.tree.files.length []) [] statements).db

end SearchPath
end TypedRecords
