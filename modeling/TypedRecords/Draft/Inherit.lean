import TypedRecords.Template.Bind
import TypedRecords.Draft.Basic

/-!
# Inheritance

Parents are applied before what a template says itself, each class at most once to a draft. The
templates of the classes are listed newest first, so the parents of a class are further down the
list than the class.
-/

namespace TypedRecords

/-- The arguments written for a class, evaluated under the bindings `outer` of the class that
inherits and with the parameters' types expected. -/
def evaluateWritten (db : Database) (outer : Bindings) :
    List Param → List Expr → Except ParseError (List (Option Value))
  | _, [] => .ok []
  | ps, e :: es => do
    let v ← evaluateClosed db (e.substitute outer) (ps.head?.map (·.type))
    return v :: (← evaluateWritten db outer ps.tail es)

namespace Draft

/-- Applies a parent class to a draft, its own parents first. A class that a second path reaches
has to come with the same bindings, and is not applied again. -/
def inherit (db : Database) : List Template → Draft → ParentRef → Bindings → Except ParseError Draft
  | [], _, parent, _ => .error ⟨.classUnknown parent.name, parent.place⟩
  | t :: older, d, parent, outer =>
    if t.name = parent.name then do
      let args ← evaluateWritten db outer t.params parent.args
      let bs ← t.bind db args parent.place .refused
      match d.instantiation? t.name with
      | some previous =>
        if previous = bs then return d else throw ⟨.diamond t.name, parent.place⟩
      | none =>
        let d ← t.parents.foldlM (fun d p => inherit db older d p bs) d
        let d ← d.applyOwn t bs
        return d.addInstance t.name bs
    else inherit db older d parent outer

/-- The draft that a template builds under bindings of its parameters. -/
def ofTemplate (db : Database) (templates : List Template) (t : Template) (bs : Bindings) :
    Except ParseError Draft := do
  let d ← t.parents.foldlM (fun d p => d.inherit db templates p bs) empty
  d.applyOwn t bs

end Draft
end TypedRecords
