import TypedRecords.Draft.Basic
import TypedRecords.Expr.Eval

/-!
# Field values

Fields are evaluated once all overrides are in, so a field that names another sees its final value.
Values found are remembered; a field that is met again while it is being evaluated is circular.
-/

namespace TypedRecords

abbrev Memo := List (String × Option Value)

namespace Draft

/-- The scope of a record's initializers, where `read` gives the value of a field. -/
def scope {σ : Type} (d : Draft) (db : Database) (read : DraftField → Eval σ (Option Value)) :
    Scope σ :=
  ⟨db, fun name => (d.field? name).map fun f => (f.type, read f)⟩

/-- The value of one field, where `read` gives the values of the fields it names: its expression
evaluated and converted to its type. -/
def fieldValue {σ : Type} (d : Draft) (db : Database) (read : DraftField → Eval σ (Option Value))
    (f : DraftField) : Eval σ (Option Value) := do
  assign db.store (.field f.name) f.type f.place (← evaluate (d.scope db read) f.value (some f.type))

/-- The remembered value of a field, or else what `compute` answers. -/
def remembered (f : DraftField) (compute : Eval Memo (Option Value)) : Eval Memo (Option Value) := do
  match (← get).lookup f.name with
  | some v => return v
  | none => compute

/-- The value of a field while those on `path` are being evaluated. No path is longer than the
number of fields, which bounds the depth. -/
def resolve (d : Draft) (db : Database) : Nat → List String → DraftField → Eval Memo (Option Value)
  | 0, _, f => remembered f (throw ⟨.circular f.name, f.place⟩)
  | depth + 1, path, f => remembered f do
    if path.contains f.name then throw ⟨.circular f.name, f.place⟩
    let v ← d.fieldValue db (d.resolve db depth (f.name :: path)) f
    modify fun memo => (f.name, v) :: memo
    return v

/-- The values of the listed fields, and of those they need, behind the values known already. -/
def resolveAll (d : Draft) (db : Database) : List DraftField → Eval Memo Unit
  | [] => pure ()
  | f :: fs => do
    let _ ← d.resolve db d.fields.length [] f
    d.resolveAll db fs

def values (d : Draft) (db : Database) (order : List DraftField) : Except ParseError Memo := do
  let ((), memo) ← (d.resolveAll db order).run []
  return memo

/-- The record that a draft describes, its fields visited in an order. -/
def finishIn (d : Draft) (db : Database) (order : List DraftField) (name : String)
    (anonymous isClass : Bool) (direct : List String) : Except ParseError Record := do
  let memo ← d.values db order
  return {
    name := name
    anonymous := anonymous
    isClass := isClass
    fields := d.fields.map fun f => ⟨f.name, f.type, (memo.lookup f.name).join⟩
    superclasses := d.superclasses
    directSuperclasses := direct
    linked := false }

def finish (d : Draft) (db : Database) (name : String) (anonymous isClass : Bool)
    (direct : List String) : Except ParseError Record :=
  d.finishIn db d.fields name anonymous isClass direct

end Draft
end TypedRecords
