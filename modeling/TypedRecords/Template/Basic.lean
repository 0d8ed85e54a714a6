import TypedRecords.Expr.OfSyntax

/-!
# Templates

A declared class is kept as a template, from which each record that derives from it is built with
arguments of its own. A def is built from a template that has no parameters.
-/

namespace TypedRecords

structure Param where
  name : String
  type : Ty
  default : Option Expr

/-- A class to derive from, with the arguments written for it. -/
structure ParentRef where
  name : String
  args : List Expr
  place : Location

/-- A new initializer for a field that exists. -/
structure Override where
  name : String
  value : Expr
  place : Location

inductive BodyItem
  | field (name : String) (type : Ty) (value : Option Expr) (place : Location)
  | override (o : Override)

/-- Everything needed to build a record: `lets` are the bindings of the scopes that enclose the
declaration, outermost first. -/
structure Template where
  name : String
  params : List Param
  parents : List ParentRef
  lets : List Override
  body : List BodyItem

namespace Template

/-- The classes a declaration names, each once, in the order of their first mention. -/
def directSuperclasses (t : Template) : List String :=
  t.parents.foldl (fun names p => if names.contains p.name then names else names ++ [p.name]) []

theorem directSuperclasses_congr {t u : Template}
    (h : t.parents.map ParentRef.name = u.parents.map ParentRef.name) :
    t.directSuperclasses = u.directSuperclasses := by
  have hfold : ∀ v : Template, v.directSuperclasses = (v.parents.map ParentRef.name).foldl
      (fun names name => if names.contains name then names else names ++ [name]) [] := fun v => by
    rw [directSuperclasses, List.foldl_map]
  rw [hfold, hfold, h]

end Template

/-! ## From written declarations -/

namespace LetSyntax

def toOverride (declared : String → Bool) (l : LetSyntax) : Except ParseError Override := do
  return ⟨l.name, ← l.value.toExpr declared, l.place⟩

end LetSyntax

def optionalExpr (declared : String → Bool) : Option ValueSyntax → Except ParseError (Option Expr)
  | none => .ok none
  | some v => (v.toExpr declared).map some

/-- The parameters of a class behind those already read; no two have one name. -/
def toParams (declared : String → Bool) :
    List Param → List ParamSyntax → Except ParseError (List Param)
  | earlier, [] => .ok earlier
  | earlier, p :: ps => do
    let type ← p.type.toTy declared
    let default ← optionalExpr declared p.default
    if earlier.any (·.name = p.name) then throw ⟨.paramDefined p.name, p.place⟩
    toParams declared (earlier ++ [⟨p.name, type, default⟩]) ps

namespace ParentSyntax

def toParentRef (declared : String → Bool) (p : ParentSyntax) : Except ParseError ParentRef := do
  return ⟨p.name, ← ValueSyntax.toExprs declared p.args, p.place⟩

end ParentSyntax

namespace ItemSyntax

def toBodyItem (declared : String → Bool) : ItemSyntax → Except ParseError BodyItem
  | field type name value place => do
    let type ← type.toTy declared
    return .field name type (← optionalExpr declared value) place
  | override l => (l.toOverride declared).map .override

end ItemSyntax

namespace ClassSyntax

/-- The template of a class declaration, where the class itself counts as `declared`. -/
def toTemplate (declared : String → Bool) (lets : List Override) (c : ClassSyntax) :
    Except ParseError Template := do
  let params ← toParams declared [] c.params
  let parents ← c.parents.mapM (·.toParentRef declared)
  let body ← c.body.mapM (·.toBodyItem declared)
  return ⟨c.name, params, parents, lets, body⟩

end ClassSyntax

namespace DefSyntax

/-- The template of a def that will be called `name`. -/
def toTemplate (declared : String → Bool) (lets : List Override) (name : String) (d : DefSyntax) :
    Except ParseError Template := do
  let parents ← d.parents.mapM (·.toParentRef declared)
  let body ← d.body.mapM (·.toBodyItem declared)
  return ⟨name, [], parents, lets, body⟩

end DefSyntax
end TypedRecords
