import TypedRecords.Template.Basic

/-!
# Drafts

A draft is a record under construction: its fields hold expressions, and the last one written for
a field is the one that counts.
-/

namespace TypedRecords

/-- A field under construction; errors in its value lie at `place`. -/
structure DraftField where
  name : String
  type : Ty
  value : Expr
  place : Location

namespace DraftField

def write (f : DraftField) (name : String) (value : Expr) (place : Location) : DraftField :=
  if f.name = name then { f with value := value, place := place } else f

@[simp] theorem name_write (f : DraftField) (name : String) (value : Expr) (place : Location) :
    (f.write name value place).name = f.name := by
  unfold write; split <;> rfl

@[simp] theorem type_write (f : DraftField) (name : String) (value : Expr) (place : Location) :
    (f.write name value place).type = f.type := by
  unfold write; split <;> rfl

end DraftField

/-- A record under construction, with the bindings each superclass was applied with. No two fields
have one name. -/
structure Draft where
  fields : List DraftField
  superclasses : List String
  instantiations : List (String × Bindings)
  distinct : (fields.map DraftField.name).Nodup

namespace Draft

def empty : Draft := ⟨[], [], [], .nil⟩

def field? (d : Draft) (name : String) : Option DraftField :=
  d.fields.find? fun f => f.name = name

theorem map_name_write (fields : List DraftField) (name : String) (value : Expr) (place : Location) :
    (fields.map (·.write name value place)).map DraftField.name = fields.map DraftField.name := by
  rw [List.map_map]
  exact List.map_congr_left fun f _ => f.name_write name value place

theorem distinct_append {d : Draft} {f : DraftField} (h : d.field? f.name = none) :
    ((d.fields ++ [f]).map DraftField.name).Nodup := by
  have hne : ∀ g ∈ d.fields, g.name ≠ f.name := by simpa [field?] using h
  have hnew : f.name ∉ d.fields.map DraftField.name := by
    intro hmem
    obtain ⟨g, hg, he⟩ := List.mem_map.1 hmem
    exact hne g hg he
  rw [List.map_append]
  exact List.nodup_append.2 ⟨d.distinct, by simp, by
    rintro a ha b hb rfl
    exact hnew (List.mem_singleton.1 hb ▸ ha)⟩

def write (d : Draft) (name : String) (value : Expr) (place : Location) : Draft :=
  { d with
    fields := d.fields.map (·.write name value place)
    distinct := map_name_write d.fields name value place ▸ d.distinct }

/-- Declares a field. A declaration of a field that exists must repeat its type, and without an
initializer it keeps the inherited one. -/
def declare (d : Draft) (name : String) (type : Ty) (value : Option Expr) (place : Location) :
    Except ParseError Draft :=
  match h : d.field? name with
  | some f =>
    if f.type ≠ type then .error ⟨.fieldRedeclared name type f.type, place⟩
    else
      match value with
      | some value => .ok (d.write name value place)
      | none => .ok d
  | none => .ok { d with
      fields := d.fields ++ [⟨name, type, value.getD .unset, place⟩]
      distinct := distinct_append h }

def override (d : Draft) (o : Override) : Except ParseError Draft :=
  match d.field? o.name with
  | some _ => .ok (d.write o.name o.value o.place)
  | none => .error ⟨.fieldUnknown o.name, o.place⟩

def applyItem (bs : Bindings) (d : Draft) : BodyItem → Except ParseError Draft
  | .field name type value place => d.declare name type (value.map (·.substitute bs)) place
  | .override o => d.override { o with value := o.value.substitute bs }

/-- Applies what a template says itself: the enclosing lets, which do not see its parameters, and
then its body. -/
def applyOwn (t : Template) (bs : Bindings) (d : Draft) : Except ParseError Draft := do
  let d ← t.lets.foldlM override d
  t.body.foldlM (applyItem bs) d

def addSuperclass (d : Draft) (name : String) : Draft :=
  if d.superclasses.contains name then d else { d with superclasses := d.superclasses ++ [name] }

def instantiation? (d : Draft) (name : String) : Option Bindings := d.instantiations.lookup name

def addInstance (d : Draft) (name : String) (bs : Bindings) : Draft :=
  let d := d.addSuperclass name
  { d with instantiations := (name, bs) :: d.instantiations }

end Draft
end TypedRecords
