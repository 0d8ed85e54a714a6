import TypedRecords.Expr.Eval

/-!
# What evaluation reads of a database

A value refers to a record by name and position, and conversions look at the classes of the records
referred to. The fields of kept records are never read: evaluation is the same over a database and
over its outline, in which the records have no fields.
-/

namespace TypedRecords

def Record.outline (r : Record) : Record := { r with fields := [] }

@[simp] theorem Record.isSubclassOf_outline (r : Record) (name : String) :
    r.outline.isSubclassOf name = r.isSubclassOf name := rfl

def RecordTable.outline (t : RecordTable) : RecordTable := t.map Record.outline fun _ => rfl

/-- The database with its records in their places, but without their fields. -/
def Database.outline (db : Database) : Database := ⟨db.classes.outline, db.defs.outline⟩

def Store.outline (store : Store) : Store := fun i => (store i).map Record.outline

namespace RecordTable

theorem index?_outline (t : RecordTable) (name : String) : t.outline.index? name = t.index? name := by
  unfold index? outline map
  rw [List.findIdx?_map]
  rfl

end RecordTable

namespace Database

theorem ref?_outline (db : Database) (name : String) : db.outline.ref? name = db.ref? name :=
  congrArg (Option.map _) (db.defs.index?_outline name)

theorem store_outline (db : Database) : db.outline.store = Store.outline db.store :=
  funext fun _ => List.getElem?_map

/-! Of the two tables only the defs are read. -/

variable {db db' : Database}

theorem ref?_congr (h : db.defs.outline = db'.defs.outline) (name : String) :
    db.ref? name = db'.ref? name := by
  rw [← db.ref?_outline, ← db'.ref?_outline]
  exact congrArg (fun t : RecordTable => (t.index? name).map (RecordRef.mk name)) h

theorem store_congr (h : db.defs.outline = db'.defs.outline) :
    Store.outline db.store = Store.outline db'.store := by
  rw [← db.store_outline, ← db'.store_outline]
  exact congrArg (fun t : RecordTable => t.item?) h

end Database

@[simp] theorem RecordRef.get?_outline (ref : RecordRef) (store : Store) :
    ref.get? store.outline = (ref.get? store).map Record.outline := rfl

/-! ### Values -/

namespace Value
variable (store : Store)

@[simp] theorem type_outline (v : Value) : v.type store.outline = v.type store := by
  cases v with
  | record ref => cases h : ref.get? store <;> simp [type, h, Record.outline]
  | _ => rfl

@[simp] theorem isInstance_outline (ref : RecordRef) (name : String) :
    isInstance store.outline ref name = isInstance store ref name := by
  cases h : ref.get? store <;> simp [isInstance, h, Record.outline, Record.isSubclassOf]

mutual

@[simp] theorem convert_outline : ∀ (v : Value) (type : Ty),
    v.convert store.outline type = v.convert store type
  | bit b, type | bits lsbFirst, type | int number, type | string text, type | code text, type
  | dag operator args, type => by cases type <;> simp only [convert]
  | list _ items, type => by
    cases type <;> simp only [convert, convertAll_outline items]
  | record ref, type => by
    cases type <;> simp only [convert, isInstance_outline]

theorem convertAll_outline : ∀ (vs : List Value) (element : Ty),
    convertAll store.outline vs element = convertAll store vs element
  | [], _ => by rw [convertAll, convertAll]
  | v :: vs, element => by
    rw [convertAll, convertAll, convert_outline v, convertAll_outline vs]

end

end Value

/-! ### Operations -/

section
variable (store : Store)

theorem referencedRecords_outline (vs : List Value) :
    referencedRecords store.outline vs =
      (referencedRecords store vs).map (List.map Record.outline) := by
  induction vs with
  | nil => rfl
  | cons v vs ih =>
    cases v with
    | record ref =>
      cases h : ref.get? store with
      | none => simp [referencedRecords, h]
      | some r =>
        simp only [referencedRecords, RecordRef.get?_outline, h, Option.map_some, ih, Option.map_map]
        rfl
    | _ => rfl

theorem commonType_outline (values : List Value) :
    commonType store.outline values = commonType store values := by
  unfold commonType
  cases values with
  | nil => rfl
  | cons first rest =>
    simp only [referencedRecords_outline, Value.type_outline]
    rcases referencedRecords store (first :: rest) with _ | _ | ⟨r, rs⟩
    · rfl
    · rfl
    · have hshared : ∀ name, (r.outline :: rs.map Record.outline).all (·.isSubclassOf name) =
          (r :: rs).all (·.isSubclassOf name) := fun name =>
        List.all_map (l := r :: rs)
      simp only [Option.map_some, List.map_cons, hshared]
      rfl

theorem convertElements_outline (element : Ty) (place : Location) (vs : List Value) :
    convertElements store.outline element place vs = convertElements store element place vs := by
  induction vs with
  | nil => rfl
  | cons v vs ih => simp only [convertElements, Value.convert_outline, Value.type_outline, ih]

theorem makeList_outline (declared : Option Ty) (place : Location) (values : List Value) :
    makeList store.outline declared place values = makeList store declared place values := by
  simp only [makeList, commonType_outline, convertElements_outline]

theorem sumOperands_outline (place : Location) (sum : Int64) (vs : List Value) :
    sumOperands store.outline place sum vs = sumOperands store place sum vs := by
  induction vs generalizing sum with
  | nil => rfl
  | cons v vs ih => simp only [sumOperands, intOperand, Value.convert_outline, ih]

theorem Bang.apply_outline (place : Location) (op : Bang) (vs : List Value) :
    op.apply store.outline place vs = op.apply store place vs := by
  unfold Bang.apply
  simp only [sumOperands_outline, intOperand, Value.convert_outline]

theorem assign_outline (target : Target) (type : Ty) (place : Location) (v : Option Value) :
    assign store.outline target type place v = assign store target type place v := by
  unfold assign
  simp only [Value.convert_outline, Value.type_outline]

end
end TypedRecords
