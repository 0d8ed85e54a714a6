import TypedRecords.Record

/-!
# Record tables and the database

A table keeps records in order of arrival, one for each name. A database holds two of them, the
classes and the defs.
-/

namespace TypedRecords

/-- Records in order of arrival, one for each name. -/
@[ext] structure RecordTable where
  records : List Record
  nodup : (records.map Record.name).Nodup
deriving DecidableEq

/-- What keeping a record answers: the table after it, the record kept under the name, and whether
that one was there before. -/
structure Kept where
  table : RecordTable
  record : Record
  already : Bool

namespace RecordTable

def empty : RecordTable := ⟨[], List.nodup_nil⟩

instance : Inhabited RecordTable := ⟨empty⟩

def size (t : RecordTable) : Nat := t.records.length

def isEmpty (t : RecordTable) : Bool := t.records.isEmpty

def names (t : RecordTable) : List String := t.records.map Record.name

def index? (t : RecordTable) (name : String) : Option Nat :=
  t.records.findIdx? fun r => r.name = name

def get? (t : RecordTable) (name : String) : Option Record := t.records.find? fun r => r.name = name

def contains (t : RecordTable) (name : String) : Bool := t.records.any fun r => r.name = name

def first? (t : RecordTable) : Option Record := t.records.head?

def item? (t : RecordTable) (i : Nat) : Option Record := t.records[i]?

def isLast (t : RecordTable) (i : Nat) : Bool := i + 1 == t.size

/-- The cursor's next position: the one behind `i`, unless `i` is the final one. -/
def next? (t : RecordTable) (i : Nat) : Option Nat := if t.isLast i then none else some (i + 1)

theorem get?_eq_none {t : RecordTable} {name : String} : t.get? name = none ↔ name ∉ t.names := by
  simp [get?, names]

/-- The table with a record of a new name behind the others. -/
def push (t : RecordTable) (r : Record) (h : t.get? r.name = none) : RecordTable where
  records := t.records ++ [r]
  nodup := by
    rw [List.map_append]
    exact List.nodup_append.2 ⟨t.nodup, List.pairwise_singleton .., fun a ha b hb hab =>
      get?_eq_none.1 h (hab.trans (List.mem_singleton.1 hb) ▸ ha)⟩

/-- Keeps a record, unless one with its name is there already. -/
def keep (t : RecordTable) (r : Record) : Kept :=
  match h : t.get? r.name with
  | some earlier => ⟨t, earlier, true⟩
  | none => ⟨t.push r h, r, false⟩

theorem keep_of_some {t : RecordTable} {r earlier : Record} (h : t.get? r.name = some earlier) :
    t.keep r = ⟨t, earlier, true⟩ := by
  unfold keep
  split
  · rename_i hearlier
    rw [Option.some.inj (hearlier.symm.trans h)]
  · rename_i hnone
    cases hnone.symm.trans h

theorem keep_of_none {t : RecordTable} {r : Record} (h : t.get? r.name = none) :
    t.keep r = ⟨t.push r h, r, false⟩ := by
  unfold keep
  split
  · rename_i hearlier
    cases hearlier.symm.trans h
  · rfl

/-- The table with its records changed, but not their names. -/
def map (t : RecordTable) (f : Record → Record) (hname : ∀ r, (f r).name = r.name) : RecordTable where
  records := t.records.map f
  nodup := by
    rw [List.map_map, show Record.name ∘ f = Record.name from funext hname]
    exact t.nodup

/-- The records with their way back to the database that holds them. -/
def link (t : RecordTable) : RecordTable := t.map (fun r => { r with linked := true }) fun _ => rfl

def linkedCount (t : RecordTable) : Nat := t.records.countP (·.linked)

def text (t : RecordTable) : String := String.join (t.records.map Record.text)

end RecordTable

inductive Side
  | classes | defs
deriving DecidableEq, Repr

structure RecordPlace where
  side : Side
  position : Nat
deriving DecidableEq, Repr

structure SlotPlace where
  record : RecordPlace
  index : Nat
deriving DecidableEq, Repr

/-- All records of a description, classes and defs apart. -/
structure Database where
  classes : RecordTable
  defs : RecordTable
deriving DecidableEq, Inhabited

namespace Database

def empty : Database := ⟨.empty, .empty⟩

def table (db : Database) : Side → RecordTable
  | .classes => db.classes
  | .defs => db.defs

def place? (db : Database) (side : Side) (name : String) : Option RecordPlace :=
  ((db.table side).index? name).map fun i => ⟨side, i⟩

def record? (db : Database) (p : RecordPlace) : Option Record := (db.table p.side).item? p.position

def slot? (db : Database) (p : RecordPlace) (name : String) : Option SlotPlace :=
  ((db.record? p).bind (·.fieldIndex? name)).map fun i => ⟨p, i⟩

def field? (db : Database) (s : SlotPlace) : Option Field :=
  (db.record? s.record).bind (·.fields[s.index]?)

/-- The slot of a record behind another one; none behind a slot of another record. -/
def nextSlot? (db : Database) (p : RecordPlace) (s : SlotPlace) : Option SlotPlace :=
  if s.record = p then ((db.record? p).bind (·.nextField? s.index)).map fun i => ⟨p, i⟩ else none

/-- The records that references of this database point into. -/
def store (db : Database) : Store := fun i => db.defs.item? i

def ref? (db : Database) (name : String) : Option RecordRef :=
  (db.defs.index? name).map fun i => ⟨name, i⟩

/-- The defs deriving from a class, in definition order. -/
def derivedDefs (db : Database) (className : String) : List Record :=
  db.defs.records.filter fun r => r.isSubclassOf className

def derivedPlaces (db : Database) (className : String) : List RecordPlace :=
  (List.range db.defs.size).filterMap fun i =>
    if (db.defs.item? i).any (·.isSubclassOf className) then some ⟨.defs, i⟩ else none

def resolve (db : Database) (ref : RecordRef) : Option Record := db.defs.get? ref.name

def link (db : Database) : Database := ⟨db.classes.link, db.defs.link⟩

def linkedCount (db : Database) : Nat := db.classes.linkedCount + db.defs.linkedCount

def text (db : Database) : String :=
  "------------- Classes -----------------\n" ++ db.classes.text
    ++ "------------- Defs -----------------\n" ++ db.defs.text

end Database
end TypedRecords
