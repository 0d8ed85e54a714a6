import TypedRecords.Value.Text

/-!
# Records

Classes and defs share one shape: fields in declaration order and the classes the record derives
from, most basic first. A field is found by name; a cursor walks the fields in order.
-/

namespace TypedRecords

/-- A field slot: a name, the declared type and the value, if it has one. -/
structure Field where
  name : String
  type : Ty
  value : Option Value
deriving DecidableEq, Inhabited

namespace Field

def kind (f : Field) : Kind := f.type.kind

def text (f : Field) : String :=
  f.type.text ++ " " ++ f.name ++ " = " ++ Value.textOrUnset f.value

end Field

/-- A class or a def. `superclasses` holds every class the record derives from, most basic first
and each once; `directSuperclasses` those its declaration names. `linked` says that the record can
be followed back to the database that holds it. -/
structure Record where
  name : String
  anonymous : Bool
  isClass : Bool
  fields : List Field
  superclasses : List String
  directSuperclasses : List String
  linked : Bool
deriving DecidableEq, Inhabited

namespace Record

def isSubclassOf (r : Record) (className : String) : Bool := r.superclasses.contains className

/-- The place of the field that a name finds: of several slots with one name, the last. -/
def fieldIndex? (r : Record) (name : String) : Option Nat :=
  lastIndex? r.fields 0
where
  lastIndex? : List Field → Nat → Option Nat
    | [], _ => none
    | f :: fs, i => (lastIndex? fs (i + 1)).orElse fun _ => if f.name = name then some i else none

def field? (r : Record) (name : String) : Option Field :=
  (r.fieldIndex? name).bind fun i => r.fields[i]?

def fieldKind? (r : Record) (name : String) : Option Kind := (r.field? name).map Field.kind

def firstField? (r : Record) : Option Nat := if r.fields.isEmpty then none else some 0

/-- The place of the field after the one at `i`, where the cursor at `i` is one that the name of
its own field leads back to. -/
def nextField? (r : Record) (i : Nat) : Option Nat :=
  match r.fields[i]? with
  | none => none
  | some f =>
    if r.fieldIndex? f.name = some i && i + 1 < r.fields.length then some (i + 1) else none

/-- The places the cursor visits from the place `start` on, in at most `steps` steps. -/
def walkFrom (r : Record) : Nat → Option Nat → List Nat
  | _, none => []
  | 0, some _ => []
  | steps + 1, some i => i :: r.walkFrom steps (r.nextField? i)

def walk (r : Record) : List Nat := r.walkFrom r.fields.length r.firstField?

/-- The classes of a record as a comment behind its opening brace. -/
def lineageText : List String → String
  | [] => ""
  | names => "\t//" ++ String.join (names.map (" " ++ ·))

/-- The record as a declaration, one field to a line. -/
def text (r : Record) : String :=
  (if r.isClass then "class " else "def ") ++ r.name ++ " \x7b" ++ lineageText r.superclasses
    ++ "\n" ++ String.join (r.fields.map fun f => "  " ++ f.text ++ ";\n") ++ "\x7d\n"

end Record

/-- The records that references point into, by position; none where a record is gone. -/
abbrev Store := Nat → Option Record

namespace RecordRef

/-- The record a reference points at, while it exists. -/
def get? (ref : RecordRef) (store : Store) : Option Record := store ref.target

end RecordRef
end TypedRecords
