import TypedRecords.Record
import TypedRecords.Value.Bits

/-!
# Types of values and conversion between them

`Value.type` is the most specific type a value has on its own; `Value.convert` is what an
assignment to a declared type does to a value, and has no result where no conversion exists.
-/

namespace TypedRecords.Value

/-- The most specific type of a value. A reference has the first direct superclass of its record. -/
def type (store : Store) : Value → Ty
  | bit _ => .bit
  | bits lsbFirst => .bits lsbFirst.length
  | int _ => .int
  | string _ => .string
  | code _ => .code
  | list element _ => .list element
  | dag .. => .dag
  | record ref =>
    match (ref.get? store).bind (·.directSuperclasses.head?) with
    | some name => .record name
    | none => .anyRecord

/-- A reference may stand where the class `name` is asked for: its record exists and is that class
or derives from it. -/
def isInstance (store : Store) (ref : RecordRef) (name : String) : Bool :=
  match ref.get? store with
  | some r => r.name == name || r.isSubclassOf name
  | none => false

mutual

/-- The value as the declared type holds it, if it converts to that type. -/
def convert (store : Store) : Value → Ty → Option Value
  | bit b, .bit => some (bit b)
  | bit b, .bits width => if width = 1 then some (bits [some b]) else none
  | bit b, .int => some (int (if b then 1 else 0))
  | bits lsbFirst, .bit =>
    match lsbFirst with
    | [some b] => some (bit b)
    | _ => none
  | bits lsbFirst, .bits width => if lsbFirst.length = width then some (bits lsbFirst) else none
  | bits lsbFirst, .int => (Bits.toInt? lsbFirst).map int
  | int number, .bit => if number = 0 then some (bit false) else if number = 1 then some (bit true) else none
  | int number, .bits width => (Bits.ofInt? number width).map bits
  | int number, .int => some (int number)
  | string text, .string | code text, .string => some (string text)
  | string text, .code | code text, .code => some (code text)
  | list _ items, .list element => (convertAll store items element).map (list element)
  | dag operator args, .dag => some (dag operator args)
  | record ref, .anyRecord => some (record ref)
  | record ref, .record name => if isInstance store ref name then some (record ref) else none
  | _, _ => none

def convertAll (store : Store) : List Value → Ty → Option (List Value)
  | [], _ => some []
  | v :: vs, element =>
    match convert store v element with
    | none => none
    | some w => (convertAll store vs element).map (w :: ·)

end

end TypedRecords.Value
