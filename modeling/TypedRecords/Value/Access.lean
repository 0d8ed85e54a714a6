import TypedRecords.Record

/-!
# Typed access to values

Each accessor asks for one kind and says why it has no answer. `string` and `code` values are both
read as text.
-/

namespace TypedRecords

inductive AccessError
  | noField (name : String)
  | mismatch (expected found : Kind)
  | outOfRange (index length : Nat)
  | unset (field : String)
deriving DecidableEq, Repr

namespace AccessError

def message : AccessError → String
  | noField name => "No field named '" ++ name ++ "'"
  | mismatch expected found =>
    "Type mismatch: expected " ++ expected.name ++ ", found " ++ found.name
  | outOfRange index length =>
    "Index " ++ toString index ++ " out of range for length " ++ toString length
  | unset field => "Field '" ++ field ++ "' has no value"

end AccessError

namespace Value

def asBit : Value → Except AccessError Bool
  | bit truth => .ok truth
  | v => .error (.mismatch .bit v.kind)

def asBits : Value → Except AccessError (List (Option Bool))
  | bits lsbFirst => .ok lsbFirst
  | v => .error (.mismatch .bits v.kind)

def asInt : Value → Except AccessError Int64
  | int number => .ok number
  | v => .error (.mismatch .int v.kind)

def asText : Value → Except AccessError String
  | string text | code text => .ok text
  | v => .error (.mismatch .string v.kind)

def asList : Value → Except AccessError (Ty × List Value)
  | list element items => .ok (element, items)
  | v => .error (.mismatch .list v.kind)

def asDag : Value → Except AccessError (DagOperator × List (DagArg Value))
  | dag operator args => .ok (operator, args)
  | v => .error (.mismatch .dag v.kind)

def asRecord : Value → Except AccessError RecordRef
  | record ref => .ok ref
  | v => .error (.mismatch .record v.kind)

def listLength (v : Value) : Except AccessError Nat := v.asList.map (·.2.length)

def listElement (v : Value) (i : Nat) : Except AccessError Value := do
  let (_, items) ← v.asList
  match items[i]? with
  | some item => .ok item
  | none => .error (.outOfRange i items.length)

def dagOperator (v : Value) : Except AccessError DagOperator := v.asDag.map (·.1)

def dagLength (v : Value) : Except AccessError Nat := v.asDag.map (·.2.length)

def dagArgAt (v : Value) (i : Nat) : Except AccessError (DagArg Value) := do
  let (_, args) ← v.asDag
  match args[i]? with
  | some arg => .ok arg
  | none => .error (.outOfRange i args.length)

def dagArg (v : Value) (i : Nat) : Except AccessError (Option Value) := (v.dagArgAt i).map (·.value)

def dagArgName (v : Value) (i : Nat) : Except AccessError (Option String) :=
  (v.dagArgAt i).map (·.name)

end Value

namespace Record

def value (r : Record) (name : String) : Except AccessError Value :=
  match r.field? name with
  | none => .error (.noField name)
  | some f =>
    match f.value with
    | none => .error (.unset name)
    | some v => .ok v

def valueAsBit (r : Record) (name : String) : Except AccessError Bool := r.value name >>= Value.asBit

def valueAsBits (r : Record) (name : String) : Except AccessError (List (Option Bool)) :=
  r.value name >>= Value.asBits

def valueAsInt (r : Record) (name : String) : Except AccessError Int64 := r.value name >>= Value.asInt

def valueAsText (r : Record) (name : String) : Except AccessError String :=
  r.value name >>= Value.asText

def valueAsList (r : Record) (name : String) : Except AccessError (Ty × List Value) :=
  r.value name >>= Value.asList

def valueAsDag (r : Record) (name : String) :
    Except AccessError (DagOperator × List (DagArg Value)) :=
  r.value name >>= Value.asDag

def valueAsRecord (r : Record) (name : String) : Except AccessError RecordRef :=
  r.value name >>= Value.asRecord

end Record
end TypedRecords
