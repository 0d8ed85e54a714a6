import TypedRecords.Session
import TypedRecords.Foreign.Ledger

/-!
# Handles

What crosses the C interface in place of a record, a field or a value. A borrowed handle points
into the database of one session and lasts as long as the session does; an owned one is a result
that has to be given back.
-/

namespace TypedRecords.Foreign

/-- A handle that is not null. Sessions and owned results are numbered in order of their making. -/
inductive Handle
  | session (id : Nat)
  | database (id : Nat)
  | table (id : Nat) (side : Side)
  | item (id : Nat) (place : RecordPlace)
  | record (id : Nat) (place : RecordPlace)
  | field (id : Nat) (slot : SlotPlace)
  | value (id : Nat) (value : Value)
  | owned (number : Nat)

abbrev Pointer := Option Handle

/-- A text argument; none is a null pointer or bytes that are no text. -/
abbrev Text := Option String

/-- How a bit stands in an array of bits; an unset one is negative. -/
def bitCode : Option Bool → Int8
  | some true => 1
  | some false => 0
  | none => -1

inductive Content
  | string (text : String)
  | keys (names : List String)
  | bits (lsbFirst : List (Option Bool))
  | records (places : List RecordPlace)
  | pair (key : Option String) (value : Option Value)

namespace Content

def shape : Content → Shape
  | string _ => .string
  | keys _ => .keys
  | bits _ => .bits
  | records _ => .records
  | pair .. => .pair

end Content

/-- An owned result: the session it came from, what it holds, and whether it was given back. -/
structure Owned where
  session : Nat
  content : Content
  released : Bool

structure SessionState where
  source : String
  includeDirs : List String
  opened : Option Session
  lastError : Option String
  attempted : Bool
  freed : Bool

structure State where
  sessions : List SessionState
  owned : List Owned
  ledger : Ledger

/-- Why a call is refused without any effect. -/
inductive Refusal
  /-- The owned result was given back before; the argument's position tells which. -/
  | stale (argument : Nat)
  | otherKind
  | freedSession
  | missingIncludes
deriving DecidableEq, Repr

namespace State

def empty : State := ⟨[], [], .empty⟩

def isFreed (st : State) (id : Nat) : Bool :=
  match st.sessions[id]? with
  | some s => s.freed
  | none => true

def db? (st : State) (id : Nat) : Option Database :=
  (st.sessions[id]?.bind SessionState.opened).map Session.db

def sessionOf (st : State) : Handle → Option Nat
  | .session id | .database id | .table id _ | .item id _ | .record id _ | .field id _
  | .value id _ => some id
  | .owned number => st.owned[number]?.map Owned.session

def isReleased (st : State) : Handle → Bool
  | .owned number =>
    match st.owned[number]? with
    | some o => o.released
    | none => true
  | _ => false

/-- Checks the argument at a position: a released result is stale, `accept` says what is of the
kind asked for, and the session has to be there still. A null pointer passes. -/
def check {α : Type} (st : State) (argument : Nat) (accept : Handle → Option α) (p : Pointer) :
    Except Refusal (Option α) :=
  match p with
  | none => .ok none
  | some h =>
    if st.isReleased h then .error (.stale argument)
    else
      match accept h with
      | none => .error .otherKind
      | some a =>
        if (st.sessionOf h).any st.isFreed then .error .freedSession else .ok (some a)

/-! ## Arguments by kind -/

def sessionArg (st : State) : Pointer → Except Refusal (Option Nat) :=
  st.check 0 fun
    | .session id => some id
    | _ => none

def databaseArg (st : State) (p : Pointer) : Except Refusal (Option (Nat × Database)) := do
  let found ← st.check 0 (fun | .database id => some id | _ => none) p
  return found.bind fun id => (st.db? id).map (id, ·)

def tableArg (st : State) (p : Pointer) :
    Except Refusal (Option (Nat × Side × RecordTable)) := do
  let found ← st.check 0 (fun | .table id side => some (id, side) | _ => none) p
  return found.bind fun (id, side) => (st.db? id).map fun db => (id, side, db.table side)

def recordAt (st : State) (id : Nat) (place : RecordPlace) :
    Option (Nat × RecordPlace × Record) :=
  ((st.db? id).bind (·.record? place)).map (id, place, ·)

def itemArg (st : State) (p : Pointer) : Except Refusal (Option (Nat × RecordPlace × Record)) := do
  let found ← st.check 0 (fun | .item id place => some (id, place) | _ => none) p
  return found.bind fun (id, place) => st.recordAt id place

def recordArg (st : State) (p : Pointer) :
    Except Refusal (Option (Nat × RecordPlace × Record)) := do
  let found ← st.check 0 (fun | .record id place => some (id, place) | _ => none) p
  return found.bind fun (id, place) => st.recordAt id place

def slotArg (st : State) (argument : Nat) (p : Pointer) :
    Except Refusal (Option (Nat × SlotPlace)) :=
  st.check argument (fun | .field id slot => some (id, slot) | _ => none) p

def fieldArg (st : State) (p : Pointer) : Except Refusal (Option (Nat × Field)) := do
  let found ← st.slotArg 0 p
  return found.bind fun (id, slot) => ((st.db? id).bind (·.field? slot)).map (id, ·)

def valueArg (st : State) (p : Pointer) : Except Refusal (Option (Nat × Value)) :=
  st.check 0 (fun | .value id v => some (id, v) | _ => none) p

/-- The value of a field given in place of the value itself. -/
def fieldValueArg (st : State) (p : Pointer) : Except Refusal (Option (Nat × Value)) := do
  return (← st.fieldArg p).bind fun (id, f) => f.value.map (id, ·)

def ofShape (st : State) (shape : Shape) : Handle → Option (Nat × Owned)
  | .owned number =>
    match st.owned[number]? with
    | some o => if o.content.shape = shape then some (number, o) else none
    | none => none
  | _ => none

def ownedArg (st : State) (shape : Shape) (p : Pointer) :
    Except Refusal (Option (Nat × Owned)) :=
  st.check 0 (st.ofShape shape) p

end State
end TypedRecords.Foreign
