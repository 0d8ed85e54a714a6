import TypedRecords.Foreign.Handle
import TypedRecords.Value.Access

/-!
# Queries across the interface

Calls that answer a borrowed handle or a plain value. They change nothing, and a null handle or an
unknown name gets a null, a zero, a false or the invalid kind.
-/

namespace TypedRecords.Foreign

inductive Result
  | handle (p : Pointer)
  /-- An array; its length is told only where the caller asked for it. -/
  | array (p : Pointer) (length : Option Nat)
  | truth (b : Bool)
  | kind (k : Kind)
  | count (n : Nat)
  | text (t : Option String)
  /-- What was written through the out pointer; nothing where the call failed. -/
  | out (written : Option Int64)
  | done

/-- Calls without effect. `out` says that the caller gave an out pointer. -/
inductive Query
  | lastError (session : Pointer)
  | database (session : Pointer)
  | table (side : Side) (database : Pointer)
  | find (side : Side) (database : Pointer) (name : Text)
  | vectorGet (vector : Pointer) (index : Nat)
  | firstItem (side : Side) (database : Pointer)
  | nextItem (item : Pointer)
  | itemName (item : Pointer)
  | itemRecord (item : Pointer)
  | tableFirst (table : Pointer)
  | tableGet (table : Pointer) (name : Text)
  | recordName (record : Pointer)
  | recordDatabase (record : Pointer)
  | recordField (record : Pointer) (name : Text)
  | recordFieldKind (record : Pointer) (name : Text)
  | isAnonymous (record : Pointer)
  | isSubclassOf (record : Pointer) (name : Text)
  | firstField (record : Pointer)
  | nextField (record field : Pointer)
  | fieldName (field : Pointer)
  | fieldKind (field : Pointer)
  | elementKind (field : Pointer)
  | fieldValue (field : Pointer)
  | fieldBit (field : Pointer) (out : Bool)
  | fieldInt (field : Pointer) (out : Bool)
  | fieldRecord (field : Pointer)
  | valueKind (value : Pointer)
  | valueBit (value : Pointer) (out : Bool)
  | valueInt (value : Pointer) (out : Bool)
  | valueRecord (value : Pointer)
  | listGet (value : Pointer) (index : Nat)
  | listLength (value : Pointer)
  | dagGet (value : Pointer) (index : Nat)
  | dagArgName (value : Pointer) (index : Nat)
  | dagLength (value : Pointer)
  | dagOperator (value : Pointer)
  | dagOperatorName (value : Pointer)
  | pairKey (pair : Pointer)
  | pairValue (pair : Pointer)

def refHandle (id : Nat) (ref : RecordRef) : Handle := .record id ⟨.defs, ref.target⟩

def bitOut (v : Value) (out : Bool) : Option Int64 :=
  match v.asBit with
  | .ok b => if out then some (if b then 1 else 0) else none
  | .error _ => none

def intOut (v : Value) (out : Bool) : Option Int64 :=
  match v.asInt with
  | .ok n => if out then some n else none
  | .error _ => none

def recordOf (id : Nat) (v : Value) : Pointer :=
  match v.asRecord with
  | .ok ref => some (refHandle id ref)
  | .error _ => none

/-- The def that is a dag's operator; none for an operator that is a name. -/
def operatorOf (id : Nat) (v : Value) : Pointer :=
  match v.dagOperator with
  | .ok (.record ref) => some (refHandle id ref)
  | _ => none

namespace State

def ask (st : State) : Query → Except Refusal Result
  | .lastError p => do
    let id ← st.sessionArg p
    return .text ((id.bind (st.sessions[·]?)).bind SessionState.lastError)
  | .database p => do
    let id ← st.sessionArg p
    return .handle (id.bind fun id => (st.db? id).map fun _ => .database id)
  | .table side p => do
    return .handle ((← st.databaseArg p).map fun (id, _) => .table id side)
  | .find side p name => do
    let found ← st.databaseArg p
    return .handle do
      let (id, db) ← found
      let place ← db.place? side (← name)
      return .record id place
  | .vectorGet p index => do
    let found ← st.ownedArg .records p
    return .handle do
      let (_, o) ← found
      match o.content with
      | .records places => return .record o.session (← places[index]?)
      | _ => none
  | .firstItem side p => do
    let found ← st.databaseArg p
    return .handle do
      let (id, db) ← found
      let _ ← (db.table side).first?
      return .item id ⟨side, 0⟩
  | .nextItem p => do
    let found ← st.itemArg p
    return .handle do
      let (id, place, _) ← found
      let db ← st.db? id
      let next ← (db.table place.side).next? place.position
      return .item id ⟨place.side, next⟩
  | .itemName p => do
    return .text ((← st.itemArg p).map fun (_, _, r) => r.name)
  | .itemRecord p => do
    return .handle ((← st.itemArg p).map fun (id, place, _) => .record id place)
  | .tableFirst p => do
    let found ← st.tableArg p
    return .handle do
      let (id, side, t) ← found
      let _ ← t.first?
      return .record id ⟨side, 0⟩
  | .tableGet p name => do
    let found ← st.tableArg p
    return .handle do
      let (id, side, t) ← found
      return .record id ⟨side, ← t.index? (← name)⟩
  | .recordName p => do
    return .text ((← st.recordArg p).map fun (_, _, r) => r.name)
  | .recordDatabase p => do
    let found ← st.recordArg p
    return .handle do
      let (id, _, r) ← found
      if r.linked then return .database id else none
  | .recordField p name => do
    let found ← st.recordArg p
    return .handle do
      let (id, place, r) ← found
      return .field id ⟨place, ← r.fieldIndex? (← name)⟩
  | .recordFieldKind p name => do
    let found ← st.recordArg p
    let kind : Option Kind := do
      let (_, _, r) ← found
      r.fieldKind? (← name)
    return .kind (kind.getD .invalid)
  | .isAnonymous p => do
    return .truth ((← st.recordArg p).any fun (_, _, r) => r.anonymous)
  | .isSubclassOf p name => do
    return .truth ((← st.recordArg p).any fun (_, _, r) => name.any r.isSubclassOf)
  | .firstField p => do
    let found ← st.recordArg p
    return .handle do
      let (id, place, r) ← found
      return .field id ⟨place, ← r.firstField?⟩
  | .nextField p q => do
    let found ← st.recordArg p
    let current ← st.slotArg 1 q
    return .handle do
      let (id, place, _) ← found
      let (other, slot) ← current
      if other = id then
        let db ← st.db? id
        return .field id (← db.nextSlot? place slot)
      else none
  | .fieldName p => do
    return .text ((← st.fieldArg p).map fun (_, f) => f.name)
  | .fieldKind p => do
    return .kind (((← st.fieldArg p).map fun (_, f) => f.kind).getD .invalid)
  | .elementKind p => do
    return .kind (((← st.fieldArg p).bind fun (_, f) => f.type.element?.map Ty.kind).getD .invalid)
  | .fieldValue p => do
    return .handle ((← st.fieldValueArg p).map fun (id, v) => .value id v)
  | .fieldBit p out => do
    return .out ((← st.fieldValueArg p).bind fun (_, v) => bitOut v out)
  | .fieldInt p out => do
    return .out ((← st.fieldValueArg p).bind fun (_, v) => intOut v out)
  | .fieldRecord p => do
    return .handle ((← st.fieldValueArg p).bind fun (id, v) => recordOf id v)
  | .valueKind p => do
    return .kind (((← st.valueArg p).map fun (_, v) => v.kind).getD .invalid)
  | .valueBit p out => do
    return .out ((← st.valueArg p).bind fun (_, v) => bitOut v out)
  | .valueInt p out => do
    return .out ((← st.valueArg p).bind fun (_, v) => intOut v out)
  | .valueRecord p => do
    return .handle ((← st.valueArg p).bind fun (id, v) => recordOf id v)
  | .listGet p index => do
    return .handle ((← st.valueArg p).bind fun (id, v) =>
      (v.listElement index).toOption.map fun w => .value id w)
  | .listLength p => do
    return .count (((← st.valueArg p).bind fun (_, v) => v.listLength.toOption).getD 0)
  | .dagGet p index => do
    return .handle ((← st.valueArg p).bind fun (id, v) =>
      (v.dagArg index).toOption.join.map fun w => .value id w)
  | .dagArgName p index => do
    return .text ((← st.valueArg p).bind fun (_, v) => (v.dagArgName index).toOption.join)
  | .dagLength p => do
    return .count (((← st.valueArg p).bind fun (_, v) => v.dagLength.toOption).getD 0)
  | .dagOperator p => do
    return .handle ((← st.valueArg p).bind fun (id, v) => operatorOf id v)
  | .dagOperatorName p => do
    return .text ((← st.valueArg p).bind fun (_, v) =>
      v.dagOperator.toOption.map DagOperator.text)
  | .pairKey p => do
    let found ← st.ownedArg .pair p
    return .text do
      let (_, o) ← found
      match o.content with
      | .pair key _ => key
      | _ => none
  | .pairValue p => do
    let found ← st.ownedArg .pair p
    return .handle do
      let (_, o) ← found
      match o.content with
      | .pair _ value => return .value o.session (← value)
      | _ => none

end State
end TypedRecords.Foreign
