import TypedRecords.Foreign.Call
import TypedRecords.Proofs.Outcome

/-!
# Borrowed handles of an open session

As long as a session is open, every handle into its database is taken as an argument, and stands for
what is at its place.
-/

namespace TypedRecords.Foreign.State

/-- The session has parsed its source into the database and was not freed. -/
structure Opened (st : State) (id : Nat) (db : Database) : Prop where
  db : st.db? id = some db
  live : st.isFreed id = false

variable {st : State} {id : Nat} {db : Database}

/-- An argument that borrows from a session is not checked for more than its kind. -/
theorem check_of_live {α : Type} {argument : Nat} {accept : Handle → Option α} {h : Handle}
    (hlive : st.isFreed id = false) (hsession : st.sessionOf h = some id)
    (hreleased : st.isReleased h = false) {a : α} (ha : accept h = some a) :
    st.check argument accept (some h) = .ok (some a) := by
  simp [check, hreleased, ha, hsession, hlive]

theorem valueArg_of_live (hlive : st.isFreed id = false) (v : Value) :
    st.valueArg (some (.value id v)) = .ok (some (id, v)) := by
  rw [valueArg, check_of_live hlive] <;> rfl

namespace Opened
variable (h : st.Opened id db)
include h

theorem databaseArg : st.databaseArg (some (.database id)) = .ok (some (id, db)) := by
  rw [State.databaseArg, check_of_live (a := id) h.live rfl rfl rfl]
  exact congrArg (fun found : Option Database => Except.ok (found.map (id, ·))) h.db

theorem recordAt {place : RecordPlace} {r : Record} (hr : db.record? place = some r) :
    st.recordAt id place = some (id, place, r) := by
  rw [State.recordAt, h.db, Option.bind_some, hr]
  rfl

theorem itemArg {place : RecordPlace} {r : Record} (hr : db.record? place = some r) :
    st.itemArg (some (.item id place)) = .ok (some (id, place, r)) := by
  rw [State.itemArg, check_of_live (a := (id, place)) h.live rfl rfl rfl]
  exact congrArg Except.ok (h.recordAt hr)

theorem recordArg {place : RecordPlace} {r : Record} (hr : db.record? place = some r) :
    st.recordArg (some (.record id place)) = .ok (some (id, place, r)) := by
  rw [State.recordArg, check_of_live (a := (id, place)) h.live rfl rfl rfl]
  exact congrArg Except.ok (h.recordAt hr)

theorem slotArg (argument : Nat) (slot : SlotPlace) :
    st.slotArg argument (some (.field id slot)) = .ok (some (id, slot)) := by
  rw [State.slotArg, check_of_live h.live] <;> rfl

theorem fieldArg {slot : SlotPlace} {f : Field} (hf : db.field? slot = some f) :
    st.fieldArg (some (.field id slot)) = .ok (some (id, f)) := by
  rw [State.fieldArg, h.slotArg]
  refine congrArg Except.ok ?_
  simp only [Option.bind_some, h.db, hf, Option.map_some]

theorem fieldValueArg {slot : SlotPlace} {f : Field} (hf : db.field? slot = some f) :
    st.fieldValueArg (some (.field id slot)) = .ok (f.value.map (id, ·)) :=
  bind_of_ok (h.fieldArg hf) _

end Opened
end TypedRecords.Foreign.State
