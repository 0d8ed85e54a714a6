import Mathlib.Data.List.Nodup
import TypedRecords.Database

/-!
# Growing tables

A table only grows at its end, and a record that is found by its name or by its position stays
where it is.
-/

namespace TypedRecords

namespace RecordTable
variable {t : RecordTable}

theorem contains_eq_isSome (t : RecordTable) (name : String) :
    t.contains name = (t.get? name).isSome := by
  simp [contains, get?, List.isSome_find?]

theorem name_of_get? {name : String} {r : Record} (h : t.get? name = some r) : r.name = name := by
  simpa using List.find?_some h

theorem mem_of_get? {name : String} {r : Record} (h : t.get? name = some r) : r ∈ t.records :=
  List.mem_of_find?_eq_some h

theorem get?_of_mem {r : Record} (hr : r ∈ t.records) : t.get? r.name = some r := by
  cases h : t.get? r.name with
  | none => exact absurd (List.mem_map_of_mem hr) (get?_eq_none.1 h)
  | some s => rw [List.inj_on_of_nodup_map t.nodup (mem_of_get? h) hr (name_of_get? h)]

/-! ### Keeping a record -/

theorem records_keep {r : Record} (h : t.get? r.name = none) :
    (t.keep r).table.records = t.records ++ [r] := by
  rw [keep_of_none h]
  rfl

theorem prefix_keep (t : RecordTable) (r : Record) : t.records <+: (t.keep r).table.records := by
  cases h : t.get? r.name with
  | none => exact records_keep h ▸ List.prefix_append ..
  | some s => exact (keep_of_some h).symm ▸ List.prefix_rfl

theorem mem_keep {r s : Record} (h : s ∈ (t.keep r).table.records) : s ∈ t.records ∨ s = r := by
  cases hr : t.get? r.name with
  | none =>
    rw [records_keep hr] at h
    simpa using h
  | some q =>
    rw [keep_of_some hr] at h
    exact .inl h

theorem get?_keep {r s : Record} {name : String} (h : t.get? name = some s) :
    (t.keep r).table.get? name = some s := by
  obtain ⟨rest, hrest⟩ := t.prefix_keep r
  rw [get?, ← hrest, List.find?_append, ← get?, h]
  rfl

theorem item?_keep {r s : Record} {i : Nat} (h : t.item? i = some s) :
    (t.keep r).table.item? i = some s := by
  obtain ⟨rest, hrest⟩ := t.prefix_keep r
  have hi : i < t.records.length := (List.getElem?_eq_some_iff.1 h).1
  rw [item?, ← hrest, List.getElem?_append_left hi]
  exact h

theorem item?_of_index? {name : String} {i : Nat} (h : t.index? name = some i) :
    ∃ r, t.item? i = some r ∧ r.name = name := by
  obtain ⟨hi, hname, -⟩ := List.findIdx?_eq_some_iff_getElem.1 h
  exact ⟨t.records[i], List.getElem?_eq_getElem hi, by simpa using hname⟩

theorem item?_keep_eq_some {r s : Record} {i : Nat} (h : (t.keep r).table.item? i = some s) :
    t.item? i = some s ∨ (i = t.size ∧ s = r) := by
  cases hr : t.get? r.name with
  | some earlier =>
    rw [keep_of_some hr] at h
    exact .inl h
  | none =>
    rw [item?, records_keep hr] at h
    rcases Nat.lt_or_ge i t.records.length with hi | hi
    · rw [List.getElem?_append_left hi] at h
      exact .inl h
    · rw [List.getElem?_append_right hi] at h
      obtain ⟨hlt, hs⟩ := List.getElem?_eq_some_iff.1 h
      have hi' : i - t.records.length = 0 := by simpa using hlt
      simp only [hi', List.getElem_cons_zero] at hs
      exact .inr ⟨Nat.le_antisymm (Nat.le_of_sub_eq_zero hi') hi, hs.symm⟩

theorem lt_size_of_index? {name : String} {i : Nat} (h : t.index? name = some i) : i < t.size :=
  (List.findIdx?_eq_some_iff_getElem.1 h).1

theorem index?_keep {r : Record} {name : String} {i : Nat} (h : t.index? name = some i) :
    (t.keep r).table.index? name = some i := by
  obtain ⟨rest, hrest⟩ := t.prefix_keep r
  have h : t.records.findIdx? (fun s => s.name = name) = some i := h
  rw [index?, ← hrest, List.findIdx?_append, h]
  rfl

/-- The record that a name finds stands at the position that the name finds. -/
theorem get?_eq_item? {name : String} {i : Nat} (h : t.index? name = some i) :
    t.get? name = t.item? i := by
  obtain ⟨hi, hname, hbefore⟩ := List.findIdx?_eq_some_iff_getElem.1 h
  rw [item?, List.getElem?_eq_getElem hi]
  refine List.find?_eq_some_iff_getElem.2 ⟨hname, i, hi, rfl, fun j hj => ?_⟩
  simpa using hbefore j hj

/-! ### Linking -/

theorem get?_link (t : RecordTable) (name : String) :
    t.link.get? name = (t.get? name).map fun r => { r with linked := true } := by
  rw [get?, link, map, List.find?_map]
  rfl

theorem index?_link (t : RecordTable) (name : String) : t.link.index? name = t.index? name := by
  rw [index?, link, map, List.findIdx?_map]
  rfl

theorem item?_link_eq_some {i : Nat} {r : Record} (h : t.link.item? i = some r) :
    ∃ q, t.item? i = some q ∧ { q with linked := true } = r := by
  have h : (t.records.map fun q => { q with linked := true })[i]? = some r := h
  rw [List.getElem?_map] at h
  exact Option.map_eq_some_iff.1 h

end RecordTable

/-- In the place of every record of `s` has `t` one with the same name and superclasses. -/
def Store.Le (s t : Store) : Prop :=
  ∀ i r, s i = some r → ∃ r', t i = some r' ∧ r'.name = r.name ∧ r'.superclasses = r.superclasses

namespace Database

theorem table_link (db : Database) (side : Side) : db.link.table side = (db.table side).link := by
  cases side <;> rfl

theorem exists_of_ref? {db : Database} {name : String} {ref : RecordRef} (h : db.ref? name = some ref) :
    ∃ r, ref.get? db.store = some r ∧ r.name = name := by
  obtain ⟨i, hi, rfl⟩ := Option.map_eq_some_iff.1 h
  exact RecordTable.item?_of_index? hi

theorem name_of_ref? {db : Database} {name : String} {ref : RecordRef} (h : db.ref? name = some ref) :
    ref.name = name := by
  obtain ⟨i, -, rfl⟩ := Option.map_eq_some_iff.1 h
  rfl

theorem ref?_eq_some_iff {db : Database} {ref : RecordRef} :
    db.ref? ref.name = some ref ↔ db.defs.index? ref.name = some ref.target := by
  refine ⟨fun h => ?_, fun h => by rw [ref?, h]; rfl⟩
  obtain ⟨i, hi, href⟩ := Option.map_eq_some_iff.1 h
  rw [hi, ← href]

theorem ref?_keep {db : Database} {r : Record} {name : String} {ref : RecordRef}
    (h : db.ref? name = some ref) :
    Database.ref? { db with defs := (db.defs.keep r).table } name = some ref := by
  obtain ⟨i, hi, rfl⟩ := Option.map_eq_some_iff.1 h
  rw [ref?, RecordTable.index?_keep hi]
  rfl

theorem ref?_link (db : Database) (name : String) : db.link.ref? name = db.ref? name := by
  rw [ref?, ref?]
  exact congrArg (Option.map _) (RecordTable.index?_link db.defs name)

theorem store_le_link (db : Database) : db.store.Le db.link.store := by
  intro i r hr
  refine ⟨{ r with linked := true }, ?_, rfl, rfl⟩
  have hi : db.defs.records[i]? = some r := hr
  show (db.defs.records.map _)[i]? = _
  rw [List.getElem?_map, hi]
  rfl

end Database
end TypedRecords
