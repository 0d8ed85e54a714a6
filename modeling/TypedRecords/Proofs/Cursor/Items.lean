import Mathlib.Data.List.Induction
import TypedRecords.Proofs.Cursor.Layout
import TypedRecords.Proofs.Foreign.Borrowed

/-!
# Records kept one after the other

Of the records that arrive at a table the first of each name is kept. The table, what it looks like in
memory and the cursor across the interface show these records in the order of their arrival
(`RecordTable.keepAll_holds`).
-/

namespace TypedRecords

/-- The records before which none of their name arrived, in order of arrival. -/
def firstArrivals (rs : List Record) : List Record :=
  (rs.zipIdx.filter fun x => (rs.take x.2).all fun s => s.name ≠ x.1.name).map Prod.fst

theorem firstArrivals_concat (rs : List Record) (r : Record) :
    firstArrivals (rs ++ [r]) =
      firstArrivals rs ++ if rs.all fun s => s.name ≠ r.name then [r] else [] := by
  have hbefore : ∀ x ∈ rs.zipIdx, (rs ++ [r]).take x.2 = rs.take x.2 := by
    rintro ⟨s, i⟩ hs
    have hi : i < rs.length := (List.getElem?_eq_some_iff.1 (List.mem_zipIdx_iff_getElem?.1 hs)).1
    exact List.take_append_of_le_length (Nat.le_of_lt hi)
  rw [firstArrivals, List.zipIdx_append, List.filter_append, List.map_append, firstArrivals]
  refine congrArg₂ _ (congrArg _ (List.filter_congr fun x hx => ?_)) ?_
  · rw [hbefore x hx]
  · rw [List.zipIdx_singleton, Nat.zero_add, List.filter_singleton]
    simp only [List.take_left]
    cases rs.all fun s => s.name ≠ r.name <;> rfl

namespace RecordTable
variable {t : RecordTable}

/-- The table after records were kept in it one after the other. -/
def keepAll (rs : List Record) : RecordTable := rs.foldl (fun t r => (t.keep r).table) .empty

theorem keepAll_concat (rs : List Record) (r : Record) :
    keepAll (rs ++ [r]) = ((keepAll rs).keep r).table := by
  rw [keepAll, List.foldl_append]
  rfl

theorem get?_table_keep (t : RecordTable) (r : Record) (name : String) :
    (t.keep r).table.get? name = (t.get? name).or (if r.name = name then some r else none) := by
  cases hr : t.get? r.name with
  | some earlier =>
    rw [keep_of_some hr]
    by_cases hname : r.name = name
    · rw [← hname, hr]
      rfl
    · rw [if_neg hname, Option.or_none]
  | none =>
    rw [get?, records_keep hr, List.find?_append, ← get?, List.find?_singleton]
    simp only [decide_eq_true_eq]

/-- A name finds the first record that arrived with it. -/
theorem get?_keepAll (rs : List Record) (name : String) :
    (keepAll rs).get? name = rs.find? fun r => r.name = name := by
  induction rs using List.reverseRecOn with
  | nil => rfl
  | append_singleton rs r ih =>
    rw [keepAll_concat, get?_table_keep, ih, List.find?_append, List.find?_singleton]
    simp only [decide_eq_true_eq]

theorem records_keepAll (rs : List Record) : (keepAll rs).records = firstArrivals rs := by
  induction rs using List.reverseRecOn with
  | nil => rfl
  | append_singleton rs r ih =>
    rw [keepAll_concat, firstArrivals_concat, ← ih]
    cases hr : (keepAll rs).get? r.name with
    | some earlier =>
      have hseen : ¬(rs.all fun s => s.name ≠ r.name) = true := by
        rw [get?_keepAll] at hr
        simpa using ⟨earlier, List.mem_of_find?_eq_some hr, by simpa using List.find?_some hr⟩
      rw [keep_of_some hr, if_neg hseen, List.append_nil]
    | none =>
      have hnew : (rs.all fun s => s.name ≠ r.name) = true := by
        rw [get?_keepAll] at hr
        simpa using hr
      rw [records_keep hr, if_pos hnew]

/-- The entries and the index after records were kept one after the other. -/
def Layout.keepAll? (rs : List Record) : Option Layout :=
  rs.foldlM (fun l r => (l.keep? r).map (·.1)) .empty

theorem Layout.shows_keepAll (rs : List Record) : ∃ l, keepAll? rs = some l ∧ l.Shows (keepAll rs) := by
  induction rs using List.reverseRecOn with
  | nil => exact ⟨.empty, rfl, .empty⟩
  | append_singleton rs r ih =>
    obtain ⟨l, hl, hshows⟩ := ih
    obtain ⟨l', hkeep, hshows'⟩ := hshows.keep r
    refine ⟨l', ?_, keepAll_concat rs r ▸ hshows'⟩
    rw [keepAll?, List.foldlM_append, ← keepAll?, hl, Option.bind_eq_bind, Option.bind_some,
      List.foldlM_cons, hkeep]
    rfl

end RecordTable

/-! ### The cursor across the interface -/

namespace Foreign.State

/-- What a caller is told is behind an item. -/
def NextItem (st : State) (h : Handle) (p : Pointer) : Prop :=
  st.ask (.nextItem (some h)) = .ok (.handle p)

namespace Opened
variable {st : State} {id : Nat} {db : Database} (h : st.Opened id db)
include h

theorem ask_nextItem {side : Side} {i : Nat} (hi : i < (db.table side).size) :
    st.NextItem (.item id ⟨side, i⟩)
      (if i + 1 < (db.table side).size then some (.item id ⟨side, i + 1⟩) else none) := by
  have hrecord : db.record? ⟨side, i⟩ = some (db.table side).records[i] := List.getElem?_eq_getElem hi
  refine (bind_of_ok (h.itemArg hrecord) _).trans ?_
  simp only [Option.bind_eq_bind, Option.bind_some, h.db, RecordTable.next?, RecordTable.isLast]
  by_cases hlast : i + 1 = (db.table side).size
  · simp [hlast]
    rfl
  · have hnext : i + 1 < (db.table side).size := Nat.lt_of_le_of_ne hi hlast
    simp [hlast, hnext]
    rfl

theorem ask_firstItem (side : Side) : st.ask (.firstItem side (some (.database id))) =
    .ok (.handle (if 0 < (db.table side).size then some (.item id ⟨side, 0⟩) else none)) := by
  refine (bind_of_ok h.databaseArg _).trans ?_
  cases hrecords : (db.table side).records <;>
    simp [RecordTable.first?, RecordTable.size, hrecords] <;> rfl

theorem walk_items (side : Side) :
    Walk st.NextItem (if 0 < (db.table side).size then some (.item id ⟨side, 0⟩) else none)
      ((List.range (db.table side).size).map fun i => .item id ⟨side, i⟩) :=
  Walk.range (f := fun i => Handle.item id ⟨side, i⟩) fun _ hi => h.ask_nextItem hi

theorem ask_itemName {side : Side} {i : Nat} {r : Record} (hr : (db.table side).item? i = some r) :
    st.ask (.itemName (some (.item id ⟨side, i⟩))) = .ok (.text (some r.name)) :=
  bind_of_ok (h.itemArg (show db.record? ⟨side, i⟩ = some r from hr)) _

theorem ask_itemRecord {side : Side} {i : Nat} {r : Record} (hr : (db.table side).item? i = some r) :
    st.ask (.itemRecord (some (.item id ⟨side, i⟩))) = .ok (.handle (some (.record id ⟨side, i⟩))) :=
  bind_of_ok (h.itemArg (show db.record? ⟨side, i⟩ = some r from hr)) _

end Opened
end Foreign.State

/-! ### What is kept -/

namespace RecordTable

/-- The entries, the marks and the index tell what the table tells. -/
structure Layout.Tells (l : Layout) (t : RecordTable) : Prop where
  records : l.entries.map Entry.record = t.records
  names : l.entries.map (fun e => e.record.name) = t.names
  get? : ∀ name, (l.get? name).map Entry.record = t.get? name
  contains : ∀ name, l.contains name = t.contains name
  keep : ∀ r, ∃ l', l.keep? r = some (l', (t.keep r).record, (t.keep r).already)
  /-- A record whose name is kept is answered with the earlier one, and nothing changes. -/
  again : ∀ r, l.contains r.name = true →
    ∃ e, l.get? r.name = some e ∧ l.keep? r = some (l, e.record, true)
  last : ∀ i e, l.entries[i]? = some e → (e.last = true ↔ i + 1 = l.entries.length)
  /-- A cursor that trusts the marks reads every entry once, in order, and no place without an entry. -/
  walk : Walk l.Next l.first? (List.range l.entries.length)

theorem Layout.Shows.tells {l : Layout} {t : RecordTable} (h : l.Shows t) : l.Tells t where
  records := h.map_record
  names := by
    rw [RecordTable.names, ← h.map_record, List.map_map]
    rfl
  get? := h.get?
  contains := h.contains
  keep r := by
    obtain ⟨l', hl', -⟩ := h.keep r
    exact ⟨l', hl'⟩
  again _ := h.keep?_again
  last _ _ := h.last_iff
  walk := h.length ▸ h.walk

/-- The table has kept the records `rs`, that arrived one after the other. -/
structure Holds (t : RecordTable) (rs : List Record) : Prop where
  /-- Of each name the first record is kept, in order of arrival. -/
  records : t.records = firstArrivals rs
  nodup : t.names.Nodup
  /-- A record whose name is kept is answered with the earlier one, and nothing changes. -/
  again : ∀ r ∈ t.records, ∀ s : Record, s.name = r.name → t.keep s = ⟨t, r, true⟩
  new : ∀ s : Record, s.name ∉ t.names → ∃ h, t.keep s = ⟨⟨t.records ++ [s], h⟩, s, false⟩
  get? : ∀ name r, t.get? name = some r ↔ r ∈ t.records ∧ r.name = name
  contains : ∀ name, t.contains name = true ↔ name ∈ t.names
  isLast : ∀ i r, t.item? i = some r → (t.isLast i = true ↔ t.item? (i + 1) = none)
  layout : ∃ l, Layout.keepAll? rs = some l ∧ l.Tells t
  /-- In any open session with the table, the items are visited in order, up to a null pointer. -/
  cursor : ∀ (st : Foreign.State) id db side, st.Opened id db → db.table side = t → ∃ p,
    st.ask (.firstItem side (some (.database id))) = .ok (.handle p) ∧
      Walk st.NextItem p ((List.range t.size).map fun i => .item id ⟨side, i⟩) ∧
      ∀ i r, t.item? i = some r →
        st.ask (.itemName (some (.item id ⟨side, i⟩))) = .ok (.text (some r.name)) ∧
          st.ask (.itemRecord (some (.item id ⟨side, i⟩))) =
            .ok (.handle (some (.record id ⟨side, i⟩)))

/-- Records that are kept one after the other are represented by the first of each name, in order. -/
theorem keepAll_holds (rs : List Record) : (keepAll rs).Holds rs where
  records := records_keepAll rs
  nodup := (keepAll rs).nodup
  again _ hr s hs := keep_of_some (hs ▸ get?_of_mem hr)
  new _ hs := ⟨_, keep_of_none (get?_eq_none.2 hs)⟩
  get? name r := by
    refine ⟨fun h => ⟨mem_of_get? h, name_of_get? h⟩, fun h => ?_⟩
    exact h.2 ▸ get?_of_mem h.1
  contains name := by
    rw [contains_eq_isSome, Option.isSome_iff_ne_none, ne_eq, get?_eq_none, not_not]
  isLast i r hr := by
    have hi : i < (keepAll rs).size := (List.getElem?_eq_some_iff.1 hr).1
    rw [isLast, beq_iff_eq, item?, List.getElem?_eq_none_iff]
    exact ⟨fun h => Nat.le_of_eq h.symm, fun h => Nat.le_antisymm hi h⟩
  layout := by
    obtain ⟨l, hl, hshows⟩ := Layout.shows_keepAll rs
    exact ⟨l, hl, hshows.tells⟩
  cursor st id db side h ht := by
    rw [← ht]
    exact ⟨_, h.ask_firstItem side, h.walk_items side,
      fun i r hr => ⟨h.ask_itemName hr, h.ask_itemRecord hr⟩⟩

/-- Five records, of which two have the name of an earlier one. -/
def arrivals : List Record :=
  [⟨"A", false, true, [], [], [], false⟩, ⟨"B", false, false, [], [], [], false⟩,
    ⟨"A", true, false, [], [], [], false⟩, ⟨"C", false, false, [], ["A"], ["A"], false⟩,
    ⟨"B", true, true, [], [], [], false⟩]

theorem arrivals_held : (keepAll arrivals).records =
      [⟨"A", false, true, [], [], [], false⟩, ⟨"B", false, false, [], [], [], false⟩,
        ⟨"C", false, false, [], ["A"], ["A"], false⟩] ∧
    (∃ l, Layout.keepAll? arrivals = some l ∧ l.entries.map Entry.last = [false, false, true] ∧
      Walk l.Next l.first? [0, 1, 2]) ∧ (keepAll arrivals).Holds arrivals := by
  have hholds := keepAll_holds arrivals
  obtain ⟨l, hl, htells⟩ := hholds.layout
  have hlast : (Layout.keepAll? arrivals).map (fun l => l.entries.map Entry.last) =
      some [false, false, true] := by decide +kernel
  have hflags : l.entries.map Entry.last = [false, false, true] := by
    rw [hl] at hlast
    exact Option.some.inj hlast
  have hlength : l.entries.length = 3 := by simpa using congrArg List.length hflags
  have hwalk := htells.walk
  rw [hlength] at hwalk
  exact ⟨by decide +kernel, ⟨l, hl, hflags, hwalk⟩, hholds⟩

end RecordTable
end TypedRecords
