import Mathlib.Data.List.AList
import Mathlib.Data.List.Indexes
import TypedRecords.Proofs.Cursor.Walk
import TypedRecords.Proofs.Tables

/-!
# Tables as they are laid out

A table lies in memory as entries one behind the other, each marked as the final one or not, beside an
index of their positions by name. Keeping a record updates the three together, and from the empty table on
they say the same as the table does (`Layout.Shows.keep`): what the index leads to is an entry of the name,
and just the final entry is marked. So a cursor that goes by the marks alone reads all entries and nothing
else (`Layout.Shows.walk`).
-/

namespace TypedRecords

/-- Positions by name. A name that is entered again has its later position. -/
abbrev NameIndex := AList fun _ : String => Nat

namespace RecordTable

/-- A record in its place; `last` marks it as the final one. -/
structure Entry where
  record : Record
  last : Bool

structure Layout where
  entries : List Entry
  index : NameIndex

namespace Layout

def empty : Layout := ⟨[], ∅⟩

def unmarkLast (es : List Entry) : List Entry :=
  es.modify (es.length - 1) fun e => { e with last := false }

/-- Keeps a record, unless one with its name is there already. Answers the record that is kept under the
name, and whether it was there before; none where the index leads to no entry. -/
def keep? (l : Layout) (r : Record) : Option (Layout × Record × Bool) :=
  match l.index.lookup r.name with
  | some i => l.entries[i]?.map fun e => (l, e.record, true)
  | none =>
    some (⟨unmarkLast l.entries ++ [⟨r, true⟩], l.index.insert r.name l.entries.length⟩, r, false)

/-- The entry that a name leads to. -/
def get? (l : Layout) (name : String) : Option Entry :=
  (l.index.lookup name).bind fun i => l.entries[i]?

def contains (l : Layout) (name : String) : Bool := (l.index.lookup name).isSome

def first? (l : Layout) : Option Nat := if l.entries.isEmpty then none else some 0

/-- Where a cursor goes from the entry at `i`, which it has to read. -/
def Next (l : Layout) (i : Nat) (p : Option Nat) : Prop :=
  ∃ e, l.entries[i]? = some e ∧ p = if e.last then none else some (i + 1)

/-- The entries are those of the table, and the index leads where the table finds a name. -/
structure Shows (l : Layout) (t : RecordTable) : Prop where
  entries : l.entries = t.records.mapIdx fun i r => ⟨r, t.isLast i⟩
  index : ∀ name, l.index.lookup name = t.index? name

variable {l : Layout} {t : RecordTable}

theorem unmarkLast_mapIdx (t : RecordTable) :
    unmarkLast (t.records.mapIdx fun i r => ⟨r, t.isLast i⟩) = t.records.map (⟨·, false⟩) := by
  refine List.ext_getElem? fun i => ?_
  rw [unmarkLast, List.getElem?_modify, List.getElem?_mapIdx, List.getElem?_map, List.length_mapIdx]
  rcases Nat.lt_or_ge i t.records.length with hi | hi
  · rw [List.getElem?_eq_getElem hi]
    by_cases hlast : t.records.length - 1 = i
    · simp [hlast]
    · have hnot : t.isLast i = false := by
        simp only [isLast, size, beq_eq_false_iff_ne]
        omega
      simp [hlast, hnot]
  · rw [List.getElem?_eq_none hi]
    simp

theorem mapIdx_isLast_push {r : Record} (h : t.get? r.name = none) :
    ((t.push r h).records.mapIdx fun i s => (⟨s, (t.push r h).isLast i⟩ : Entry)) =
      t.records.map (⟨·, false⟩) ++ [⟨r, true⟩] := by
  rw [push, List.mapIdx_append_one]
  refine congrArg₂ _ (List.ext_getElem? fun i => ?_) ?_
  · rw [List.getElem?_mapIdx, List.getElem?_map]
    rcases Nat.lt_or_ge i t.records.length with hi | hi
    · have hnot : (t.push r h).isLast i = false := by
        simp only [isLast, size, push, List.length_append, List.length_singleton, beq_eq_false_iff_ne]
        omega
      change (t.records[i]?.map fun s => (⟨s, (t.push r h).isLast i⟩ : Entry)) = _
      rw [hnot]
    · rw [List.getElem?_eq_none hi]
      rfl
  · simp [isLast, size]

theorem index?_push {r : Record} (h : t.get? r.name = none) (name : String) :
    (t.push r h).index? name = (t.index? name).or (if r.name = name then some t.size else none) := by
  rw [index?, push, List.findIdx?_append]
  by_cases hname : r.name = name <;> simp [index?, size, hname]

namespace Shows

theorem empty : Layout.empty.Shows .empty := ⟨rfl, fun name => AList.lookup_empty name⟩

theorem getElem? (h : l.Shows t) (i : Nat) :
    l.entries[i]? = (t.item? i).map (⟨·, t.isLast i⟩) := by
  rw [h.entries, List.getElem?_mapIdx]
  rfl

theorem length (h : l.Shows t) : l.entries.length = t.size := by
  rw [h.entries, List.length_mapIdx]
  rfl

theorem map_record (h : l.Shows t) : l.entries.map Entry.record = t.records := by
  refine List.ext_getElem? fun i => ?_
  rw [List.getElem?_map, h.getElem?, Option.map_map]
  exact Option.map_id'

theorem get? (h : l.Shows t) (name : String) : (l.get? name).map Entry.record = t.get? name := by
  rw [Layout.get?, h.index]
  cases hi : t.index? name with
  | none =>
    have hnone : t.get? name = none := by
      rw [get?_eq_none, names, List.mem_map]
      rintro ⟨r, hr, hname⟩
      exact absurd hname (by simpa using List.findIdx?_eq_none_iff.1 hi r hr)
    rw [hnone]
    rfl
  | some i =>
    rw [Option.bind_some, h.getElem?, get?_eq_item? hi, Option.map_map]
    exact Option.map_id'

theorem contains (h : l.Shows t) (name : String) : l.contains name = t.contains name := by
  rw [Layout.contains, h.index, contains_eq_isSome, ← h.get?, Option.isSome_map, Layout.get?, h.index]
  cases hi : t.index? name with
  | none => rfl
  | some i =>
    obtain ⟨r, hr, -⟩ := item?_of_index? hi
    rw [Option.bind_some, h.getElem?, hr]
    rfl

/-- Keeping a record answers what the table answers, and leaves what shows the table after it. -/
theorem keep (h : l.Shows t) (r : Record) : ∃ l', l.keep? r = some (l', (t.keep r).record, (t.keep r).already) ∧
    l'.Shows (t.keep r).table := by
  cases hi : t.index? r.name with
  | some i =>
    obtain ⟨earlier, hitem, -⟩ := item?_of_index? hi
    have hget : t.get? r.name = some earlier := (get?_eq_item? hi).trans hitem
    rw [keep_of_some hget]
    refine ⟨l, ?_, h⟩
    rw [keep?, h.index, hi]
    simp only [h.getElem?, hitem, Option.map_some]
  | none =>
    have hget : t.get? r.name = none := by
      rw [← h.get?, Layout.get?, h.index, hi]
      rfl
    rw [keep_of_none hget]
    refine ⟨⟨unmarkLast l.entries ++ [⟨r, true⟩], l.index.insert r.name l.entries.length⟩, ?_, ?_, fun name => ?_⟩
    · rw [keep?, h.index, hi]
    · rw [h.entries, unmarkLast_mapIdx, mapIdx_isLast_push]
    · rw [index?_push]
      by_cases hname : r.name = name
      · subst hname
        rw [AList.lookup_insert, hi, h.length, if_pos rfl, Option.none_or]
      · rw [AList.lookup_insert_ne (Ne.symm hname), h.index, if_neg hname, Option.or_none]

/-- A cursor that trusts the marks reads every entry once, in order, and no place without an entry. -/
theorem walk (h : l.Shows t) : Walk l.Next l.first? (List.range t.size) := by
  have hfirst : l.first? = if 0 < t.size then some 0 else none := by
    rw [← h.length, first?]
    cases l.entries <;> rfl
  rw [hfirst, ← List.map_id (List.range t.size)]
  refine Walk.range (f := id) fun i hi => ?_
  have hi : i < t.records.length := hi
  refine ⟨⟨t.records[i], t.isLast i⟩, ?_, ?_⟩
  · rw [id, h.getElem?, item?, List.getElem?_eq_getElem hi]
    rfl
  · by_cases hlast : i + 1 = t.size
    · simp [isLast, hlast]
    · have hnext : i + 1 < t.size := Nat.lt_of_le_of_ne hi hlast
      simp [isLast, hlast, hnext]

theorem keep?_again (h : l.Shows t) {r : Record} (hr : l.contains r.name = true) :
    ∃ e, l.get? r.name = some e ∧ l.keep? r = some (l, e.record, true) := by
  obtain ⟨i, hi⟩ := Option.isSome_iff_exists.1 hr
  obtain ⟨s, hs, -⟩ := item?_of_index? ((h.index _).symm.trans hi)
  have he : l.entries[i]? = some ⟨s, t.isLast i⟩ := by rw [h.getElem?, hs]; rfl
  exact ⟨_, by rw [Layout.get?, hi, Option.bind_some, he], by rw [keep?, hi]; simp only [he, Option.map_some]⟩

theorem last_iff (h : l.Shows t) {i : Nat} {e : Entry} (he : l.entries[i]? = some e) :
    e.last = true ↔ i + 1 = l.entries.length := by
  rw [h.getElem?] at he
  obtain ⟨r, -, rfl⟩ := Option.map_eq_some_iff.1 he
  rw [h.length]
  exact beq_iff_eq

end Shows
end Layout
end RecordTable
end TypedRecords
