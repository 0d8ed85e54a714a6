import Mathlib.Data.Nat.Find
import TypedRecords.Proofs.Cursor.Layout
import TypedRecords.Proofs.Foreign.Borrowed
import TypedRecords.Proofs.Superclass.Shape

/-!
# The cursor of the fields

The cursor finds its own place by the name of the field that it is at, and of several fields with one name
a name finds the last. So it stops at the first field whose name occurs again behind it, and goes on to the
end of a record in which no name occurs twice (`Record.walk_fields`). A slot that is not the one its name
finds in the record, such as any slot of another record, leads nowhere.
-/

namespace TypedRecords

namespace Record
variable {r : Record} {name : String} {i : Nat} {f : Field}

/-! ### Finding fields -/

/-- The index of the fields by name, entered one after the other. -/
def nameIndex (fs : List Field) : NameIndex :=
  fs.zipIdx.foldl (fun index x => index.insert x.1.name x.2) ∅

theorem lookup_foldl_insert (fs : List Field) (start : Nat) (index : NameIndex) :
    ((fs.zipIdx start).foldl (fun index x => index.insert x.1.name x.2) index).lookup name =
      (fieldIndex?.lastIndex? name fs start).or (index.lookup name) := by
  induction fs generalizing start index with
  | nil => rfl
  | cons f fs ih =>
    rw [List.zipIdx_cons, List.foldl_cons, ih, fieldIndex?.lastIndex?]
    cases fieldIndex?.lastIndex? name fs (start + 1) with
    | some j => rfl
    | none =>
      by_cases hname : f.name = name
      · subst hname
        simp [AList.lookup_insert]
      · simp [AList.lookup_insert_ne (Ne.symm hname), hname]

/-- A later field of a name replaces the earlier one, so that a name finds the last. -/
theorem lookup_nameIndex (r : Record) (name : String) :
    (nameIndex r.fields).lookup name = r.fieldIndex? name := by
  rw [nameIndex, lookup_foldl_insert, AList.lookup_empty, Option.or_none, fieldIndex?]

theorem le_of_lastIndex? {fs : List Field} {start k : Nat} {g : Field}
    (h : fieldIndex?.lastIndex? name fs start = some i) (hg : fs[k]? = some g) (hname : g.name = name) :
    start + k ≤ i := by
  induction fs generalizing start k with
  | nil => cases hg
  | cons f fs ih =>
    rw [fieldIndex?.lastIndex?] at h
    cases hrest : fieldIndex?.lastIndex? name fs (start + 1) with
    | some j =>
      rw [hrest] at h
      cases h
      cases k with
      | zero =>
        obtain ⟨m, -, rfl, -⟩ := getElem?_of_lastIndex? hrest
        omega
      | succ k =>
        have hle := ih hrest hg
        omega
    | none =>
      cases k with
      | zero =>
        rw [hrest, Option.orElse_none] at h
        split at h
        · cases h
          exact Nat.le_refl _
        · cases h
      | succ k =>
        have hg : fs[k]? = some g := hg
        have hsome := isSome_lastIndex? ⟨g, List.mem_of_getElem? hg, hname⟩ (start + 1)
        rw [hrest] at hsome
        cases hsome

/-- The name of a field finds that very field just if it does not occur again behind it. -/
theorem fieldIndex?_self_iff (hf : r.fields[i]? = some f) :
    r.fieldIndex? f.name = some i ↔ ∀ j g, i < j → r.fields[j]? = some g → g.name ≠ f.name := by
  constructor
  · intro h j g hij hg hname
    have hle := le_of_lastIndex? h hg hname
    omega
  · intro h
    obtain ⟨k, hk⟩ := Option.isSome_iff_exists.1
      (isSome_lastIndex? ⟨f, List.mem_of_getElem? hf, rfl⟩ 0)
    obtain ⟨j, g, rfl, hg, hname⟩ := getElem?_of_lastIndex? hk
    have hle := le_of_lastIndex? hk hf rfl
    obtain hlt | heq := Nat.lt_or_eq_of_le hle
    · exact absurd hname (h j g (by omega) hg)
    · rw [fieldIndex?, hk, ← heq, Nat.zero_add]

/-! ### The walk of the cursor -/

/-- The cursor goes no further: the field is the last one, or its name occurs again behind it. -/
def Stops (r : Record) (k : Nat) : Prop :=
  k + 1 = r.fields.length ∨
    ∃ f, r.fields[k]? = some f ∧ ∃ j g, k < j ∧ r.fields[j]? = some g ∧ g.name = f.name

/-- The first field at which the cursor goes no further. -/
structure FirstStop (r : Record) (k : Nat) : Prop where
  lt : k < r.fields.length
  stops : r.Stops k
  first : ∀ j, j < k → ¬r.Stops j

theorem nextField?_of_stops (h : r.Stops i) : r.nextField? i = none := by
  rw [nextField?]
  cases hf : r.fields[i]? with
  | none => rfl
  | some f =>
    refine if_neg fun hgo => ?_
    obtain ⟨hself, hlt⟩ := Bool.and_eq_true_iff.1 hgo
    obtain hlast | ⟨f', hf', j, g, hij, hg, hname⟩ := h
    · exact absurd (of_decide_eq_true hlt) (by omega)
    · cases hf.symm.trans hf'
      exact (fieldIndex?_self_iff hf).1 (of_decide_eq_true hself) j g hij hg hname

theorem nextField?_of_not_stops (h : ¬r.Stops i) (hi : i < r.fields.length) :
    r.nextField? i = some (i + 1) := by
  have hf : r.fields[i]? = some r.fields[i] := List.getElem?_eq_getElem hi
  rw [Stops, not_or] at h
  have hself : r.fieldIndex? r.fields[i].name = some i :=
    (fieldIndex?_self_iff hf).2 fun j g hij hg hname => h.2 ⟨_, hf, j, g, hij, hg, hname⟩
  rw [nextField?, hf]
  exact if_pos (Bool.and_eq_true_iff.2 ⟨decide_eq_true hself, decide_eq_true (by omega)⟩)

theorem exists_firstStop (h : r.fields ≠ []) : ∃ k, r.FirstStop k := by
  classical
  have hpos : 0 < r.fields.length := List.length_pos_iff.2 h
  have hex : ∃ k, r.Stops k := ⟨r.fields.length - 1, .inl (by omega)⟩
  refine ⟨Nat.find hex, ?_, Nat.find_spec hex, fun j hj => Nat.find_min hex hj⟩
  have hle := Nat.find_min' hex (.inl (by omega) : r.Stops (r.fields.length - 1))
  omega

/-- What is behind a field for the cursor. -/
def Next (r : Record) (i : Nat) (p : Option Nat) : Prop := r.nextField? i = p

theorem FirstStop.walk {k : Nat} (h : r.FirstStop k) :
    Walk r.Next r.firstField? (List.range (k + 1)) := by
  have hfirst : r.firstField? = if 0 < k + 1 then some 0 else none := by
    have hlt := h.lt
    rw [firstField?]
    cases hfields : r.fields with
    | nil => simp [hfields] at hlt
    | cons f fs => rfl
  rw [hfirst, ← List.map_id (List.range (k + 1))]
  refine Walk.range (f := id) fun i hi => ?_
  obtain hik | rfl := Nat.lt_or_eq_of_le (Nat.le_of_lt_succ hi)
  · rw [if_pos (by omega)]
    exact nextField?_of_not_stops (h.first i hik) (Nat.lt_trans hik h.lt)
  · rw [if_neg (by omega)]
    exact nextField?_of_stops h.stops

theorem walkFrom_eq {steps : Nat} {p : Option Nat} {is : List Nat} (h : Walk r.Next p is)
    (hlen : is.length ≤ steps) : r.walkFrom steps p = is := by
  induction h generalizing steps with
  | stop => cases steps <;> rfl
  | visit hnext _ ih =>
    cases steps with
    | zero => simp at hlen
    | succ steps =>
      rw [walkFrom, hnext, ih (Nat.le_of_succ_le_succ hlen)]

theorem FirstStop.walk_eq {k : Nat} (h : r.FirstStop k) : r.walk = List.range (k + 1) :=
  walkFrom_eq h.walk (by rw [List.length_range]; exact h.lt)

theorem walk_of_nil (h : r.fields = []) : Walk r.Next r.firstField? [] ∧ r.walk = [] := by
  have hfirst : r.firstField? = none := by rw [firstField?, h]; rfl
  rw [walk, hfirst, h]
  exact ⟨.stop, rfl⟩

theorem walk_walks (r : Record) : Walk r.Next r.firstField? r.walk := by
  by_cases h : r.fields = []
  · rw [(walk_of_nil h).2]
    exact (walk_of_nil h).1
  · obtain ⟨k, hk⟩ := exists_firstStop h
    exact hk.walk_eq ▸ hk.walk

/-- All fields are visited just if no name occurs again behind its field. -/
theorem walk_eq_range_iff (r : Record) : r.walk = List.range r.fields.length ↔
    ∀ (i j : Nat) (f g : Field), i < j → r.fields[i]? = some f → r.fields[j]? = some g → g.name ≠ f.name := by
  by_cases hnil : r.fields = []
  · simp [(walk_of_nil hnil).2, hnil]
  · obtain ⟨k, hk⟩ := exists_firstStop hnil
    have hlt := hk.lt
    rw [hk.walk_eq]
    constructor
    · intro h i j f g hij hf hg hname
      have hlen : k + 1 = r.fields.length := by simpa using congrArg List.length h
      have hj : j < r.fields.length := (List.getElem?_eq_some_iff.1 hg).1
      exact hk.first i (by omega) (.inr ⟨f, hf, j, g, hij, hg, hname⟩)
    · intro h
      obtain hlast | ⟨f, hf, j, g, hkj, hg, hname⟩ := hk.stops
      · rw [hlast]
      · exact absurd hname (h k j f g hkj hf hg)

theorem walk_of_nodup (h : (r.fields.map Field.name).Nodup) :
    r.walk = List.range r.fields.length := by
  refine (walk_eq_range_iff r).2 fun i j f g hij hf hg hname => ?_
  have hi : i < (r.fields.map Field.name).length := by
    rw [List.length_map]
    exact (List.getElem?_eq_some_iff.1 hf).1
  have heq : (r.fields.map Field.name)[i]? = (r.fields.map Field.name)[j]? := by
    rw [List.getElem?_map, List.getElem?_map, hf, hg, Option.map_some, Option.map_some, hname]
  exact absurd ((List.getElem?_inj hi h).1 heq) (Nat.ne_of_lt hij)

end Record

/-! ### Slots by their place -/

namespace Database
variable {db : Database} {p : RecordPlace} {s : SlotPlace} {r : Record} {f : Field}

/-- The slot that the name of the current one finds in the record has to be that very slot. -/
theorem nextSlot?_eq (hr : db.record? p = some r) (hf : db.field? s = some f) :
    db.nextSlot? p s = ((Record.nameIndex r.fields).lookup f.name).bind fun i =>
      if (⟨p, i⟩ : SlotPlace) = s then r.fields[i + 1]?.map fun _ => ⟨p, i + 1⟩ else none := by
  obtain ⟨place, index⟩ := s
  rw [Record.lookup_nameIndex, nextSlot?]
  by_cases hp : place = p
  · subst hp
    rw [field?, hr] at hf
    rw [if_pos rfl, hr, Option.bind_some, Record.nextField?, show r.fields[index]? = some f from hf]
    cases hi : r.fieldIndex? f.name with
    | none => simp [hi]
    | some i =>
      by_cases heq : i = index
      · subst heq
        by_cases hlt : i + 1 < r.fields.length <;> simp [hi, hlt]
      · simp [hi, heq]
  · rw [if_neg hp]
    have hne : ∀ i, (⟨p, i⟩ : SlotPlace) ≠ ⟨place, index⟩ := fun i h => hp (by cases h; rfl)
    cases r.fieldIndex? f.name <;> simp [hne]

theorem nextSlot?_of_other (h : s.record ≠ p) : db.nextSlot? p s = none := if_neg h

end Database

namespace Foreign.State.Opened
variable {st : State} {id : Nat} {db : Database} (h : st.Opened id db)
include h

theorem ask_nextField {p : RecordPlace} {r : Record} (hr : db.record? p = some r) {other : Nat}
    {otherDb : Database} (hother : st.Opened other otherDb) (s : SlotPlace) :
    st.ask (.nextField (some (.record id p)) (some (.field other s))) =
      .ok (.handle (if other = id then (db.nextSlot? p s).map (.field id ·) else none)) := by
  refine (bind_of_ok (h.recordArg hr) _).trans ((bind_of_ok (hother.slotArg 1 s) _).trans ?_)
  refine congrArg (fun p => Except.ok (Result.handle p)) ?_
  show (if other = id then (st.db? id).bind fun db => (db.nextSlot? p s).bind fun next =>
    some (Handle.field id next) else none) = _
  rw [h.db, Option.bind_some, Option.map_eq_bind]
  rfl

end Foreign.State.Opened

/-! ### The records of a session -/

theorem Session.nodup_fields {search : SearchPath} {name text : String} {s : Session}
    (h : read search name text = .ok s) {side : Side} {r : Record}
    (hr : r ∈ (s.db.table side).records) : (r.fields.map Field.name).Nodup := by
  obtain ⟨db, hdb, h⟩ := bind_eq_ok.1 h
  obtain ⟨p, hp, rfl⟩ := Progress.Shaped.invariant.run hdb
  obtain rfl := pure_eq_ok.1 h
  have hr : r ∈ (p.db.link.table side).records := hr
  rw [Database.table_link] at hr
  obtain ⟨q, hq, rfl⟩ := List.mem_map.1 hr
  obtain ⟨ts, t, us, -, hbuilt⟩ := hp.builtFrom hq
  exact hbuilt.distinct

namespace Record

/-- How the cursor walks over the fields of a record, in which names may repeat. -/
structure Walked (r : Record) : Prop where
  /-- The walk comes to an end. -/
  walk : Walk r.Next r.firstField? r.walk
  nil : r.fields = [] → r.walk = []
  stops : r.fields ≠ [] → ∃ k, r.FirstStop k
  /-- Each slot up to the first stop is visited once, in order. -/
  eq_range : ∀ k, r.FirstStop k → r.walk = List.range (k + 1)
  /-- All slots are visited just if no name occurs again behind its slot. -/
  all : r.walk = List.range r.fields.length ↔
    ∀ (i j : Nat) (f g : Field), i < j → r.fields[i]? = some f → r.fields[j]? = some g →
      g.name ≠ f.name

/-- The cursor of any record ends at the first stop, and that of a record of a session visits all fields.
From a slot it goes on only if the name of that slot finds the very same slot in the record, so from a slot
of another record it goes nowhere. -/
theorem walk_fields : (∀ r : Record, r.Walked) ∧
    (∀ (search : SearchPath) (name text : String) (s : Session),
      Session.read search name text = .ok s → ∀ side, ∀ r ∈ (s.db.table side).records,
        r.walk = List.range r.fields.length) ∧
    (∀ (db : Database) (p : RecordPlace) (s : SlotPlace) (r : Record) (f : Field),
      db.record? p = some r → db.field? s = some f →
        db.nextSlot? p s = ((nameIndex r.fields).lookup f.name).bind fun i =>
          if (⟨p, i⟩ : SlotPlace) = s then r.fields[i + 1]?.map fun _ => ⟨p, i + 1⟩ else none) ∧
    (∀ (db : Database) (p : RecordPlace) (s : SlotPlace), s.record ≠ p → db.nextSlot? p s = none) ∧
    ∀ (st : Foreign.State) (id other : Nat) (db otherDb : Database) (p : RecordPlace) (r : Record)
      (s : SlotPlace), st.Opened id db → db.record? p = some r → st.Opened other otherDb →
        (other ≠ id ∨ s.record ≠ p) →
          st.ask (.nextField (some (.record id p)) (some (.field other s))) = .ok (.handle none) := by
  refine ⟨fun r => ⟨walk_walks r, fun h => (walk_of_nil h).2, exists_firstStop, fun _ hk => hk.walk_eq,
    walk_eq_range_iff r⟩, fun search name text s h side r hr => walk_of_nodup (Session.nodup_fields h hr),
    fun db p s r f => Database.nextSlot?_eq, fun db p s => Database.nextSlot?_of_other, ?_⟩
  intro st id other db otherDb p r s h hr hother hne
  rw [h.ask_nextField hr hother]
  obtain hid | hrecord := hne
  · rw [if_neg hid]
  · rw [Database.nextSlot?_of_other hrecord]
    split <;> rfl

/-- A record with one name on its second and its fourth field. -/
def repeating : Record :=
  ⟨"R", false, false, ["b", "a", "c", "a"].map (⟨·, .int, none⟩), [], [], false⟩

/-- The cursor of `repeating` stops at its second field, and goes nowhere from the fields of a copy. -/
theorem repeating_walked : repeating.FirstStop 1 ∧ repeating.walk = [0, 1] ∧
    ∀ db : Database, db.defs.records = [repeating, repeating] →
      db.nextSlot? ⟨.defs, 0⟩ ⟨⟨.defs, 0⟩, 0⟩ = some ⟨⟨.defs, 0⟩, 1⟩ ∧
      db.nextSlot? ⟨.defs, 0⟩ ⟨⟨.defs, 1⟩, 0⟩ = none := by
  obtain ⟨hwalked, -, hself, hother, -⟩ := walk_fields
  have hwalk : repeating.walk = [0, 1] := by decide
  obtain ⟨k, hk⟩ := (hwalked repeating).stops (by decide)
  have hrange := (hwalked repeating).eq_range k hk
  obtain rfl : k = 1 := by
    rw [hwalk] at hrange
    simpa using (congrArg List.length hrange).symm
  refine ⟨hk, hwalk, fun db hdb => ⟨?_, hother db _ _ (by decide)⟩⟩
  have hrecord : db.record? ⟨.defs, 0⟩ = some repeating := by
    rw [Database.record?, Database.table, RecordTable.item?, hdb]
    rfl
  rw [hself db _ _ repeating ⟨"b", .int, none⟩ hrecord (by rw [Database.field?, hrecord]; rfl)]
  decide +kernel

end Record
end TypedRecords
