import TypedRecords.Proofs.Foreign.Borrowed
import TypedRecords.Proofs.Foreign.ParsedOnce
import TypedRecords.Proofs.Reference.Resolved
import TypedRecords.Proofs.Superclass.Shape

/-!
# Getters across the interface

A field is read in two ways: by its name in a record, which answers a value or an error, and through the
handles of the interface, which answer a null pointer, or leave an out pointer alone, where there is nothing
to answer. Both deliver the same, for the elements of lists and the arguments of dags too
(`State.getters_agree`).
-/

namespace TypedRecords

/-! ### Reading a field by name -/

theorem Record.toOption_value (r : Record) (name : String) :
    (r.value name).toOption = (r.field? name).bind Field.value := by
  unfold value
  cases r.field? name with
  | none => rfl
  | some f =>
    obtain ⟨name, type, v⟩ := f
    cases v <;> rfl

theorem Record.refers_of_valueAsRecord {r : Record} {name : String} {ref : RecordRef}
    (h : r.valueAsRecord name = .ok ref) : r.Refers ref := by
  obtain ⟨v, hv, href⟩ := bind_eq_ok.1 h
  have hfield : (r.field? name).bind Field.value = some v := by rw [← r.toOption_value, hv]; rfl
  obtain ⟨f, hf, hfv⟩ := Option.bind_eq_some_iff.1 hfield
  obtain ⟨i, -, hi⟩ := Option.bind_eq_some_iff.1 hf
  cases v <;> cases href
  exact ⟨f, List.mem_of_getElem? hi, _, hfv, .record⟩

theorem Value.lt_dagLength_iff {v : Value} {i : Nat} :
    i < v.dagLength.toOption.getD 0 ↔ ∃ arg, v.dagArgAt i = .ok arg := by
  cases hdag : v.asDag with
  | error e =>
    rw [dagLength, dagArgAt, hdag]
    exact ⟨fun h => absurd h (Nat.not_lt_zero i), nofun⟩
  | ok found =>
    obtain ⟨operator, args⟩ := found
    rw [dagLength, dagArgAt, bind_of_ok hdag, hdag]
    show i < args.length ↔ _
    dsimp only
    cases hi : args[i]? with
    | none => exact ⟨fun h => absurd (List.getElem?_eq_none_iff.1 hi) (Nat.not_le_of_lt h), nofun⟩
    | some arg => exact ⟨fun _ => ⟨arg, rfl⟩, fun _ => (List.getElem?_eq_some_iff.1 hi).1⟩

/-- The session is what some text was parsed to. -/
def Session.WasRead (s : Session) : Prop :=
  ∃ search text, read search unnamedSource text = .ok s

/-- A reference that a record of a session holds is to the place that its name finds. -/
theorem Session.WasRead.index?_of_refers {s : Session} (h : s.WasRead) {place : RecordPlace}
    {r : Record} (hr : s.db.record? place = some r) {ref : RecordRef} (href : r.Refers ref) :
    s.db.defs.index? ref.name = some ref.target := by
  obtain ⟨search, text, h⟩ := h
  obtain ⟨db, hdb, h⟩ := bind_eq_ok.1 h
  obtain ⟨p, hp, rfl⟩ := Progress.placed_invariant.run hdb
  obtain rfl := pure_eq_ok.1 h
  have hr : (p.db.link.table place.side).item? place.position = some r := hr
  rw [Database.table_link] at hr
  obtain ⟨q, hq, rfl⟩ := RecordTable.item?_link_eq_some hr
  rw [← Database.ref?_eq_some_iff, Database.ref?_link]
  exact (hp.records place.side q (List.mem_of_getElem? hq)).ref href

namespace Foreign

theorem bitOut_eq (v : Value) (out : Bool) :
    bitOut v out = if out then v.asBit.toOption.map fun b => if b then 1 else 0 else none := by
  unfold bitOut
  cases v.asBit <;> cases out <;> rfl

theorem intOut_eq (v : Value) (out : Bool) :
    intOut v out = if out then v.asInt.toOption else none := by
  unfold intOut
  cases v.asInt <;> cases out <;> rfl

theorem recordOf_eq (id : Nat) (v : Value) :
    recordOf id v = v.asRecord.toOption.map (refHandle id) := by
  unfold recordOf
  cases v.asRecord <;> rfl

theorem textContent_map (id : Nat) (found : Option Value) :
    State.textContent (found.map (id, ·)) =
      (found.bind fun v => v.asText.toOption).map fun text => (id, .string (cText text)) := by
  cases found with
  | none => rfl
  | some v => exact Option.map_eq_bind.symm

theorem bitsContent_map (id : Nat) (found : Option Value) :
    State.bitsContent (found.map (id, ·)) =
      (found.bind fun v => v.asBits.toOption).map fun bits => (id, .bits bits, bits.length) := by
  cases found with
  | none => rfl
  | some v => exact Option.map_eq_bind.symm

namespace State

/-! ### What a caller finds at an owned result -/

/-- The owned result that a pointer is to, unless it was given back. -/
def content? (st : State) : Pointer → Option Content
  | some (.owned number) => (st.owned[number]?.filter fun o => !o.released).map Owned.content
  | _ => none

/-- The characters of an owned string. -/
def string? (st : State) (p : Pointer) : Option String :=
  match st.content? p with
  | some (.string text) => some text
  | _ => none

/-- The numbers in an owned array of bits. -/
def bitArray? (st : State) (p : Pointer) : Option (List Int8) :=
  match st.content? p with
  | some (.bits lsbFirst) => some (lsbFirst.map bitCode)
  | _ => none

variable {st : State}

theorem content?_handOut (st : State) (session : Nat) (content : Content) :
    (st.handOut session content).2.content? (some (st.handOut session content).1) = some content := by
  simp [content?, handOut]

theorem string?_handOut (st : State) (session : Nat) (text : String) :
    (st.handOut session (.string text)).2.string? (some (st.handOut session (.string text)).1) =
      some text := by
  rw [string?, content?_handOut]

theorem bitArray?_handOut (st : State) (session : Nat) (bits : List (Option Bool)) :
    (st.handOut session (.bits bits)).2.bitArray? (some (st.handOut session (.bits bits)).1) =
      some (bits.map bitCode) := by
  rw [bitArray?, content?_handOut]

/-! ### Reading the slot of a name -/

/-- What the slot that a name finds delivers is what the name itself finds in the record. -/
structure ReadsField (st : State) (id : Nat) (db : Database) (r : Record) (name : String)
    (slot : Pointer) : Prop where
  bit : ∀ out, st.ask (.fieldBit slot out) = .ok (.out
    (if out then (r.valueAsBit name).toOption.map fun b => if b then 1 else 0 else none))
  int : ∀ out, st.ask (.fieldInt slot out) =
    .ok (.out (if out then (r.valueAsInt name).toOption else none))
  text : match r.valueAsText name with
    | .ok text => ∃ p st', st.acquire (.fieldText slot) = .ok (.handle p, st') ∧
      st'.string? p = some (cText text)
    | .error _ => st.acquire (.fieldText slot) = .ok (.handle none, st)
  bits : ∀ length, match r.valueAsBits name with
    | .ok bits => ∃ p st', st.acquire (.fieldBits slot length) =
        .ok (.array p (if length then some bits.length else none), st') ∧
      st'.bitArray? p = some (bits.map bitCode)
    | .error _ => st.acquire (.fieldBits slot length) = .ok (.array none none, st)
  /-- A def is answered as the record that its reference resolves to. -/
  record : match r.valueAsRecord name with
    | .ok ref => ∃ place q, st.ask (.fieldRecord slot) = .ok (.handle (some (.record id place))) ∧
      db.place? .defs ref.name = some place ∧ db.record? place = some q ∧ db.resolve ref = some q
    | .error _ => st.ask (.fieldRecord slot) = .ok (.handle none)

namespace Opened
variable {id : Nat} {db : Database} (h : st.Opened id db) {place : RecordPlace} {r : Record}
  (hr : db.record? place = some r) (name : String)
include h hr

theorem ask_recordField : st.ask (.recordField (some (.record id place)) (some name)) =
    .ok (.handle ((r.fieldIndex? name).map fun i => .field id ⟨place, i⟩)) := by
  refine (bind_of_ok (h.recordArg hr) _).trans ?_
  cases hi : r.fieldIndex? name <;> simp [hi] <;> rfl

theorem fieldValueArg_fieldIndex? :
    st.fieldValueArg ((r.fieldIndex? name).map fun i => .field id ⟨place, i⟩) =
      .ok ((r.value name).toOption.map (id, ·)) := by
  rw [r.toOption_value, Record.field?]
  cases hi : r.fieldIndex? name with
  | none => rfl
  | some i =>
    obtain ⟨j, f, hj, hf, -⟩ := Record.getElem?_of_lastIndex? hi
    obtain rfl : i = j := by rw [hj, Nat.zero_add]
    have hslot : db.field? ⟨place, i⟩ = some f := by rw [Database.field?, hr]; exact hf
    rw [Option.map_some, h.fieldValueArg hslot, Option.bind_some, hf, Option.bind_some]

theorem readsField (hrefs : ∀ ref, r.Refers ref → db.defs.index? ref.name = some ref.target) :
    st.ReadsField id db r name ((r.fieldIndex? name).map fun i => .field id ⟨place, i⟩) := by
  have hslot := h.fieldValueArg_fieldIndex? hr name
  refine ⟨fun out => ?bit, fun out => ?int, ?text, fun length => ?bits, ?record⟩
  case bit =>
    refine (bind_of_ok hslot _).trans ?_
    rw [Record.valueAsBit, toOption_bind]
    cases r.value name with
    | error e => cases out <;> rfl
    | ok v => exact congrArg (fun written => Except.ok (Result.out written)) (bitOut_eq v out)
  case int =>
    refine (bind_of_ok hslot _).trans ?_
    rw [Record.valueAsInt, toOption_bind]
    cases r.value name with
    | error e => cases out <;> rfl
    | ok v => exact congrArg (fun written => Except.ok (Result.out written)) (intOut_eq v out)
  case text =>
    have hacquire : st.acquire (.fieldText _) = .ok (st.handOutSingle _) := bind_of_ok hslot _
    rw [hacquire, textContent_map, ← toOption_bind, ← Record.valueAsText]
    cases r.valueAsText name with
    | error e => rfl
    | ok text => exact ⟨_, _, rfl, st.string?_handOut id _⟩
  case bits =>
    have hacquire : st.acquire (.fieldBits _ length) = .ok (st.handOutArray length _) :=
      bind_of_ok hslot _
    rw [hacquire, bitsContent_map, ← toOption_bind, ← Record.valueAsBits]
    cases r.valueAsBits name with
    | error e => rfl
    | ok bits => exact ⟨_, _, rfl, st.bitArray?_handOut id _⟩
  case record =>
    have hask : st.ask (.fieldRecord _) = .ok (.handle _) := bind_of_ok hslot _
    have hpointer : (((r.value name).toOption.map (id, ·)).bind fun x => recordOf x.1 x.2) =
        (r.valueAsRecord name).toOption.map (refHandle id) := by
      rw [Record.valueAsRecord, toOption_bind]
      cases r.value name with
      | error e => rfl
      | ok v => exact recordOf_eq id v
    rw [hask, hpointer]
    cases hv : r.valueAsRecord name with
    | error e => rfl
    | ok ref =>
      have hindex := hrefs ref (Record.refers_of_valueAsRecord hv)
      obtain ⟨q, hq, -⟩ := RecordTable.item?_of_index? hindex
      refine ⟨⟨.defs, ref.target⟩, q, rfl, ?_, hq, (RecordTable.get?_eq_item? hindex).trans hq⟩
      exact congrArg (Option.map _) hindex

end Opened

/-! ### Elements of values -/

/-- What the getters answer for a value and an index is what the value has there. -/
structure ReadsElement (st : State) (id : Nat) (v : Value) (index : Nat) : Prop where
  list : st.ask (.listGet (some (.value id v)) index) = .ok (.handle
    (match v.listElement index with
    | .ok w => some (.value id w)
    | .error _ => none))
  dag : st.ask (.dagGet (some (.value id v)) index) = .ok (.handle
    (match v.dagArg index with
    | .ok (some w) => some (.value id w)
    | _ => none))
  /-- A pair is answered for each argument, with the name and the value that are answered for it. -/
  pair : ∃ count, st.ask (.dagLength (some (.value id v))) = .ok (.count count) ∧
    if index < count then
      ∃ pair st' key value,
        st.acquire (.dagPair (some (.value id v)) index) = .ok (.handle (some pair), st') ∧
        st'.ask (.pairKey (some pair)) = .ok (.text key) ∧
        st'.ask (.dagArgName (some (.value id v)) index) = .ok (.text key) ∧
        st'.ask (.pairValue (some pair)) = .ok (.handle value) ∧
        st'.ask (.dagGet (some (.value id v)) index) = .ok (.handle value)
    else st.acquire (.dagPair (some (.value id v)) index) = .ok (.handle none, st)

theorem ownedArg_handOut {id : Nat} (hlive : st.isFreed id = false) (content : Content) :
    (st.handOut id content).2.ownedArg content.shape (some (st.handOut id content).1) =
      .ok (some (st.owned.length, ⟨id, content, false⟩)) := by
  have hlive : (st.handOut id content).2.isFreed id = false := hlive
  have howned : (st.handOut id content).2.owned[st.owned.length]? = some ⟨id, content, false⟩ :=
    List.getElem?_concat_length
  rw [ownedArg, check_of_live hlive]
  · show (st.handOut id content).2.owned[st.owned.length]?.map Owned.session = some id
    rw [howned, Option.map_some]
  · show (st.handOut id content).2.isReleased (.owned st.owned.length) = false
    simp only [isReleased, howned]
  · show (st.handOut id content).2.ofShape content.shape (.owned st.owned.length) = _
    simp only [ofShape, howned, if_true]

section
variable {id : Nat} (hlive : st.isFreed id = false)
include hlive

theorem ask_listGet (v : Value) (index : Nat) : st.ask (.listGet (some (.value id v)) index) =
    .ok (.handle ((v.listElement index).toOption.map (.value id ·))) :=
  bind_of_ok (valueArg_of_live hlive v) _

theorem ask_dagGet (v : Value) (index : Nat) : st.ask (.dagGet (some (.value id v)) index) =
    .ok (.handle ((v.dagArg index).toOption.join.map (.value id ·))) :=
  bind_of_ok (valueArg_of_live hlive v) _

theorem ask_dagArgName (v : Value) (index : Nat) :
    st.ask (.dagArgName (some (.value id v)) index) = .ok (.text (v.dagArgName index).toOption.join) :=
  bind_of_ok (valueArg_of_live hlive v) _

theorem ask_dagLength (v : Value) :
    st.ask (.dagLength (some (.value id v))) = .ok (.count (v.dagLength.toOption.getD 0)) :=
  bind_of_ok (valueArg_of_live hlive v) _

theorem acquire_dagPair (v : Value) (index : Nat) :
    st.acquire (.dagPair (some (.value id v)) index) = .ok (st.handOutSingle
      ((v.dagArgAt index).toOption.map fun arg => (id, .pair arg.name arg.value))) := by
  refine (bind_of_ok (valueArg_of_live hlive v) _).trans ?_
  exact congrArg (fun found => Except.ok (st.handOutSingle found)) Option.map_eq_bind.symm

theorem ask_pairKey (key : Option String) (value : Option Value) :
    (st.handOut id (.pair key value)).2.ask
      (.pairKey (some (st.handOut id (.pair key value)).1)) = .ok (.text key) :=
  bind_of_ok (ownedArg_handOut hlive (.pair key value)) _

theorem ask_pairValue (key : Option String) (value : Option Value) :
    (st.handOut id (.pair key value)).2.ask
      (.pairValue (some (st.handOut id (.pair key value)).1)) =
        .ok (.handle (value.map (.value id ·))) := by
  refine (bind_of_ok (ownedArg_handOut hlive (.pair key value)) _).trans ?_
  cases value <;> rfl

theorem readsElement (v : Value) (index : Nat) : st.ReadsElement id v index := by
  refine ⟨?list, ?dag, ?pair⟩
  case list =>
    rw [ask_listGet hlive]
    cases v.listElement index <;> rfl
  case dag =>
    rw [ask_dagGet hlive]
    cases v.dagArg index with
    | error e => rfl
    | ok value => cases value <;> rfl
  case pair =>
    refine ⟨_, ask_dagLength hlive v, ?_⟩
    rw [acquire_dagPair hlive]
    split
    · rename_i hlt
      obtain ⟨arg, harg⟩ := Value.lt_dagLength_iff.1 hlt
      have hlive' : (st.handOut id (.pair arg.name arg.value)).2.isFreed id = false := hlive
      refine ⟨(st.handOut id (.pair arg.name arg.value)).1, (st.handOut id _).2, arg.name, _, ?_,
        ask_pairKey hlive .., ?_, ask_pairValue hlive .., ?_⟩
      · rw [harg]
        rfl
      · rw [ask_dagArgName hlive', Value.dagArgName, harg]
        rfl
      · rw [ask_dagGet hlive', Value.dagArg, harg]
        rfl
    · rename_i hlt
      cases harg : v.dagArgAt index with
      | error e => rfl
      | ok arg => exact absurd (Value.lt_dagLength_iff.2 ⟨arg, harg⟩) hlt

end

/-! ### Sessions that are open -/

/-- Every session that is open was read from some text. -/
def AllRead (st : State) : Prop := ∀ s ∈ st.sessions, ∀ opened ∈ s.opened, opened.WasRead

namespace AllRead
variable {st' : State} {s : SessionState}

theorem setSession (h : st.AllRead) (hs : ∀ opened ∈ s.opened, opened.WasRead) {id : Nat} :
    (st.setSession id s).AllRead := by
  intro t ht
  obtain ht | rfl := List.mem_or_eq_of_mem_set ht
  · exact h t ht
  · exact hs

theorem parse {tree : FileTree} (hs : ∀ opened ∈ s.opened, opened.WasRead) :
    ∀ opened ∈ (s.parse tree).2.opened, opened.WasRead := by
  unfold SessionState.parse
  split
  · exact hs
  · split
    · rename_i opened hread
      rintro _ ⟨⟩
      exact ⟨_, _, hread⟩
    · exact hs

/-- Only creating, parsing and freeing reach the sessions, and of these only parsing opens one. -/
theorem call {tree : FileTree} {c : Call} {r : Result} (h : st.AllRead)
    (hc : st.call tree c = .ok (r, st')) : st'.AllRead := by
  cases c with
  | create text includes count =>
    obtain ⟨-, rfl⟩ | ⟨o, -, -, -, -, hsessions⟩ := create_eq_ok hc
    · exact h
    · intro s hs
      rw [hsessions] at hs
      obtain hs | hs := List.mem_append.1 hs
      · exact h s hs
      · rw [List.mem_singleton.1 hs]
        nofun
  | parse p =>
    obtain ⟨found, hfound, hst⟩ := bind_eq_ok.1 hc
    obtain ⟨rfl, rfl⟩ | ⟨id, rfl, -, -⟩ := sessionArg_eq_ok.1 hfound
    · obtain ⟨-, rfl⟩ := Prod.mk.inj (Except.ok.inj hst)
      exact h
    · obtain ⟨s, hs, -, -, rfl⟩ := call_parse_eq_ok.1 hc
      exact h.setSession (parse (h s (List.mem_of_getElem? hs)))
  | free p =>
    obtain ⟨-, ⟨rfl, rfl⟩ | ⟨id, s, rfl, hs, -, rfl⟩⟩ := free_eq_ok.1 hc
    · exact h
    · exact h.setSession (s := { s with freed := true }) (h s (List.mem_of_getElem? hs))
  | ask q => exact (call_ask_eq_ok.1 hc).2 ▸ h
  | acquire a =>
    intro s hs
    rw [sessions_of_acquire hc] at hs
    exact h s hs
  | release shape p =>
    obtain ⟨-, rfl⟩ | ⟨number, o, -, -, -, -, rfl⟩ :=
      release_eq_ok.1 (call_release_eq_ok.1 hc).2 <;> exact h

end AllRead

theorem Comes.allRead {calls : List Made} (h : Comes calls st) : st.AllRead := by
  induction h with
  | start => nofun
  | call _ hc ih => exact ih.call hc

theorem Comes.read {calls : List Made} (h : Comes calls st) {id : Nat} {db : Database}
    (hdb : st.db? id = some db) : ∃ opened : Session, opened.WasRead ∧ opened.db = db := by
  obtain ⟨opened, hopened, rfl⟩ := Option.map_eq_some_iff.1 hdb
  obtain ⟨s, hs, hopened⟩ := Option.bind_eq_some_iff.1 hopened
  exact ⟨opened, h.allRead s (List.mem_of_getElem? hs) opened hopened, rfl⟩

/-! ### Both ways of reading -/

/-- After any calls, in a session that is open, the slot that a name finds delivers what the name finds in
the record, and elements of lists and arguments of dags are answered as the value has them. -/
theorem getters_agree {calls : List Made} (h : Comes calls st) {id : Nat} {db : Database}
    (hopened : st.Opened id db) :
    (∀ place r name, db.record? place = some r → ∃ slot,
      st.ask (.recordField (some (.record id place)) (some name)) = .ok (.handle slot) ∧
        st.ReadsField id db r name slot) ∧
    ∀ v index, st.ReadsElement id v index := by
  refine ⟨fun place r name hr => ⟨_, hopened.ask_recordField hr name, ?_⟩,
    fun v index => readsElement hopened.live v index⟩
  obtain ⟨opened, hread, rfl⟩ := h.read hopened.db
  exact hopened.readsField hr name fun ref => hread.index?_of_refers hr

/-- A session with a def that holds a text with U+0000 in it, an unset bit and an unset integer. -/
def gettersCalls : List Call :=
  [.parse (some (.session 0)), .create (some ("def X \x7b string s = \"a\x00b\"; " ++
    "bits<3> w = \x7b ?, 0, 1 \x7d; int n; \x7d")) none 0]

theorem gettersCalls_agree : ∃ calls st db, Comes calls st ∧ st.Opened 0 db ∧
    (∃ slot p st', st.ask (.recordField (some (.record 0 ⟨.defs, 0⟩)) (some "s")) = .ok (.handle slot) ∧
      st.acquire (.fieldText slot) = .ok (.handle p, st') ∧ st'.string? p = some "ab") ∧
    (∃ slot p st', st.ask (.recordField (some (.record 0 ⟨.defs, 0⟩)) (some "w")) = .ok (.handle slot) ∧
      st.acquire (.fieldBits slot true) = .ok (.array p (some 3), st') ∧
      st'.bitArray? p = some [1, 0, -1]) ∧
    (∃ slot, st.ask (.recordField (some (.record 0 ⟨.defs, 0⟩)) (some "n")) = .ok (.handle slot) ∧
      st.ask (.fieldInt slot true) = .ok (.out none)) ∧
    st.ReadsElement 0 (.dag (.name "op") [⟨some "k", some (.int 3)⟩, ⟨none, none⟩]) 1 := by
  have hmade : (made? (FileTree.emptyAt []) gettersCalls).map (fun x => (x.2.isFreed 0,
      (x.2.db? 0).bind fun db => (db.record? ⟨.defs, 0⟩).map fun r => decide (
        (r.valueAsText "s").toOption = some "a\x00b" ∧
        (r.valueAsBits "w").toOption = some [some true, some false, none] ∧
        (r.valueAsInt "n").toOption = none))) = some (false, some true) := by
    decide +kernel
  obtain ⟨⟨calls, st⟩, hmade, heq⟩ := Option.map_eq_some_iff.1 hmade
  obtain ⟨hlive, hfound⟩ := Prod.mk.inj heq
  obtain ⟨db, hdb, hfound⟩ := Option.bind_eq_some_iff.1 hfound
  obtain ⟨r, hr, hfound⟩ := Option.map_eq_some_iff.1 hfound
  obtain ⟨htext, hbits, hint⟩ := of_decide_eq_true hfound
  have hcomes := comes_of_made? hmade
  have hopened : st.Opened 0 db := ⟨hdb, hlive⟩
  obtain ⟨hfields, helements⟩ := getters_agree hcomes hopened
  obtain ⟨s, hs, hreadsText⟩ := hfields _ r "s" hr
  obtain ⟨w, hw, hreadsBits⟩ := hfields _ r "w" hr
  obtain ⟨n, hn, hreadsInt⟩ := hfields _ r "n" hr
  have hstring := hreadsText.text
  have harray := hreadsBits.bits true
  have hout := hreadsInt.int true
  rw [ok_of_toOption htext] at hstring
  rw [ok_of_toOption hbits] at harray
  rw [if_pos rfl, hint] at hout
  obtain ⟨p, st', hacquire, hp⟩ := hstring
  obtain ⟨q, st'', hacquire', hq⟩ := harray
  refine ⟨calls, st, db, hcomes, hopened, ⟨s, p, st', hs, hacquire, hp.trans ?_⟩,
    ⟨w, q, st'', hw, hacquire', hq⟩, ⟨n, hn, hout⟩, helements _ _⟩
  decide

end State
end Foreign
end TypedRecords
