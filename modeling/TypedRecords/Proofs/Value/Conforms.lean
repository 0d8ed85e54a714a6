import TypedRecords.Value.Convert
import TypedRecords.Proofs.Tables

/-!
# Values that conform to types

`Conforms` says that a value is of a type all the way down. A value is `Sound` where every list in
it conforms to the element type it records and every reference refers to a record. `Converts` lists
the conversions there are. What one answers conforms to the type asked for and is sound if the value
was (`convert_sound`).
-/

namespace TypedRecords

/-- The value is of the type: a bit vector of its width, a list that records its element type and
whose items are of it, a reference to a record that is of the class. -/
def Conforms (store : Store) : Ty → Value → Prop
  | .bit, .bit _ | .int, .int _ | .string, .string _ | .code, .code _ | .dag, .dag .. => True
  | .bits width, .bits lsbFirst => lsbFirst.length = width
  | .list element, .list recorded items =>
    recorded = element ∧ ∀ v ∈ items, Conforms store element v
  | .record name, .record ref =>
    ∃ r, ref.get? store = some r ∧ (r.name = name ∨ name ∈ r.superclasses)
  | .anyRecord, .record ref => ∃ r, ref.get? store = some r
  | _, _ => False

namespace Value

/-- The value `w` occurs in a value: it is that value, or occurs in an item of a list or in an
argument of a dag. -/
inductive Within (w : Value) : Value → Prop
  | refl : Within w w
  | item {element : Ty} {items : List Value} {v : Value} (hv : v ∈ items) (h : Within w v) :
      Within w (.list element items)
  | arg {operator : DagOperator} {args : List (DagArg Value)} {a : DagArg Value} {v : Value}
      (ha : a ∈ args) (hv : v ∈ a.value) (h : Within w v) : Within w (.dag operator args)

/-- Every list in the value has items of the element type it records, and every reference refers to
a record. -/
inductive Sound (store : Store) : Value → Prop
  | bit (b : Bool) : Sound store (.bit b)
  | bits (lsbFirst : List (Option Bool)) : Sound store (.bits lsbFirst)
  | int (number : Int64) : Sound store (.int number)
  | string (text : String) : Sound store (.string text)
  | code (text : String) : Sound store (.code text)
  | list {element : Ty} {items : List Value} (hs : ∀ v ∈ items, Sound store v)
      (hc : ∀ v ∈ items, Conforms store element v) : Sound store (.list element items)
  | dag {operator : DagOperator} {args : List (DagArg Value)}
      (h : ∀ a ∈ args, ∀ v ∈ a.value, Sound store v) : Sound store (.dag operator args)
  | record {ref : RecordRef} {r : Record} (h : ref.get? store = some r) : Sound store (.record ref)

end Value

/-! ### Growing stores -/

namespace Conforms
variable {store store' : Store}

theorem kind {type : Ty} {v : Value} (h : Conforms store type v) : v.kind = type.kind := by
  cases type <;> cases v <;> first | rfl | exact h.elim

theorem mono (hle : store.Le store') {type : Ty} {v : Value} (h : Conforms store type v) :
    Conforms store' type v := by
  induction type generalizing v with
  | list element ih =>
    cases v with
    | list recorded items => exact ⟨h.1, fun w hw => ih (h.2 w hw)⟩
    | _ => exact h.elim
  | record name =>
    cases v with
    | record ref =>
      obtain ⟨r, hr, hname⟩ := h
      obtain ⟨r', hr', hn, hs⟩ := hle ref.target r hr
      exact ⟨r', hr', hn ▸ hs ▸ hname⟩
    | _ => exact h.elim
  | anyRecord =>
    cases v with
    | record ref =>
      obtain ⟨r, hr⟩ := h
      obtain ⟨r', hr', -⟩ := hle ref.target r hr
      exact ⟨r', hr'⟩
    | _ => exact h.elim
  | _ => cases v <;> exact h

end Conforms

namespace Value
variable {store store' : Store}

theorem Sound.mono (hle : store.Le store') {v : Value} (h : v.Sound store) : v.Sound store' := by
  induction h with
  | bit b => exact .bit b
  | bits lsbFirst => exact .bits lsbFirst
  | int number => exact .int number
  | string text => exact .string text
  | code text => exact .code text
  | list _ hc ih => exact .list ih fun v hv => (hc v hv).mono hle
  | dag _ ih => exact .dag ih
  | @record ref r hr =>
    obtain ⟨r', hr', -⟩ := hle ref.target r hr
    exact .record hr'

theorem Sound.conforms_of_within {v : Value} (h : v.Sound store) {element : Ty} {items : List Value}
    (hw : Within (.list element items) v) : ∀ x ∈ items, Conforms store element x := by
  induction hw with
  | refl => cases h with | list _ hc => exact hc
  | item hv _ ih => cases h with | list hs _ => exact ih (hs _ hv)
  | arg ha hv _ ih => cases h with | dag h => exact ih (h _ ha _ hv)

/-! ### Conversion -/

theorem isInstance_iff {ref : RecordRef} {name : String} :
    isInstance store ref name = true ↔
      ∃ r, ref.get? store = some r ∧ (r.name = name ∨ name ∈ r.superclasses) := by
  unfold isInstance
  cases ref.get? store with
  | none => simp
  | some r => simp [Record.isSubclassOf]

theorem mem_of_convertAll {vs ws : List Value} {element : Ty}
    (h : convertAll store vs element = some ws) :
    ∀ w ∈ ws, ∃ v ∈ vs, convert store v element = some w := by
  induction vs generalizing ws with
  | nil =>
    obtain rfl := Option.some.inj h
    simp
  | cons v vs ih =>
    rw [convertAll] at h
    cases hv : convert store v element with
    | none =>
      rw [hv] at h
      cases h
    | some w =>
      rw [hv] at h
      obtain ⟨us, hus, rfl⟩ := Option.map_eq_some_iff.1 h
      refine List.forall_mem_cons.2 ⟨⟨v, List.mem_cons_self .., hv⟩, fun u hu => ?_⟩
      obtain ⟨x, hx, hxu⟩ := ih hus u hu
      exact ⟨x, List.mem_cons_of_mem _ hx, hxu⟩

theorem length_ofInt? {number : Int64} {width : Nat} {bits : List (Option Bool)}
    (h : Bits.ofInt? number width = some bits) : bits.length = width := by
  unfold Bits.ofInt? at h
  split at h
  · rw [← Option.some.inj h, List.length_map, List.length_range]
  · cases h

/-- The conversions there are: the types that a value converts to and what it becomes. -/
inductive Converts (store : Store) : Value → Ty → Value → Prop
  | bit (b : Bool) : Converts store (.bit b) .bit (.bit b)
  | bitBits (b : Bool) : Converts store (.bit b) (.bits 1) (.bits [some b])
  | bitInt (b : Bool) : Converts store (.bit b) .int (.int (if b then 1 else 0))
  | bitsBit (b : Bool) : Converts store (.bits [some b]) .bit (.bit b)
  | bits (l : List (Option Bool)) : Converts store (.bits l) (.bits l.length) (.bits l)
  | bitsInt {l : List (Option Bool)} {number : Int64} (h : Bits.toInt? l = some number) :
      Converts store (.bits l) .int (.int number)
  | intBit {number : Int64} {b : Bool} (h : number = if b then 1 else 0) :
      Converts store (.int number) .bit (.bit b)
  | intBits {number : Int64} {width : Nat} {l : List (Option Bool)}
      (h : Bits.ofInt? number width = some l) : Converts store (.int number) (.bits width) (.bits l)
  | int (number : Int64) : Converts store (.int number) .int (.int number)
  | string (text : String) : Converts store (.string text) .string (.string text)
  | stringCode (text : String) : Converts store (.string text) .code (.code text)
  | codeString (text : String) : Converts store (.code text) .string (.string text)
  | code (text : String) : Converts store (.code text) .code (.code text)
  | list {recorded element : Ty} {vs ws : List Value}
      (h : convertAll store vs element = some ws) :
      Converts store (.list recorded vs) (.list element) (.list element ws)
  | dag (operator : DagOperator) (args : List (DagArg Value)) :
      Converts store (.dag operator args) .dag (.dag operator args)
  | record {ref : RecordRef} {name : String} (h : isInstance store ref name = true) :
      Converts store (.record ref) (.record name) (.record ref)
  | anyRecord (ref : RecordRef) : Converts store (.record ref) .anyRecord (.record ref)

theorem converts_of_convert {v w : Value} {type : Ty} (h : v.convert store type = some w) :
    v.Converts store type w := by
  cases v with
  | bit b =>
    cases type with
    | bits width =>
      rw [convert] at h
      split at h
      · rename_i hwidth
        exact Option.some.inj h ▸ hwidth ▸ .bitBits b
      · cases h
    | bit => exact Option.some.inj h ▸ .bit b
    | int => exact Option.some.inj h ▸ .bitInt b
    | _ => cases h
  | bits l =>
    cases type with
    | bit =>
      rcases l with _ | ⟨_ | b, _ | ⟨c, rest⟩⟩
      case cons.some.nil => exact Option.some.inj h ▸ .bitsBit b
      all_goals cases h
    | bits width =>
      rw [convert] at h
      split at h
      · rename_i hwidth
        exact Option.some.inj h ▸ hwidth ▸ .bits l
      · cases h
    | int =>
      obtain ⟨number, hnumber, rfl⟩ := Option.map_eq_some_iff.1 h
      exact .bitsInt hnumber
    | _ => cases h
  | int number =>
    cases type with
    | bit =>
      rw [convert] at h
      split at h
      · rename_i hzero
        exact Option.some.inj h ▸ .intBit hzero
      · split at h
        · rename_i hone
          exact Option.some.inj h ▸ .intBit hone
        · cases h
    | bits width =>
      obtain ⟨l, hl, rfl⟩ := Option.map_eq_some_iff.1 h
      exact .intBits hl
    | int => exact Option.some.inj h ▸ .int number
    | _ => cases h
  | string text =>
    cases type with
    | string => exact Option.some.inj h ▸ .string text
    | code => exact Option.some.inj h ▸ .stringCode text
    | _ => cases h
  | code text =>
    cases type with
    | string => exact Option.some.inj h ▸ .codeString text
    | code => exact Option.some.inj h ▸ .code text
    | _ => cases h
  | list recorded vs =>
    cases type with
    | list element =>
      obtain ⟨ws, hws, rfl⟩ := Option.map_eq_some_iff.1 h
      exact .list hws
    | _ => cases h
  | dag operator args =>
    cases type with
    | dag => exact Option.some.inj h ▸ .dag operator args
    | _ => cases h
  | record ref =>
    cases type with
    | record name =>
      rw [convert] at h
      split at h
      · exact Option.some.inj h ▸ .record ‹_›
      · cases h
    | anyRecord => exact Option.some.inj h ▸ .anyRecord ref
    | _ => cases h

/-- What a sound value converts to is sound and conforms to the type asked for. -/
theorem convert_sound {v : Value} (h : v.Sound store) {type : Ty} {w : Value}
    (hw : v.convert store type = some w) : w.Sound store ∧ Conforms store type w := by
  induction h generalizing type w with
  | bit b =>
    cases converts_of_convert hw with
    | bitBits => exact ⟨.bits _, rfl⟩
    | bit => exact ⟨.bit b, trivial⟩
    | bitInt => exact ⟨.int _, trivial⟩
  | string text | code text =>
    cases converts_of_convert hw <;> exact ⟨by constructor, trivial⟩
  | bits l =>
    cases converts_of_convert hw with
    | bitsBit b => exact ⟨.bit b, trivial⟩
    | bits => exact ⟨.bits l, rfl⟩
    | bitsInt => exact ⟨.int _, trivial⟩
  | int number =>
    cases converts_of_convert hw with
    | intBit => exact ⟨.bit _, trivial⟩
    | intBits hl => exact ⟨.bits _, length_ofInt? hl⟩
    | int => exact ⟨.int number, trivial⟩
  | list _ _ ih =>
    cases converts_of_convert hw with
    | list hws =>
      have hitem : ∀ x ∈ _, x.Sound store ∧ Conforms store _ x := fun x hx => by
        obtain ⟨v, hv, hvx⟩ := mem_of_convertAll hws x hx
        exact ih v hv hvx
      exact ⟨.list (fun x hx => (hitem x hx).1) fun x hx => (hitem x hx).2,
        rfl, fun x hx => (hitem x hx).2⟩
  | dag hd _ =>
    cases converts_of_convert hw with
    | dag => exact ⟨.dag hd, trivial⟩
  | record hr =>
    cases converts_of_convert hw with
    | record hinstance => exact ⟨.record hr, isInstance_iff.1 hinstance⟩
    | anyRecord => exact ⟨.record hr, _, hr⟩

end Value
end TypedRecords
