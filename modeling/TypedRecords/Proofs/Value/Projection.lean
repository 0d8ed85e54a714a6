import TypedRecords.Proofs.Typing.WellTyped

/-!
# Conversion as a projection

A type `Admits` the values that an assignment to it leaves as they are. Conversion answers such values
only, and a value is its own conversion exactly where the type admits it (`Ty.admits_iff_convert`), so
converting what was converted changes nothing more. The values in the records of a session are all
admitted by their own types, at any depth.
-/

namespace TypedRecords

/-- The value is of the type: a bit vector of its width, a list that records its element type and whose
items are of it, a reference to a record that is of the class. A reference of no particular class is
admitted even where its record is gone. -/
def Ty.Admits (store : Store) : Ty → Value → Prop
  | .bit, .bit _ | .int, .int _ | .string, .string _ | .code, .code _ | .dag, .dag .. => True
  | .bits width, .bits lsbFirst => lsbFirst.length = width
  | .list element, .list recorded items =>
    recorded = element ∧ ∀ v ∈ items, element.Admits store v
  | .record name, .record ref =>
    ∃ r, ref.get? store = some r ∧ (r.name = name ∨ name ∈ r.superclasses)
  | .anyRecord, .record _ => True
  | _, _ => False

variable {store : Store}

theorem Conforms.admits {type : Ty} {v : Value} (h : Conforms store type v) : type.Admits store v := by
  induction type generalizing v with
  | list element ih =>
    cases v with
    | list recorded items => exact ⟨h.1, fun w hw => ih (h.2 w hw)⟩
    | _ => exact h.elim
  | anyRecord => cases v <;> trivial
  | _ => cases v <;> exact h

namespace Ty

/-! ### Conversion to a type -/

theorem admits_of_convert {type : Ty} {v w : Value} (h : v.convert store type = some w) :
    type.Admits store w := by
  induction type generalizing v w with
  | list element ih =>
    cases Value.converts_of_convert h with
    | list hws =>
      refine ⟨rfl, fun x hx => ?_⟩
      obtain ⟨u, -, hu⟩ := Value.mem_of_convertAll hws x hx
      exact ih hu
  | bits width =>
    cases Value.converts_of_convert h with
    | bitBits | bits => rfl
    | intBits hl => exact Value.length_ofInt? hl
  | record name =>
    cases Value.converts_of_convert h with
    | record hinstance => exact Value.isInstance_iff.1 hinstance
  | _ => cases Value.converts_of_convert h <;> trivial

theorem convertAll_eq_self {element : Ty} {vs : List Value}
    (h : ∀ v ∈ vs, v.convert store element = some v) :
    Value.convertAll store vs element = some vs := by
  induction vs with
  | nil => rfl
  | cons v vs ih =>
    obtain ⟨hv, hvs⟩ := List.forall_mem_cons.1 h
    rw [Value.convertAll, hv, ih hvs]
    rfl

theorem Admits.convert {type : Ty} {v : Value} (h : type.Admits store v) :
    v.convert store type = some v := by
  induction type generalizing v with
  | list element ih =>
    cases v with
    | list recorded items =>
      obtain ⟨rfl, hitems⟩ := h
      rw [Value.convert, convertAll_eq_self fun x hx => ih (hitems x hx)]
      rfl
    | _ => exact h.elim
  | bits width =>
    cases v with
    | bits lsbFirst => exact if_pos h
    | _ => exact h.elim
  | record name =>
    cases v with
    | record ref => exact if_pos (Value.isInstance_iff.2 h)
    | _ => exact h.elim
  | _ => cases v <;> first | rfl | exact h.elim

theorem admits_iff_convert {type : Ty} {v : Value} :
    type.Admits store v ↔ v.convert store type = some v :=
  ⟨Admits.convert, admits_of_convert⟩

end Ty

/-! ### The type of a value -/

namespace Value

theorem Sound.of_within {v w : Value} (h : v.Sound store) (hw : Within w v) : w.Sound store := by
  induction hw with
  | refl => exact h
  | item hv _ ih => cases h with | list hs _ => exact ih (hs _ hv)
  | arg ha hv _ ih => cases h with | dag h => exact ih (h _ ha _ hv)

/-- The type of a sound value admits it, where records derive from their direct superclasses. -/
theorem Sound.admits_type {v : Value} (h : v.Sound store)
    (hstore : ∀ i r, store i = some r → ∀ c ∈ r.directSuperclasses, c ∈ r.superclasses) :
    (v.type store).Admits store v := by
  cases h with
  | list _ hc => exact ⟨rfl, fun x hx => (hc x hx).admits⟩
  | @record ref r hr =>
    rw [type, hr, Option.bind_some]
    cases hhead : r.directSuperclasses.head? with
    | none => trivial
    | some c => exact ⟨r, hr, .inr (hstore _ r hr c (List.mem_of_head? hhead))⟩
  | bits lsbFirst => rfl
  | _ => trivial

end Value

namespace Session

theorem sound_of_read {search : SearchPath} {name text : String} {s : Session}
    (h : read search name text = .ok s) {side : Side} {r : Record}
    (hr : r ∈ (s.db.table side).records) {f : Field} (hf : f ∈ r.fields) {v : Value}
    (hv : v ∈ f.value) : v.Sound s.db.store := by
  obtain ⟨db, hdb, h⟩ := bind_eq_ok.1 h
  obtain ⟨p, hp, rfl⟩ := Progress.wellTyped_invariant.run hdb
  obtain rfl := pure_eq_ok.1 h
  rw [Database.table_link] at hr
  obtain ⟨q, hq, rfl⟩ := List.mem_map.1 hr
  exact ((hp.records side q hq).mono p.db.store_le_link f hf v hv).1

theorem mem_superclasses_of_store {search : SearchPath} {name text : String} {s : Session}
    (h : read search name text = .ok s) (i : Nat) (r : Record) (hr : s.db.store i = some r) :
    ∀ c ∈ r.directSuperclasses, c ∈ r.superclasses :=
  (closed h .defs r (List.mem_of_getElem? hr)).roots

end Session

/-- What a value converts to is of the type asked for and converts to itself, and a value converts to
itself exactly where it is of the type already. Every value in a record of a session, at any depth,
converts to itself at its own type. -/
theorem Value.convert_projects :
    (∀ (store : Store) (v : Value) (type : Ty),
      (∀ w, v.convert store type = some w →
        type.Admits store w ∧ w.convert store type = some w) ∧
      (v.convert store type = some v ↔ type.Admits store v)) ∧
    ∀ (search : SearchPath) (name text : String) (s : Session),
      Session.read search name text = .ok s →
        ∀ side, ∀ r ∈ (s.db.table side).records, ∀ f ∈ r.fields, ∀ u, f.value = some u →
          ∀ v, Within v u → v.convert s.db.store (v.type s.db.store) = some v := by
  refine ⟨fun store v type => ⟨fun w hw => ?_, Ty.admits_iff_convert.symm⟩, ?_⟩
  · have hadmits := Ty.admits_of_convert hw
    exact ⟨hadmits, hadmits.convert⟩
  · intro search name text s h side r hr f hf u hu v hv
    have hsound := (Session.sound_of_read h hr hf hu).of_within hv
    exact (hsound.admits_type (Session.mem_superclasses_of_store h)).convert

namespace Session

/-- A def that holds lists, one of them in a dag, with a reference in it. -/
def nestings : String :=
  "class A; def X : A; def Y \x7b list<bits<2>> l = [1, 3]; dag d = (X [X], 2:$n); \x7d"

theorem nestings_fixed :
    (let wide := Value.list .int [.int 1, .int 3]
     let narrow := Value.list (.bits 2) [.bits [some true, some false], .bits [some true, some true]]
     wide.convert Database.empty.store (.list (.bits 2)) = some narrow ∧
      (Ty.list (.bits 2)).Admits Database.empty.store narrow ∧
      narrow.convert Database.empty.store (.list (.bits 2)) = some narrow) ∧
    ∃ s, read ⟨.emptyAt [], []⟩ "nestings" nestings = .ok s ∧
      s.db.defs.records.map (fun r => r.fields.map Field.value) =
        [[], [some (.list (.bits 2)
            [.bits [some true, some false], .bits [some true, some true]]),
          some (.dag (.record ⟨"X", 0⟩) [⟨none, some (.list (.record "A") [.record ⟨"X", 0⟩])⟩,
            ⟨some "n", some (.int 2)⟩])]] ∧
      ∀ side, ∀ r ∈ (s.db.table side).records, ∀ f ∈ r.fields, ∀ u, f.value = some u →
        ∀ v, Value.Within v u → v.convert s.db.store (v.type s.db.store) = some v := by
  have hrun : ((read ⟨.emptyAt [], []⟩ "nestings" nestings).toOption.map fun s =>
      s.db.defs.records.map fun r => r.fields.map Field.value) =
        some [[], [some (.list (.bits 2)
            [.bits [some true, some false], .bits [some true, some true]]),
          some (.dag (.record ⟨"X", 0⟩) [⟨none, some (.list (.record "A") [.record ⟨"X", 0⟩])⟩,
            ⟨some "n", some (.int 2)⟩])]] := by
    decide +kernel
  obtain ⟨s, h, hvalues⟩ := ok_of_toOption_map hrun
  have hwide : (Value.list .int [.int 1, .int 3]).convert Database.empty.store (.list (.bits 2)) =
      some (.list (.bits 2) [.bits [some true, some false], .bits [some true, some true]]) := by
    decide +kernel
  exact ⟨⟨hwide, (Value.convert_projects.1 _ _ _).1 _ hwide⟩, s, h, hvalues,
    Value.convert_projects.2 _ _ _ s h⟩

end Session
end TypedRecords
