import TypedRecords.Proofs.Superclass.Exact
import TypedRecords.Proofs.Typing.Bound
import TypedRecords.Proofs.Value.Conforms

/-!
# Well typed databases

Every value that a run puts into a field conforms to the declared type of the field, and every list
in it to the element type it records. What conforms goes on to conform, as the records that
references point at stay in their places while others are added behind them.
-/

namespace TypedRecords

theorem Value.sound_formed (db : Database) :
    Value.Formed db (Value.Sound db.store) fun _ => True where
  bits := .bits
  int := .int
  string := .string
  code := .code
  list {vs ws element place} hvs _ h := by
    have hitem : ∀ w ∈ ws, w.Sound db.store ∧ Conforms db.store element w := fun w hw => by
      obtain ⟨v, hv, hc⟩ := mem_of_convertAll (convertAll_of_convertElements h) w hw
      exact convert_sound (hvs v hv) hc
    exact .list (fun w hw => (hitem w hw).1) fun w hw => (hitem w hw).2
  dag _ h := .dag h
  record h := by
    obtain ⟨r, hr, -⟩ := Database.exists_of_ref? h
    exact .record hr
  convert hv _ h := (convert_sound hv h).1
  element _ := trivial
  common _ _ := trivial

/-- Every value of the record is sound and conforms to the type of its field. -/
def Record.WellTyped (store : Store) (r : Record) : Prop :=
  ∀ f ∈ r.fields, ∀ v ∈ f.value, v.Sound store ∧ Conforms store f.type v

theorem Record.WellTyped.mono {store store' : Store} (hle : store.Le store') {r : Record}
    (h : r.WellTyped store) : r.WellTyped store' := fun f hf v hv =>
  ⟨(h f hf v hv).1.mono hle, (h f hf v hv).2.mono hle⟩

theorem Draft.finish_wellTyped {d : Draft} {db : Database}
    (hd : d.Bounds (Value.Sound db.store) fun _ => True) {name : String}
    {anonymous isClass : Bool} {direct : List String} {r : Record}
    (h : d.finish db name anonymous isClass direct = .ok r) : r.WellTyped db.store := by
  intro f hf v hv
  obtain ⟨u, hu, hc⟩ := (finish_ensures (Value.sound_formed db) hd h f hf).2 v hv
  exact Value.convert_sound hu hc

namespace Progress

/-- The templates are written, and all records are well typed. -/
structure WellTyped (p : Progress) : Prop where
  classified : p.Classified
  templates : ∀ t ∈ p.templates, t.Written fun _ => True
  records : ∀ side, ∀ r ∈ (p.db.table side).records, r.WellTyped p.db.store

namespace WellTyped
variable {p p' : Progress}

theorem start : Progress.start.WellTyped where
  classified := .start
  templates := nofun
  records side r hr := by cases side <;> cases hr

theorem record (h : p.WellTyped) {t : Template} (ht : t.Written fun _ => True) {bs : Bindings}
    (hbs : bs.All (Value.Sound p.db.store)) {d : Draft}
    (hd : Draft.ofTemplate p.db p.templates t bs = .ok d) {name : String} {anonymous isClass : Bool}
    {direct : List String} {r : Record}
    (hr : d.finish p.db name anonymous isClass direct = .ok r) : r.WellTyped p.db.store :=
  Draft.finish_wellTyped (Draft.ofTemplate_bounds (Value.sound_formed p.db) h.classified.names
    h.templates ht hbs hd) hr

theorem addClass {lets : List Override} {c : ClassSyntax} {t : Template} {bs : Bindings} {d : Draft}
    {r : Record} (h : p.WellTyped) (hlets : ∀ o ∈ lets, o.value.Written fun _ => True)
    (hstep : p.ClassStep lets c p' t bs d r) : p'.WellTyped := by
  have ht := ClassSyntax.written_toTemplate (fun _ _ => trivial) hlets hstep.template
  have hbs := Template.bind_ensures (Value.sound_formed p.db) ht (List.forall_mem_nil _)
    hstep.bindings
  have hr := h.record ht hbs hstep.draft hstep.record
  refine ⟨h.classified.addClass hstep, ?_, ?_⟩
  · rw [hstep.templates]
    exact List.forall_mem_cons.2 ⟨ht, h.templates⟩
  · rw [hstep.db]
    rintro (_ | _) s hs
    · rcases RecordTable.mem_keep hs with hs | rfl
      · exact h.records .classes s hs
      · exact hr
    · exact h.records .defs s hs

theorem addDef {lets : List Override} {s : DefSyntax} {t : Template} {d : Draft} {r : Record}
    (h : p.WellTyped) (hlets : ∀ o ∈ lets, o.value.Written fun _ => True) (hstep : p.DefStep lets s p' t d r) :
    p'.WellTyped := by
  have ht := DefSyntax.written_toTemplate (fun _ _ => trivial) hlets hstep.template
  have hr := h.record ht (List.forall_mem_nil _) hstep.draft hstep.record
  have hle : p.db.store.Le p'.db.store := by
    intro i s hs
    rw [hstep.db]
    exact ⟨s, RecordTable.item?_keep hs, rfl, rfl⟩
  refine ⟨h.classified.addDef hstep, hstep.templates ▸ h.templates, ?_⟩
  have hall : ∀ side, ∀ q ∈ (p'.db.table side).records, q.WellTyped p.db.store := by
    rw [hstep.db]
    rintro (_ | _) q hq
    · exact h.records .classes q hq
    · rcases RecordTable.mem_keep hq with hq | rfl
      · exact h.records .defs q hq
      · exact hr
  exact fun side q hq => (hall side q hq).mono hle

end WellTyped

theorem wellTyped_invariant : Invariant WellTyped fun _ o => o.value.Written fun _ => True where
  start := .start
  lets _ h := (LetSyntax.written_toOverride h).mono (fun _ => id) fun _ _ => trivial
  grow _ h := h
  addClass h hlets hstep := h.addClass hlets hstep
  addDef h hlets hstep := h.addDef hlets hstep

end Progress

namespace Session

/-- Every value of a field conforms to the declared type of the field, so that it is of the kind of
the field, and every list that occurs in it has items of the element type it records. -/
theorem fields_conform {search : SearchPath} {name text : String} {s : Session}
    (h : read search name text = .ok s) :
    ∀ side, ∀ r ∈ (s.db.table side).records, ∀ f ∈ r.fields, ∀ v, f.value = some v →
      Conforms s.db.store f.type v ∧ v.kind = f.kind ∧
      ∀ element items, Value.Within (.list element items) v →
        ∀ x ∈ items, Conforms s.db.store element x := by
  obtain ⟨db, hdb, h⟩ := bind_eq_ok.1 h
  obtain ⟨p, hp, rfl⟩ := Progress.wellTyped_invariant.run hdb
  obtain rfl := pure_eq_ok.1 h
  intro side r hr f hf v hv
  rw [Database.table_link] at hr
  obtain ⟨q, hq, rfl⟩ := List.mem_map.1 hr
  obtain ⟨hsound, hconforms⟩ := (hp.records side q hq).mono p.db.store_le_link f hf v hv
  exact ⟨hconforms, hconforms.kind, fun _ _ hw => hsound.conforms_of_within hw⟩

/-- A description in which values are converted as arguments, as elements and inside of a dag. -/
def conversions : String :=
  "class A<int x = 3> \x7b bits<4> b = x; \x7d def D : A<4>; " ++
  "def E \x7b list<A> l = [D]; dag d = (D [1, 2]); \x7d"

theorem conversions_conform :
    ∃ s, read ⟨.emptyAt [], []⟩ "conversions" conversions = .ok s ∧
      s.db.defs.records.map (fun r => r.fields.map Field.value) =
        [[some (.bits [some false, some false, some true, some false])],
          [some (.list (.record "A") [.record ⟨"D", 0⟩]),
            some (.dag (.record ⟨"D", 0⟩) [⟨none, some (.list .int [.int 1, .int 2])⟩])]] ∧
      ∀ side, ∀ r ∈ (s.db.table side).records, ∀ f ∈ r.fields, ∀ v, f.value = some v →
        Conforms s.db.store f.type v ∧ v.kind = f.kind ∧
        ∀ element items, Value.Within (.list element items) v →
          ∀ x ∈ items, Conforms s.db.store element x := by
  have hrun : ((read ⟨.emptyAt [], []⟩ "conversions" conversions).toOption.map fun s =>
      s.db.defs.records.map fun r => r.fields.map Field.value) =
        some [[some (.bits [some false, some false, some true, some false])],
          [some (.list (.record "A") [.record ⟨"D", 0⟩]),
            some (.dag (.record ⟨"D", 0⟩) [⟨none, some (.list .int [.int 1, .int 2])⟩])]] := by
    decide +kernel
  cases h : read ⟨.emptyAt [], []⟩ "conversions" conversions with
  | error e =>
    rw [h] at hrun
    cases hrun
  | ok s =>
    rw [h] at hrun
    exact ⟨s, rfl, Option.some.inj hrun, fields_conform h⟩

end Session
end TypedRecords
