import TypedRecords.Proofs.Typing.WellTyped

/-!
# Defs held under a class

A def that a record holds under a class as declared type derives from the class, or has its name.
Defs and classes are named apart, so a def may have the name of a class without deriving from it
(`Session.namesake_not_derived`).
-/

namespace TypedRecords

/-- The record holds the reference under the declared type of a class: in a field of the type, or as
an item of a list of the type, at any depth. -/
inductive Record.HoldsAs (r : Record) (className : String) (ref : RecordRef) : Prop
  | field {f : Field} (hf : f ∈ r.fields) (ht : f.type = .record className)
      (hv : f.value = some (.record ref)) : HoldsAs r className ref
  | item {f : Field} {v : Value} {items : List Value} (hf : f ∈ r.fields) (hv : f.value = some v)
      (hw : Value.Within (.list (.record className) items) v) (hi : .record ref ∈ items) :
      HoldsAs r className ref

theorem Record.WellTyped.conforms_of_holdsAs {store : Store} {r : Record} (h : r.WellTyped store)
    {className : String} {ref : RecordRef} (hr : r.HoldsAs className ref) :
    Conforms store (.record className) (.record ref) := by
  cases hr with
  | @field f hf ht hv => exact ht ▸ (h f hf _ hv).2
  | @item f v items hf hv hw hi => exact (h f hf v hv).1.conforms_of_within hw _ hi

namespace Session

/-- A def held under a class derives from the class and is listed among the defs derived from it,
unless it has the name of the class. -/
theorem classTyped_derives {search : SearchPath} {name text : String} {s : Session}
    (h : read search name text = .ok s) :
    ∀ side, ∀ r ∈ (s.db.table side).records, ∀ className ref, r.HoldsAs className ref →
      ∃ q, ref.get? s.db.store = some q ∧ q ∈ s.db.defs.records ∧
        (q.name ≠ className →
          q.isSubclassOf className = true ∧ q ∈ s.db.derivedDefs className) := by
  obtain ⟨db, hdb, h⟩ := bind_eq_ok.1 h
  obtain ⟨p, hp, rfl⟩ := Progress.wellTyped_invariant.run hdb
  obtain rfl := pure_eq_ok.1 h
  intro side r hr className ref hholds
  rw [Database.table_link] at hr
  obtain ⟨r₀, hr₀, rfl⟩ := List.mem_map.1 hr
  have hwell : Record.WellTyped p.db.link.store { r₀ with linked := true } :=
    (hp.records side r₀ hr₀).mono p.db.store_le_link
  obtain ⟨q, hq, hname⟩ := hwell.conforms_of_holdsAs hholds
  have hmem : q ∈ p.db.link.defs.records := List.mem_of_getElem? hq
  refine ⟨q, hq, hmem, fun hne => ?_⟩
  have hsub : q.isSubclassOf className = true :=
    List.contains_iff_mem.2 (hname.resolve_left hne)
  exact ⟨hsub, List.mem_filter.2 ⟨hmem, hsub⟩⟩

/-- A def held under a class that it derives from through another. -/
def derivedHeld : String :=
  "class A; class B : A; def X : B; def Y \x7b A a = X; list<list<A>> l = [[X]]; \x7d"

theorem derivedHeld_derives :
    ∃ s, read ⟨.emptyAt [], []⟩ "derived" derivedHeld = .ok s ∧
      ∃ r ∈ s.db.defs.records, r.HoldsAs "A" ⟨"X", 0⟩ ∧
        ∃ q, RecordRef.get? ⟨"X", 0⟩ s.db.store = some q ∧ q.isSubclassOf "A" = true ∧
          q ∈ s.db.derivedDefs "A" := by
  have hrun : ((read ⟨.emptyAt [], []⟩ "derived" derivedHeld).toOption.map fun s =>
      (s.db.defs.records[1]?.map Record.fields, s.db.defs.records.map Record.name)) =
        some (some [⟨"a", .record "A", some (.record ⟨"X", 0⟩)⟩,
          ⟨"l", .list (.list (.record "A")),
            some (.list (.list (.record "A")) [.list (.record "A") [.record ⟨"X", 0⟩]])⟩],
          ["X", "Y"]) := by
    decide +kernel
  obtain ⟨s, h, hdefs⟩ := ok_of_toOption_map hrun
  obtain ⟨hfields, hnames⟩ := Prod.mk.inj hdefs
  obtain ⟨r, hr, hrf⟩ := Option.map_eq_some_iff.1 hfields
  have hmem : r ∈ s.db.defs.records := List.mem_of_getElem? hr
  have hholds : r.HoldsAs "A" ⟨"X", 0⟩ := .field (hrf ▸ List.mem_cons_self ..) rfl rfl
  obtain ⟨q, hq, hqmem, hderives⟩ := classTyped_derives h .defs r hmem "A" ⟨"X", 0⟩ hholds
  have hqname : q.name ∈ ["X", "Y"] := hnames ▸ List.mem_map_of_mem hqmem
  have hne : q.name ≠ "A" := by
    rintro heq
    simp [heq] at hqname
  exact ⟨s, h, r, hmem, hholds, q, hq, hderives hne⟩

/-- A def that has the name of a class and derives from none. -/
def namesake : String := "class A; def A; def B \x7b A x = A; \x7d"

def namesakeDefs : List Record :=
  [⟨"A", false, false, [], [], [], true⟩,
    ⟨"B", false, false, [⟨"x", .record "A", some (.record ⟨"A", 0⟩)⟩], [], [], true⟩]

/-- A def with the name of a class is held under the class though it does not derive from it. -/
theorem namesake_not_derived :
    ∃ s, read ⟨.emptyAt [], []⟩ "namesake" namesake = .ok s ∧
      ∃ r ∈ s.db.defs.records, r.HoldsAs "A" ⟨"A", 0⟩ ∧
        ∃ q, RecordRef.get? ⟨"A", 0⟩ s.db.store = some q ∧ q.isSubclassOf "A" = false ∧
          s.db.derivedDefs "A" = [] := by
  have hrun : ((read ⟨.emptyAt [], []⟩ "namesake" namesake).toOption.map fun s =>
      s.db.defs.records) = some namesakeDefs := by
    decide +kernel
  obtain ⟨s, h, hdefs⟩ := ok_of_toOption_map hrun
  have hdefs : s.db.defs.records = namesakeDefs := hdefs
  have hget : RecordRef.get? ⟨"A", 0⟩ s.db.store = namesakeDefs[0]? := congrArg (·[0]?) hdefs
  have hderived : s.db.derivedDefs "A" = namesakeDefs.filter (·.isSubclassOf "A") :=
    congrArg (List.filter _) hdefs
  refine ⟨s, h, namesakeDefs[1], ?_, .field (List.mem_cons_self ..) rfl rfl, namesakeDefs[0], hget,
    rfl, hderived⟩
  rw [hdefs]
  exact List.getElem_mem _

end Session
end TypedRecords
