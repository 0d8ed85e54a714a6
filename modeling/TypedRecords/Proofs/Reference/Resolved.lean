import TypedRecords.Proofs.Reference.Placed
import TypedRecords.Proofs.Superclass.Exact

/-!
# References in a database

Every reference that a run puts into a record is found by its name in the defs kept before, so the
references of a def lead to earlier positions only. Every class that a record or a type names has a
class record.
-/

namespace TypedRecords

namespace Record

/-- The reference occurs in the value of a field. -/
def Refers (r : Record) (ref : RecordRef) : Prop := ∃ f ∈ r.fields, ∃ v ∈ f.value, v.Refers ref

/-- The types of the fields name classes that satisfy `N`, and the values are placed. -/
def Placed (db : Database) (N : String → Prop) (r : Record) : Prop :=
  ∀ f ∈ r.fields, f.type.Named N ∧ ∀ v ∈ f.value, v.Placed db N

namespace Placed
variable {db db' : Database} {N M : String → Prop} {r : Record}

theorem mono (hdb : ∀ name ref, db.ref? name = some ref → db'.ref? name = some ref)
    (hNM : ∀ name, N name → M name) (h : r.Placed db N) : r.Placed db' M := by
  intro f hf
  obtain ⟨htype, hvalue⟩ := h f hf
  exact ⟨htype.mono hNM, fun v hv => (hvalue v hv).mono hdb hNM⟩

theorem ref (h : r.Placed db N) {ref : RecordRef} (hr : r.Refers ref) :
    db.ref? ref.name = some ref := by
  obtain ⟨f, hf, v, hv, hr⟩ := hr
  exact ((h f hf).2 v hv).ref hr

end Placed
end Record

theorem Draft.finish_placed {db : Database} {N : String → Prop} (hdb : db.Derives N) {d : Draft}
    (hd : d.Bounds (Value.Placed db N) (Ty.Named N)) {name : String} {anonymous isClass : Bool}
    {direct : List String} {r : Record}
    (h : d.finish db name anonymous isClass direct = .ok r) : r.Placed db N := by
  intro f hf
  obtain ⟨htype, hvalue⟩ := finish_ensures (Value.placed_formed hdb) hd h f hf
  refine ⟨htype, fun v hv => ?_⟩
  obtain ⟨u, hu, hc⟩ := hvalue v hv
  exact hu.convert htype hc

namespace Progress
variable {p p' : Progress}

namespace Classified

theorem declared_iff_get? (h : p.Classified) {name : String} :
    p.declared name = true ↔ (p.db.classes.get? name).isSome := by
  have hnone : p.db.classes.get? name = none ↔ name ∉ p.templates.map Template.name := by
    rw [RecordTable.get?_eq_none, h.names_classes, List.mem_reverse]
  rw [declared_iff, Option.isSome_iff_ne_none, ne_eq, hnone, not_not]

/-- The classes that records derive from are declared. -/
theorem declared_superclass (h : p.Classified) (side : Side) {r : Record}
    (hr : r ∈ (p.db.table side).records) {name : String}
    (hname : name ∈ r.superclasses ∨ name ∈ r.directSuperclasses) : p.declared name = true := by
  have hclosed := h.closed side r hr
  exact h.declared_iff_get?.2 (hclosed.get?_of_mem (hname.elim id (hclosed.roots name)))

theorem derives (h : p.Classified) : p.db.Derives fun name => p.declared name = true := fun _ hr =>
  ⟨fun _ hname => h.declared_superclass .defs hr (.inl hname),
    fun _ hname => h.declared_superclass .defs hr (.inr hname)⟩

end Classified

/-- All records are placed, with references to defs kept before them, and the types in templates name
declared classes. -/
structure Placed (p : Progress) : Prop where
  classified : p.Classified
  templates : ∀ t ∈ p.templates, t.Written (Ty.Declared p.declared)
  records : ∀ side, ∀ r ∈ (p.db.table side).records,
    r.Placed p.db fun name => p.declared name = true
  earlier : ∀ i r, p.db.defs.item? i = some r → ∀ ref, r.Refers ref → ref.target < i

namespace Placed

theorem start : Progress.start.Placed where
  classified := .start
  templates := nofun
  records side r hr := by cases side <;> cases hr
  earlier := nofun

theorem derives (h : p.Placed) {N : String → Prop} (hN : ∀ name, p.declared name = true → N name) :
    p.db.Derives N := fun r hr => by
  have hr := h.classified.derives r hr
  exact ⟨fun name hname => hN name (hr.1 name hname), fun name hname => hN name (hr.2 name hname)⟩

/-- What a template that is written over the classes `N` builds is placed. -/
theorem record (h : p.Placed) {N : String → Prop} (hN : ∀ name, p.declared name = true → N name)
    {t : Template} (ht : t.Written (Ty.Named N)) {bs : Bindings}
    (hbs : bs.All (Value.Placed p.db N)) {d : Draft}
    (hd : Draft.ofTemplate p.db p.templates t bs = .ok d) {name : String} {anonymous isClass : Bool}
    {direct : List String} {r : Record}
    (hr : d.finish p.db name anonymous isClass direct = .ok r) : r.Placed p.db N := by
  have hderives := h.derives hN
  have hts : ∀ u ∈ p.templates, u.Written (Ty.Named N) := fun u hu =>
    (h.templates u hu).mono fun _ htype => htype.mono hN
  exact Draft.finish_placed hderives (Draft.ofTemplate_bounds (Value.placed_formed hderives)
    h.classified.names hts ht hbs hd) hr

theorem addClass {lets : List Override} {c : ClassSyntax} {t : Template} {bs : Bindings} {d : Draft}
    {r : Record} (h : p.Placed) (hlets : ∀ o ∈ lets, o.value.Written (Ty.Declared p.declared))
    (hstep : p.ClassStep lets c p' t bs d r) : p'.Placed := by
  have hclassified := h.classified.addClass hstep
  have hgrown : p.templates <:+ p'.templates := hstep.templates ▸ List.suffix_cons ..
  have hN : ∀ name, p.declared name = true → p'.declared name = true := fun _ => declared_mono hgrown
  have htypes : ∀ type : Ty, type.Declared (fun name => name = c.name || p.declared name) →
      type.Declared p'.declared := fun type htype => by
    refine htype.mono fun name hname => ?_
    rcases Bool.or_eq_true_iff.1 hname with hc | hp
    · have htname := ClassSyntax.name_toTemplate hstep.template
      rw [declared_iff, hstep.templates, List.map_cons, htname, of_decide_eq_true hc]
      exact List.mem_cons_self ..
    · exact hN name hp
  have ht : t.Written (Ty.Declared p'.declared) := by
    refine ClassSyntax.written_toTemplate htypes (fun o ho => ?_) hstep.template
    exact (hlets o ho).mono (fun _ => id) fun _ htype => htype.mono hN
  have hts : ∀ u ∈ p.templates, u.Written (Ty.Declared p'.declared) := fun u hu =>
    (h.templates u hu).mono fun _ htype => htype.mono hN
  have hr : r.Placed p.db fun name => p'.declared name = true := by
    refine h.record hN ht ?_ hstep.draft hstep.record
    exact Template.bind_ensures (Value.placed_formed (h.derives hN)) ht (List.forall_mem_nil _)
      hstep.bindings
  refine ⟨hclassified, ?_, ?_, ?_⟩
  · rw [hstep.templates]
    exact List.forall_mem_cons.2 ⟨ht, hts⟩
  · have hold : ∀ side, ∀ s ∈ (p.db.table side).records,
        s.Placed p.db fun name => p'.declared name = true := fun side s hs =>
      (h.records side s hs).mono (fun _ _ => id) hN
    have hall : ∀ side, ∀ s ∈ (p'.db.table side).records,
        s.Placed p.db fun name => p'.declared name = true := by
      rw [hstep.db]
      rintro (_ | _) s hs
      · rcases RecordTable.mem_keep hs with hs | rfl
        · exact hold .classes s hs
        · exact hr
      · exact hold .defs s hs
    refine fun side s hs => (hall side s hs).mono (fun name ref href => ?_) fun _ => id
    rw [hstep.db]
    exact href
  · rw [hstep.db]
    exact h.earlier

theorem addDef {lets : List Override} {s : DefSyntax} {t : Template} {d : Draft} {r : Record}
    (h : p.Placed) (hlets : ∀ o ∈ lets, o.value.Written (Ty.Declared p.declared))
    (hstep : p.DefStep lets s p' t d r) : p'.Placed := by
  have hdeclared : p'.declared = p.declared := by
    unfold declared
    rw [hstep.templates]
  have ht : t.Written (Ty.Declared p.declared) :=
    DefSyntax.written_toTemplate (fun _ => id) hlets hstep.template
  have hr : r.Placed p.db fun name => p.declared name = true :=
    h.record (fun _ => id) ht (List.forall_mem_nil _) hstep.draft hstep.record
  refine ⟨h.classified.addDef hstep, ?_, ?_, ?_⟩
  · rw [hstep.templates, hdeclared]
    exact h.templates
  · have hall : ∀ side, ∀ q ∈ (p'.db.table side).records,
        q.Placed p.db fun name => p.declared name = true := by
      rw [hstep.db]
      rintro (_ | _) q hq
      · exact h.records .classes q hq
      · rcases RecordTable.mem_keep hq with hq | rfl
        · exact h.records .defs q hq
        · exact hr
    rw [hdeclared]
    refine fun side q hq => (hall side q hq).mono (fun name ref href => ?_) fun _ => id
    rw [hstep.db]
    exact Database.ref?_keep href
  · intro i q hq ref href
    rw [hstep.db] at hq
    rcases RecordTable.item?_keep_eq_some hq with hq | ⟨rfl, rfl⟩
    · exact h.earlier i q hq ref href
    · -- what the new def refers to was found before it was kept
      exact RecordTable.lt_size_of_index? (Database.ref?_eq_some_iff.1 (hr.ref href))

end Placed

theorem placed_invariant :
    Invariant Placed fun p o => o.value.Written (Ty.Declared p.declared) where
  start := .start
  lets _ h := LetSyntax.written_toOverride h
  grow h ho := ho.mono (fun _ => id) fun _ htype => htype.mono fun _ => declared_mono h
  addClass h hlets hstep := h.addClass hlets hstep
  addDef h hlets hstep := h.addDef hlets hstep

end Progress

/-! ### The reference graph -/

/-- The name is that of a class record. -/
def Database.IsClass (db : Database) (name : String) : Prop := (db.classes.get? name).isSome

/-- The def at the position `i` refers to the def at the position `j`. -/
def Database.RefersTo (db : Database) (i j : Nat) : Prop :=
  ∃ r, db.defs.item? i = some r ∧ ∃ ref, r.Refers ref ∧ ref.target = j

theorem Database.lt_of_refersTo {db : Database}
    (h : ∀ i r, db.defs.item? i = some r → ∀ ref, r.Refers ref → ref.target < i) {i j : Nat}
    (hij : Relation.TransGen db.RefersTo i j) : j < i := by
  have step : ∀ {i j}, db.RefersTo i j → j < i := by
    rintro i j ⟨r, hr, ref, href, rfl⟩
    exact h i r hr ref href
  induction hij with
  | single h => exact step h
  | tail _ h ih => exact Nat.lt_trans (step h) ih

namespace Session

/-- Every reference in a record, at any depth, is to the def that its name resolves to, which is
linked to the database like the record itself; a def refers to defs at earlier positions only, and so
never to itself on any way. Every class that a record derives from, or that the type of a field or of
a list in it names, has a class record. -/
theorem references_resolve {search : SearchPath} {name text : String} {s : Session}
    (h : read search name text = .ok s) :
    (∀ side, ∀ r ∈ (s.db.table side).records,
      r.linked = true ∧
      (∀ ref, r.Refers ref → s.db.defs.index? ref.name = some ref.target ∧
        ∃ q, ref.get? s.db.store = some q ∧ s.db.resolve ref = some q ∧ q.linked = true) ∧
      (∀ c, c ∈ r.superclasses ∨ c ∈ r.directSuperclasses → s.db.IsClass c) ∧
      ∀ f ∈ r.fields, f.type.Named s.db.IsClass ∧ ∀ v ∈ f.value, ∀ element items,
        Value.Within (.list element items) v → element.Named s.db.IsClass) ∧
    (∀ i r, s.db.defs.item? i = some r → ∀ ref, r.Refers ref → ref.target < i) ∧
    ∀ i, ¬Relation.TransGen s.db.RefersTo i i := by
  obtain ⟨db, hdb, h⟩ := bind_eq_ok.1 h
  obtain ⟨p, hp, rfl⟩ := Progress.placed_invariant.run hdb
  obtain rfl := pure_eq_ok.1 h
  have hclass : ∀ c, p.declared c = true → p.db.link.IsClass c := fun c hc => by
    show (p.db.classes.link.get? c).isSome
    rw [RecordTable.get?_link, Option.isSome_map]
    exact hp.classified.declared_iff_get?.1 hc
  have hearlier : ∀ i r, p.db.link.defs.item? i = some r → ∀ ref, r.Refers ref → ref.target < i := by
    intro i r hr
    obtain ⟨q, hq, rfl⟩ := RecordTable.item?_link_eq_some hr
    exact hp.earlier i q hq
  refine ⟨fun side r hr => ?_, hearlier, fun i hi => ?_⟩
  · rw [Database.table_link] at hr
    obtain ⟨q, hq, rfl⟩ := List.mem_map.1 hr
    have hplaced : Record.Placed p.db.link _ _ := (hp.records side q hq).mono
      (fun name ref href => (Database.ref?_link p.db name).trans href) hclass
    refine ⟨rfl, fun ref href => ?_, fun c hc => ?_, fun f hf => ⟨(hplaced f hf).1, ?_⟩⟩
    · have hindex := Database.ref?_eq_some_iff.1 (hplaced.ref href)
      obtain ⟨r, hr, -⟩ := RecordTable.item?_of_index? hindex
      obtain ⟨q, hq, rfl⟩ := RecordTable.item?_link_eq_some hr
      exact ⟨hindex, _, hr, (RecordTable.get?_eq_item? hindex).trans hr, rfl⟩
    · exact hclass c (hp.classified.declared_superclass side hq hc)
    · exact fun v hv element items hw => ((hplaced f hf).2 v hv).element hw
  · exact Nat.lt_irrefl i (Database.lt_of_refersTo hearlier hi)

/-- A def that refers to another in a field, in lists and in a dag. -/
def entangled : String :=
  "class A; def X : A; def Y \x7b A a = X; list<list<A>> l = [[X]]; dag d = (X a, X:$x); \x7d"

theorem entangled_resolve :
    ∃ s, read ⟨.emptyAt [], []⟩ "entangled" entangled = .ok s ∧
      s.db.defs.records.map (fun r => r.fields.map Field.value) =
        [[], [some (.record ⟨"X", 0⟩),
          some (.list (.list (.record "A")) [.list (.record "A") [.record ⟨"X", 0⟩]]),
          some (.dag (.record ⟨"X", 0⟩)
            [⟨none, some (.record ⟨"X", 0⟩)⟩, ⟨some "x", some (.record ⟨"X", 0⟩)⟩])]] ∧
      (∀ r ∈ s.db.defs.records, ∀ ref, r.Refers ref →
        s.db.defs.index? ref.name = some ref.target) ∧
      ∀ i, ¬Relation.TransGen s.db.RefersTo i i := by
  have hrun : ((read ⟨.emptyAt [], []⟩ "entangled" entangled).toOption.map fun s =>
      s.db.defs.records.map fun r => r.fields.map Field.value) =
        some [[], [some (.record ⟨"X", 0⟩),
          some (.list (.list (.record "A")) [.list (.record "A") [.record ⟨"X", 0⟩]]),
          some (.dag (.record ⟨"X", 0⟩)
            [⟨none, some (.record ⟨"X", 0⟩)⟩, ⟨some "x", some (.record ⟨"X", 0⟩)⟩])]] := by
    decide +kernel
  obtain ⟨s, h, hvalues⟩ := ok_of_toOption_map hrun
  obtain ⟨hrecords, -, hacyclic⟩ := references_resolve h
  refine ⟨s, h, hvalues, fun r hr ref href => ?_, hacyclic⟩
  exact ((hrecords .defs r hr).2.1 ref href).1

end Session
end TypedRecords
