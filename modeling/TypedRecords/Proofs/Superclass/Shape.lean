import TypedRecords.Proofs.Inherit.Shape
import TypedRecords.Proofs.Superclass.Exact

/-!
# A derived record has its base's shape

The records of a run have the shapes of the templates that they were built from. A superclass of a
record has its own superclasses among those of the record, so the fields of its record are found there
with their types; and the classes of the first parent are inherited before all others, so its fields
come first (`Session.shape_inherited`).
-/

namespace TypedRecords

namespace Record
variable {r : Record}

theorem getElem?_of_lastIndex? {name : String} {fs : List Field} {start i : Nat}
    (h : fieldIndex?.lastIndex? name fs start = some i) :
    ∃ k f, i = start + k ∧ fs[k]? = some f ∧ f.name = name := by
  induction fs generalizing start with
  | nil => cases h
  | cons f fs ih =>
    rw [fieldIndex?.lastIndex?] at h
    cases hrest : fieldIndex?.lastIndex? name fs (start + 1) with
    | some j =>
      rw [hrest] at h
      obtain ⟨k, g, hi, hk, hg⟩ := ih (hrest.trans h)
      exact ⟨k + 1, g, by omega, hk, hg⟩
    | none =>
      rw [hrest, Option.orElse_none] at h
      by_cases hname : f.name = name
      · rw [if_pos hname] at h
        exact ⟨0, f, (Option.some.inj h).symm, rfl, hname⟩
      · rw [if_neg hname] at h
        cases h

theorem isSome_lastIndex? {name : String} {fs : List Field} (h : ∃ f ∈ fs, f.name = name)
    (start : Nat) : (fieldIndex?.lastIndex? name fs start).isSome := by
  induction fs generalizing start with
  | nil => simp at h
  | cons f fs ih =>
    rw [fieldIndex?.lastIndex?]
    cases hrest : fieldIndex?.lastIndex? name fs (start + 1) with
    | some j => rfl
    | none =>
      obtain hname | hfs := (List.exists_mem_cons_iff ..).1 h
      · rw [Option.orElse_none, if_pos hname]
        rfl
      · have hsome := ih hfs (start + 1)
        rw [hrest] at hsome
        cases hsome

/-- Where no two fields have one name, a name finds the one slot that has it. -/
theorem fieldIndex?_eq_some (hnd : (r.fields.map Field.name).Nodup) {name : String} {i : Nat} :
    r.fieldIndex? name = some i ↔ ∃ f, r.fields[i]? = some f ∧ f.name = name := by
  have hsound : ∀ {j}, r.fieldIndex? name = some j → ∃ f, r.fields[j]? = some f ∧ f.name = name := by
    intro j hj
    obtain ⟨k, f, rfl, hf, hname⟩ := getElem?_of_lastIndex? hj
    exact ⟨f, (Nat.zero_add k).symm ▸ hf, hname⟩
  refine ⟨hsound, fun ⟨f, hf, hname⟩ => ?_⟩
  obtain ⟨j, hj⟩ := Option.isSome_iff_exists.1
    (isSome_lastIndex? ⟨f, List.mem_of_getElem? hf, hname⟩ 0)
  obtain ⟨g, hg, hgname⟩ := hsound hj
  have hnames : (r.fields.map Field.name)[i]? = (r.fields.map Field.name)[j]? := by
    rw [List.getElem?_map, List.getElem?_map, hf, hg, Option.map_some, Option.map_some, hname, hgname]
  have hlt : i < (r.fields.map Field.name).length := by
    rw [List.length_map]
    exact (List.getElem?_eq_some_iff.1 hf).1
  obtain rfl := (List.getElem?_inj hlt hnd).1 hnames
  exact hj

theorem field?_eq_some (hnd : (r.fields.map Field.name).Nodup) {name : String} {f : Field} :
    r.field? name = some f ↔ f ∈ r.fields ∧ f.name = name := by
  rw [field?, Option.bind_eq_some_iff]
  constructor
  · rintro ⟨i, hi, hf⟩
    obtain ⟨g, hg, hname⟩ := (fieldIndex?_eq_some hnd).1 hi
    obtain rfl := Option.some.inj (hf.symm.trans hg)
    exact ⟨List.mem_of_getElem? hf, hname⟩
  · rintro ⟨hf, hname⟩
    obtain ⟨i, hi⟩ := List.mem_iff_getElem?.1 hf
    exact ⟨i, (fieldIndex?_eq_some hnd).2 ⟨f, hi, hname⟩, hi⟩

end Record

/-- The first direct superclass is the first parent that the declaration names. -/
theorem Template.head?_directSuperclasses (t : Template) :
    t.directSuperclasses.head? = t.parents.head?.map ParentRef.name := by
  have hkeep : ∀ (ps : List ParentRef) (first : String) (names : List String),
      (ps.foldl (fun ns p => if ns.contains p.name then ns else ns ++ [p.name])
        (first :: names)).head? = some first := by
    intro ps
    induction ps with
    | nil => exact fun _ _ => rfl
    | cons p ps ih =>
      intro first names
      rw [List.foldl_cons]
      split
      · exact ih first names
      · exact ih first (names ++ [p.name])
  unfold directSuperclasses
  cases t.parents with
  | nil => rfl
  | cons p ps => exact hkeep ps p.name []

namespace Progress

/-- Every record is built from a template: that of a class from the one of its name and the templates
behind it, that of a def from one whose parents were looked up in the oldest of the templates. -/
structure Shaped (p : Progress) : Prop where
  classified : p.Classified
  classes : ∀ {t : Template} {older : List Template}, t :: older <:+ p.templates →
    ∀ {c : Record}, p.db.classes.get? t.name = some c → ∃ us, c.BuiltFrom older t us
  defs : ∀ r ∈ p.db.defs.records, ∃ ts t us, ts <:+ p.templates ∧ r.BuiltFrom ts t us

namespace Shaped
variable {p p' : Progress}

theorem addClass {lets : List Override} {c : ClassSyntax} {t : Template} {bs : Bindings} {d : Draft}
    {r : Record} (h : p.Shaped) (hstep : p.ClassStep lets c p' t bs d r) : p'.Shaped := by
  have hbuilt := Draft.builtFrom_of_finish h.classified.names hstep.draft hstep.record
  have hnew := h.classified.new_of_classStep hstep
  have hname : r.name = t.name := by
    obtain ⟨m, -, rfl⟩ := Draft.finishIn_eq_ok.1 hstep.record
    exact (ClassSyntax.name_toTemplate hstep.template).symm
  refine ⟨h.classified.addClass hstep, fun {t' older} ht' {c'} hc' => ?_, fun q hq => ?_⟩
  · rw [hstep.db] at hc'
    rw [hstep.templates] at ht'
    obtain heq | ht' := List.suffix_cons_iff.1 ht'
    · obtain ⟨rfl, rfl⟩ := List.cons.inj heq
      rw [RecordTable.get?, RecordTable.records_keep hnew, List.find?_append, ← RecordTable.get?,
        ← hname, hnew, Option.none_or, List.find?_singleton, if_pos (by simp)] at hc'
      exact Option.some.inj hc' ▸ hbuilt
    · obtain ⟨c, hc, -⟩ := h.classified.get?_of_mem (ht'.subset (List.mem_cons_self ..))
      rw [RecordTable.get?_keep hc] at hc'
      exact h.classes ht' (Option.some.inj hc' ▸ hc)
  · rw [hstep.db] at hq
    obtain ⟨ts, t', us, hts, hq⟩ := h.defs q hq
    exact ⟨ts, t', us, hstep.templates ▸ hts.trans (List.suffix_cons ..), hq⟩

theorem addDef {lets : List Override} {s : DefSyntax} {t : Template} {d : Draft} {r : Record}
    (h : p.Shaped) (hstep : p.DefStep lets s p' t d r) : p'.Shaped := by
  obtain ⟨us, hbuilt⟩ := Draft.builtFrom_of_finish h.classified.names hstep.draft hstep.record
  refine ⟨h.classified.addDef hstep, fun {t' older} ht' {c'} hc' => ?_, fun q hq => ?_⟩
  · rw [hstep.db] at hc'
    exact h.classes (hstep.templates ▸ ht') hc'
  · rw [hstep.db] at hq
    rw [hstep.templates]
    obtain hq | rfl := RecordTable.mem_keep hq
    · exact h.defs q hq
    · exact ⟨p.templates, t, us, List.suffix_rfl, hbuilt⟩

theorem invariant : Invariant Shaped fun _ _ => True where
  start := ⟨.start, fun _ _ hc => (nomatch hc), fun _ hr => (nomatch hr)⟩
  lets _ _ := trivial
  grow _ h := h
  addClass h _ hstep := h.addClass hstep
  addDef h _ hstep := h.addDef hstep

/-- The record of a class is built from the template of its name. -/
theorem builtFrom_class (h : p.Shaped) {t : Template} (ht : t ∈ p.templates) {c : Record}
    (hc : p.db.classes.get? t.name = some c) :
    ∃ older vs, t :: older <:+ p.templates ∧ c.BuiltFrom older t vs := by
  obtain ⟨newer, older, heq⟩ := List.append_of_mem ht
  have hsuffix : t :: older <:+ p.templates := heq ▸ List.suffix_append ..
  obtain ⟨vs, hbuilt⟩ := h.classes hsuffix hc
  exact ⟨older, vs, hsuffix, hbuilt⟩

theorem builtFrom (h : p.Shaped) {side : Side} {r : Record} (hr : r ∈ (p.db.table side).records) :
    ∃ ts t us, ts <:+ p.templates ∧ r.BuiltFrom ts t us := by
  cases side with
  | defs => exact h.defs r hr
  | classes =>
    have hmem : r.name ∈ p.db.classes.names := List.mem_map_of_mem hr
    rw [h.classified.names_classes, List.mem_reverse] at hmem
    obtain ⟨t, ht, hname⟩ := List.mem_map.1 hmem
    obtain ⟨older, us, holder, hbuilt⟩ := h.builtFrom_class ht
      (hname ▸ RecordTable.get?_of_mem hr)
    exact ⟨older, t, us, (List.suffix_cons ..).trans holder, hbuilt⟩

variable {side : Side} {r c : Record}

theorem shape_subset (h : p.Shaped) (hr : r ∈ (p.db.table side).records)
    (hc : p.db.classes.get? c.name = some c) (hmem : c.name ∈ r.superclasses) :
    c.shape ⊆ r.shape := by
  obtain ⟨ts, t, us, hts, hbuilt⟩ := h.builtFrom hr
  have hin : ∀ {u : Template}, u ∈ p.templates → u.name ∈ r.superclasses → u ∈ us := by
    intro u hu hname
    rw [hbuilt.superclasses] at hname
    obtain ⟨v, hv, heq⟩ := List.mem_map.1 hname
    exact List.inj_on_of_nodup_map h.classified.names (hts.subset (hbuilt.templates v hv)) hu heq ▸ hv
  have hmem' := hmem
  rw [hbuilt.superclasses] at hmem'
  obtain ⟨u, hu, huname⟩ := List.mem_map.1 hmem'
  obtain ⟨older, vs, holder, hcbuilt⟩ :=
    h.builtFrom_class (hts.subset (hbuilt.templates u hu)) (huname ▸ hc)
  -- the superclasses of the class are superclasses of the record
  have hsuper : ∀ v ∈ vs, v ∈ us := by
    intro v hv
    have hvname : v.name ∈ c.superclasses := hcbuilt.superclasses ▸ List.mem_map_of_mem hv
    refine hin (holder.subset (List.mem_cons_of_mem _ (hcbuilt.templates v hv))) ?_
    obtain ⟨before, after, heq⟩ := List.append_of_mem hmem
    obtain ⟨c', hc', hbefore⟩ := (h.classified.closed side r hr).superclasses_before
      (h.classified.closed .classes) heq
    obtain rfl := Option.some.inj (hc.symm.trans hc')
    exact heq ▸ List.mem_append_left _ (hbefore _ hvname)
  intro s hs
  rw [hcbuilt.shape, Template.mem_shapeOf] at hs
  rw [hbuilt.shape, Template.mem_shapeOf]
  obtain ⟨v, hv, hs⟩ := hs
  obtain hv | hv := List.mem_append.1 hv
  · exact ⟨v, List.mem_append_left _ (hsuper v hv), hs⟩
  · exact ⟨u, List.mem_append_left _ hu, List.mem_singleton.1 hv ▸ hs⟩

theorem shape_initial (h : p.Shaped) (hr : r ∈ (p.db.table side).records)
    (hc : p.db.classes.get? c.name = some c) (hfirst : r.directSuperclasses.head? = some c.name) :
    c.shape <+: r.shape := by
  obtain ⟨ts, t, us, hts, hbuilt⟩ := h.builtFrom hr
  rw [hbuilt.direct, Template.head?_directSuperclasses] at hfirst
  obtain ⟨q, hq, hqname⟩ := Option.map_eq_some_iff.1 hfirst
  obtain ⟨u, older, holder, huname, hclasses⟩ :=
    hbuilt.classes_of_first (List.head?_eq_some_iff.1 hq).choose_spec
  obtain ⟨vs, hcbuilt⟩ := h.classes (holder.trans hts) ((huname.trans hqname) ▸ hc)
  rw [hcbuilt.shape, hbuilt.shape]
  exact Template.shapeOf_mono ((hclasses hcbuilt).trans (List.prefix_append ..))

end Shaped
end Progress

namespace Session

/-- A derived record has its base's shape: each field of a superclass with its type, and those of the
first direct superclass at its beginning. No two fields of a record have one name, and a name finds
the slot that has it. -/
theorem shape_inherited {search : SearchPath} {name text : String} {s : Session}
    (h : read search name text = .ok s) {side : Side} {r : Record}
    (hr : r ∈ (s.db.table side).records) :
    (∀ c ∈ s.db.classes.records, c.name ∈ r.superclasses →
      ∀ f ∈ c.fields, ∃ g, r.field? f.name = some g ∧ g.type = f.type) ∧
    (∀ className, r.directSuperclasses.head? = some className →
      ∃ c ∈ s.db.classes.records, c.name = className ∧ c.shape <+: r.shape) ∧
    (r.fields.map Field.name).Nodup ∧
    (∀ name f, r.field? name = some f ↔ f ∈ r.fields ∧ f.name = name) ∧
    ∀ name i, r.fieldIndex? name = some i ↔ ∃ f, r.fields[i]? = some f ∧ f.name = name := by
  obtain ⟨db, hdb, h⟩ := bind_eq_ok.1 h
  obtain ⟨p, hp, rfl⟩ := Progress.Shaped.invariant.run hdb
  obtain rfl := pure_eq_ok.1 h
  -- a record of the session is one of the run but for its link, which has no part in its shape
  have hr : r ∈ (p.db.link.table side).records := hr
  rw [Database.table_link] at hr
  obtain ⟨q, hq, rfl⟩ := List.mem_map.1 hr
  have hget : ∀ {c : Record}, c ∈ p.db.classes.records → p.db.classes.get? c.name = some c :=
    fun hc => RecordTable.get?_of_mem hc
  obtain ⟨ts, t, us, -, hbuilt⟩ := hp.builtFrom hq
  refine ⟨fun c hc hmem f hf => ?_, fun className hfirst => ?_, hbuilt.distinct,
    fun name f => Record.field?_eq_some hbuilt.distinct,
    fun name i => Record.fieldIndex?_eq_some hbuilt.distinct⟩
  · obtain ⟨e, he, rfl⟩ := List.mem_map.1 hc
    have hshape := hp.shape_subset hq (hget he) hmem (List.mem_map_of_mem hf)
    obtain ⟨g, hg, heq⟩ := List.mem_map.1 hshape
    exact ⟨g, (Record.field?_eq_some hbuilt.distinct).2 ⟨hg, congrArg Prod.fst heq⟩,
      congrArg Prod.snd heq⟩
  · have hmem : className ∈ q.directSuperclasses := List.mem_of_head? hfirst
    have hclosed := hp.classified.closed side q hq
    obtain ⟨c, hc⟩ := Option.isSome_iff_exists.1 (hclosed.get?_of_mem (hclosed.roots _ hmem))
    obtain rfl := RecordTable.name_of_get? hc
    exact ⟨{ c with linked := true }, List.mem_map_of_mem (RecordTable.mem_of_get? hc), rfl,
      hp.shape_initial (r := q) (c := c) hq hc hfirst⟩

/-- A record that comes to one class on two paths, under a let and with a field declared again. -/
def reshaped : String :=
  "class A<int x> \x7b int v = x; bit b; \x7d class B<int x = 1> : A<x> \x7b string s; \x7d "
    ++ "class C : A<1> \x7b list<int> l = [v]; int v = 3; \x7d "
    ++ "let b = 1 in def D : C, B \x7b dag d; \x7d"

theorem reshaped_inherited :
    ∃ s d, read ⟨.emptyAt [], []⟩ "reshaped" reshaped = .ok s ∧ d ∈ (s.db.table .defs).records ∧
      d.superclasses = ["A", "C", "B"] ∧ d.directSuperclasses = ["C", "B"] ∧
      d.shape = [("v", .int), ("b", .bit), ("l", .list .int), ("s", .string), ("d", .dag)] ∧
      (∀ c ∈ s.db.classes.records, c.name ∈ ["A", "C", "B"] →
        ∀ f ∈ c.fields, ∃ g, d.field? f.name = some g ∧ g.type = f.type) ∧
      ∃ c ∈ s.db.classes.records, c.name = "C" ∧ c.shape <+: d.shape := by
  have hrun : ((read ⟨.emptyAt [], []⟩ "reshaped" reshaped).toOption.bind fun s =>
      s.db.defs.records.head?.map fun d => (d.superclasses, d.directSuperclasses, d.shape)) =
        some (["A", "C", "B"], ["C", "B"],
          [("v", .int), ("b", .bit), ("l", .list .int), ("s", .string), ("d", .dag)]) := by
    decide +kernel
  obtain ⟨s, h, hrun⟩ := Option.bind_eq_some_iff.1 hrun
  obtain ⟨d, hd, heq⟩ := Option.map_eq_some_iff.1 hrun
  obtain ⟨hsuper, heq⟩ := Prod.mk.inj heq
  obtain ⟨hdirect, hshape⟩ := Prod.mk.inj heq
  have hmem : d ∈ (s.db.table .defs).records := List.mem_of_head? hd
  obtain ⟨hfields, hfirst, -⟩ := shape_inherited (ok_of_toOption h) hmem
  exact ⟨s, d, ok_of_toOption h, hmem, hsuper, hdirect, hshape, hsuper ▸ hfields,
    hfirst "C" (hdirect ▸ rfl)⟩

end Session
end TypedRecords
