import TypedRecords.Proofs.Inherit.Lineage
import TypedRecords.Proofs.Run.Invariant
import TypedRecords.Proofs.Superclass.Closed

/-!
# Superclasses after a run

Every record that a run adds comes with its lineage, whose names are its superclasses. The class
records stand for the templates they were built from, so what a lineage says of templates holds of
the class records too, and every database that a run leaves is closed.
-/

namespace TypedRecords

namespace Template

theorem mem_foldl_parents (name : String) (ps : List ParentRef) (names : List String) :
    name ∈ ps.foldl (fun ns p => if ns.contains p.name then ns else ns ++ [p.name]) names ↔
      name ∈ names ∨ ∃ p ∈ ps, p.name = name := by
  induction ps generalizing names with
  | nil => simp
  | cons p ps ih =>
    have hp : name ∈ (if names.contains p.name then names else names ++ [p.name]) ↔
        name ∈ names ∨ p.name = name := by
      split
      · rename_i hmem
        refine ⟨.inl, fun h => h.elim id ?_⟩
        rintro rfl
        exact List.contains_iff_mem.1 hmem
      · simp [eq_comm]
    rw [List.foldl_cons, ih, hp, or_assoc, List.exists_mem_cons_iff]

theorem mem_directSuperclasses {t : Template} {name : String} :
    name ∈ t.directSuperclasses ↔ ∃ p ∈ t.parents, p.name = name := by
  rw [directSuperclasses, mem_foldl_parents]
  simp

end Template

theorem ClassSyntax.name_toTemplate {declared : String → Bool} {lets : List Override}
    {c : ClassSyntax} {t : Template} (h : c.toTemplate declared lets = .ok t) : t.name = c.name := by
  obtain ⟨params, -, h⟩ := bind_eq_ok.1 h
  obtain ⟨parents, -, h⟩ := bind_eq_ok.1 h
  obtain ⟨body, -, h⟩ := bind_eq_ok.1 h
  rw [← pure_eq_ok.1 h]

/-- A name with the classes that its declaration names. -/
def Template.heading (t : Template) : String × List String := (t.name, t.directSuperclasses)

def Record.heading (r : Record) : String × List String := (r.name, r.directSuperclasses)

namespace Progress

theorem DefStep.new {p p' : Progress} {lets : List Override} {s : DefSyntax} {t : Template} {d : Draft}
    {r : Record} (h : p.DefStep lets s p' t d r) : p.db.defs.get? r.name = none := by
  obtain ⟨m, -, rfl⟩ := Draft.finishIn_eq_ok.1 h.record
  have hundefined := h.undefined
  rw [RecordTable.contains_eq_isSome] at hundefined
  exact Option.isNone_iff_eq_none.1 (Option.isSome_eq_false_iff.1 hundefined)

/-- The class records have the headings of the templates, oldest first, and the database is closed. -/
structure Classified (p : Progress) : Prop where
  names : (p.templates.map Template.name).Nodup
  headings : p.db.classes.records.map Record.heading = (p.templates.map Template.heading).reverse
  closed : p.db.Closed

namespace Classified
variable {p p' : Progress}

theorem start : Progress.start.Classified where
  names := .nil
  headings := rfl
  closed side r hr := by cases side <;> cases hr

theorem names_classes (h : p.Classified) :
    p.db.classes.names = (p.templates.map Template.name).reverse := by
  have hfst := congrArg (List.map Prod.fst) h.headings
  rw [List.map_reverse, List.map_map, List.map_map] at hfst
  exact hfst

theorem get?_of_mem (h : p.Classified) {t : Template} (ht : t ∈ p.templates) :
    ∃ c, p.db.classes.get? t.name = some c ∧ c.directSuperclasses = t.directSuperclasses := by
  have hmem : t.heading ∈ p.db.classes.records.map Record.heading := by
    rw [h.headings]
    exact List.mem_reverse.2 (List.mem_map_of_mem ht)
  obtain ⟨c, hc, heq⟩ := List.mem_map.1 hmem
  have hname : c.name = t.name := congrArg Prod.fst heq
  exact ⟨c, hname ▸ RecordTable.get?_of_mem hc, congrArg Prod.snd heq⟩

theorem reaches_of_transGen (h : p.Classified) {root a : Ancestor} {r : Record}
    (hd : r.directSuperclasses = root.template.directSuperclasses)
    (ha : Relation.TransGen (Ancestor.Inherits p.db p.templates) root a) :
    a.template ∈ p.templates ∧ p.db.classes.Reaches r a.name := by
  induction ha with
  | single hr =>
    obtain ⟨hmem, q, hq, hgives⟩ := hr
    refine ⟨hmem, .direct ?_⟩
    rw [hd, Template.mem_directSuperclasses]
    exact ⟨q, hq, hgives.1.symm⟩
  | tail _ hr ih =>
    obtain ⟨hmem, q, hq, hgives⟩ := hr
    obtain ⟨c, hc, hdirect⟩ := h.get?_of_mem ih.1
    refine ⟨hmem, ih.2.step hc ?_⟩
    rw [hdirect, Template.mem_directSuperclasses]
    exact ⟨q, hq, hgives.1.symm⟩

/-- The record of a template that is built is closed: its superclasses are its lineage. -/
theorem closed_of_lineage (h : p.Classified) {t : Template} {bs : Bindings} {as : List Ancestor}
    (hl : Lineage p.db p.templates ⟨t, bs⟩ as) {r : Record}
    (hs : r.superclasses = as.map Ancestor.name)
    (hd : r.directSuperclasses = t.directSuperclasses) : r.Closed p.db.classes where
  nodup := hs ▸ hl.nodup
  roots name hname := by
    rw [hd, Template.mem_directSuperclasses] at hname
    obtain ⟨q, hq, rfl⟩ := hname
    obtain ⟨a, ha, hgives⟩ := hl.roots q hq
    rw [hs, ← hgives.1]
    exact List.mem_map_of_mem ha
  ordered {before after name} heq := by
    obtain ⟨as₁, as₂, rfl, rfl, has₂⟩ := List.map_eq_append_iff.1 (hs.symm.trans heq)
    obtain ⟨a, as₂, rfl, rfl, -⟩ := List.map_eq_cons_iff.1 has₂
    obtain ⟨c, hc, hdirect⟩ := h.get?_of_mem (hl.templates a (by simp))
    refine ⟨c, hc, fun next hnext => ?_⟩
    rw [hdirect, Template.mem_directSuperclasses] at hnext
    obtain ⟨q, hq, rfl⟩ := hnext
    obtain ⟨b, hb, hgives⟩ := (hl.ordered.split rfl).2 q hq
    exact hgives.1 ▸ List.mem_map_of_mem hb
  reached name hname := by
    rw [hs] at hname
    obtain ⟨a, ha, rfl⟩ := List.mem_map.1 hname
    exact (h.reaches_of_transGen hd (hl.reached a ha)).2

theorem closed_of_finish (h : p.Classified) {t : Template} {bs : Bindings} {d : Draft}
    (hd : Draft.ofTemplate p.db p.templates t bs = .ok d) {name : String} {anonymous isClass : Bool}
    {r : Record} (hr : d.finish p.db name anonymous isClass t.directSuperclasses = .ok r) :
    r.Closed p.db.classes := by
  obtain ⟨as, -, hl, hholds, -⟩ := Draft.ofTemplate_lineage h.names hd
  obtain ⟨m, -, rfl⟩ := Draft.finishIn_eq_ok.1 hr
  exact h.closed_of_lineage hl hholds.superclasses rfl

theorem new_of_classStep {lets : List Override} {c : ClassSyntax} {t : Template} {bs : Bindings}
    {d : Draft} {r : Record} (h : p.Classified) (hstep : p.ClassStep lets c p' t bs d r) :
    p.db.classes.get? r.name = none := by
  obtain ⟨m, -, rfl⟩ := Draft.finishIn_eq_ok.1 hstep.record
  rw [RecordTable.get?_eq_none, h.names_classes, List.mem_reverse, ← declared_iff]
  exact Bool.eq_false_iff.1 hstep.undeclared

theorem addClass {lets : List Override} {c : ClassSyntax} {t : Template} {bs : Bindings} {d : Draft}
    {r : Record} (h : p.Classified) (hstep : p.ClassStep lets c p' t bs d r) : p'.Classified := by
  have hclosed := h.closed_of_finish hstep.draft hstep.record
  have htname := ClassSyntax.name_toTemplate hstep.template
  have hheading : r.heading = t.heading := by
    obtain ⟨m, -, rfl⟩ := Draft.finishIn_eq_ok.1 hstep.record
    exact Prod.ext htname.symm rfl
  have hnew := h.new_of_classStep hstep
  refine ⟨?_, ?_, ?_⟩
  · rw [hstep.templates, List.map_cons, List.nodup_cons, htname]
    exact ⟨fun hmem => Bool.eq_false_iff.1 hstep.undeclared (declared_iff.2 hmem), h.names⟩
  · rw [hstep.db, hstep.templates]
    simp [RecordTable.records_keep hnew, h.headings, hheading]
  · rw [hstep.db]
    exact h.closed.keepClass hclosed

theorem addDef {lets : List Override} {s : DefSyntax} {t : Template} {d : Draft} {r : Record}
    (h : p.Classified) (hstep : p.DefStep lets s p' t d r) : p'.Classified := by
  have hclosed := h.closed_of_finish hstep.draft hstep.record
  refine ⟨hstep.templates ▸ h.names, ?_, ?_⟩
  · rw [hstep.db, hstep.templates]
    exact h.headings
  · rw [hstep.db]
    exact h.closed.keepDef hclosed

end Classified

theorem classified_invariant : Invariant Classified fun _ _ => True where
  start := .start
  lets _ _ := trivial
  grow _ h := h
  addClass h _ hstep := h.addClass hstep
  addDef h _ hstep := h.addDef hstep

end Progress

namespace Session

theorem closed {search : SearchPath} {name text : String} {s : Session}
    (h : read search name text = .ok s) : s.db.Closed := by
  obtain ⟨db, hdb, h⟩ := bind_eq_ok.1 h
  obtain ⟨p, hp, rfl⟩ := Progress.classified_invariant.run hdb
  obtain rfl := pure_eq_ok.1 h
  exact hp.closed.link

/-- The superclasses of a record are exactly the classes it reaches through the class records, each
once and behind its own superclasses; no class reaches itself. So the defs derived from a class are
those that reach it, in the order of their definition. -/
theorem superclasses_exact {search : SearchPath} {name text : String} {s : Session}
    (h : read search name text = .ok s) :
    (∀ side, ∀ r ∈ (s.db.table side).records,
      r.superclasses.Nodup ∧
      (∀ c, c ∈ r.superclasses ↔ s.db.classes.Reaches r c) ∧
      (∀ before c after, r.superclasses = before ++ c :: after →
        ∃ rc, s.db.classes.get? c = some rc ∧ ∀ next ∈ rc.superclasses, next ∈ before) ∧
      ∀ c, r.isSubclassOf c = true ↔ s.db.classes.Reaches r c) ∧
    (∀ rc ∈ s.db.classes.records, ¬s.db.classes.Reaches rc rc.name) ∧
    ∀ c, (s.db.derivedDefs c).Sublist s.db.defs.records ∧
      ((s.db.derivedDefs c).map Record.name).Nodup ∧
      (∀ r, r ∈ s.db.derivedDefs c ↔ r ∈ s.db.defs.records ∧ s.db.classes.Reaches r c) ∧
      (s.db.classes.get? c = none → s.db.derivedDefs c = []) := by
  have hclosed := closed h
  have hclasses := hclosed .classes
  have hsub : ∀ side, ∀ r ∈ (s.db.table side).records, ∀ c,
      r.isSubclassOf c = true ↔ s.db.classes.Reaches r c := fun side r hr c =>
    List.contains_iff_mem.trans (hclosed side r hr).mem_iff
  refine ⟨fun side r hr => ?_, fun rc hrc => ?_, fun c => ?_⟩
  · have hr' := hclosed side r hr
    exact ⟨hr'.nodup, fun c => hr'.mem_iff, fun _ _ _ heq => hr'.superclasses_before hclasses heq,
      hsub side r hr⟩
  · exact (hclasses rc hrc).not_reaches_self hclasses (RecordTable.get?_of_mem hrc)
  · have hfilter : (s.db.derivedDefs c).Sublist s.db.defs.records := List.filter_sublist
    have hmem : ∀ r, r ∈ s.db.derivedDefs c ↔
        r ∈ s.db.defs.records ∧ s.db.classes.Reaches r c := fun r =>
      List.mem_filter.trans (and_congr_right fun hr => hsub .defs r hr c)
    refine ⟨hfilter, s.db.defs.nodup.sublist (hfilter.map _), hmem, fun hc => ?_⟩
    refine List.eq_nil_iff_forall_not_mem.2 fun r hr => ?_
    obtain ⟨hr, hreach⟩ := (hmem r).1 hr
    have hr' := hclosed .defs r hr
    obtain ⟨before, after, heq⟩ := List.append_of_mem (hr'.mem_iff.2 hreach)
    obtain ⟨rc, hrc, -⟩ := hr'.ordered heq
    rw [hc] at hrc
    cases hrc

/-- A def that reaches a class on two paths, with equal arguments. -/
def twoPaths : String := "class A<int x = 3>; class B : A<1>; class C : A<1>; def D : B, C;"

theorem twoPaths_superclasses :
    ∃ s, read ⟨.emptyAt [], []⟩ "paths" twoPaths = .ok s ∧
      s.db.defs.records.map Record.superclasses = [["A", "B", "C"]] ∧
      (∀ r ∈ s.db.defs.records, ∀ c, c ∈ r.superclasses ↔ s.db.classes.Reaches r c) ∧
      ∀ rc ∈ s.db.classes.records, ¬s.db.classes.Reaches rc rc.name := by
  have hrun : ((read ⟨.emptyAt [], []⟩ "paths" twoPaths).toOption.map fun s =>
      s.db.defs.records.map Record.superclasses) = some [["A", "B", "C"]] := by
    decide +kernel
  cases h : read ⟨.emptyAt [], []⟩ "paths" twoPaths with
  | error e =>
    rw [h] at hrun
    cases hrun
  | ok s =>
    rw [h] at hrun
    obtain ⟨hrecords, hself, -⟩ := superclasses_exact h
    exact ⟨s, rfl, Option.some.inj hrun, fun r hr => (hrecords .defs r hr).2.1, hself⟩

end Session
end TypedRecords
