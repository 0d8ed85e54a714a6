import TypedRecords.Proofs.Tables

/-!
# Superclass closures

`Reaches` follows direct superclasses from record to record. A record is `Closed` where its
superclasses are what it reaches, each once and each behind those that it reaches itself. In a
database of closed records no class reaches itself (`Closed.not_reaches_self`).
-/

namespace TypedRecords

/-- The record `r` leads to the class `name` through the direct superclasses of class records. -/
inductive RecordTable.Reaches (classes : RecordTable) (r : Record) : String → Prop
  | direct {name : String} (h : name ∈ r.directSuperclasses) : Reaches classes r name
  | step {name next : String} {c : Record} (h : Reaches classes r name)
      (hc : classes.get? name = some c) (hnext : next ∈ c.directSuperclasses) : Reaches classes r next

namespace Record

/-- The superclasses of a record, each once and behind its own direct superclasses, are reached from
the record. -/
structure Closed (classes : RecordTable) (r : Record) : Prop where
  nodup : r.superclasses.Nodup
  roots : ∀ name ∈ r.directSuperclasses, name ∈ r.superclasses
  ordered : ∀ {before after : List String} {name : String},
    r.superclasses = before ++ name :: after →
      ∃ c, classes.get? name = some c ∧ ∀ next ∈ c.directSuperclasses, next ∈ before
  reached : ∀ name ∈ r.superclasses, classes.Reaches r name

namespace Closed
variable {classes : RecordTable} {r : Record}

theorem mem_iff (h : r.Closed classes) {name : String} :
    name ∈ r.superclasses ↔ classes.Reaches r name := by
  refine ⟨h.reached name, fun hr => ?_⟩
  induction hr with
  | direct hn => exact h.roots _ hn
  | step _ hc hnext ih =>
    obtain ⟨before, after, heq⟩ := List.append_of_mem ih
    obtain ⟨c, hc', hbefore⟩ := h.ordered heq
    obtain rfl := Option.some.inj (hc.symm.trans hc')
    exact heq ▸ List.mem_append_left _ (hbefore _ hnext)

theorem get?_of_mem (h : r.Closed classes) {name : String} (hname : name ∈ r.superclasses) :
    (classes.get? name).isSome := by
  obtain ⟨before, after, heq⟩ := List.append_of_mem hname
  obtain ⟨c, hc, -⟩ := h.ordered heq
  rw [hc]
  rfl

/-- In front of a superclass stand all the superclasses of its own record. -/
theorem superclasses_before (h : r.Closed classes) (hclasses : ∀ c ∈ classes.records, c.Closed classes)
    {before after : List String} {name : String} (heq : r.superclasses = before ++ name :: after) :
    ∃ c, classes.get? name = some c ∧ ∀ next ∈ c.superclasses, next ∈ before := by
  obtain ⟨c, hc, hdirect⟩ := h.ordered heq
  refine ⟨c, hc, fun next hnext => ?_⟩
  have hreach := (hclasses c (RecordTable.mem_of_get? hc)).reached next hnext
  induction hreach with
  | direct hn => exact hdirect _ hn
  | @step n m c' hn hc' hm ih =>
    obtain ⟨before', after', heq'⟩ :=
      List.append_of_mem (ih ((hclasses c (RecordTable.mem_of_get? hc)).mem_iff.2 hn))
    have hsplit : r.superclasses = before' ++ n :: (after' ++ name :: after) := by
      rw [heq, heq', List.append_assoc, List.cons_append]
    obtain ⟨c'', hc'', hbefore⟩ := h.ordered hsplit
    obtain rfl := Option.some.inj (hc'.symm.trans hc'')
    exact heq' ▸ List.mem_append_left _ (hbefore _ hm)

theorem not_reaches_self (h : r.Closed classes) (hclasses : ∀ c ∈ classes.records, c.Closed classes)
    (hr : classes.get? r.name = some r) : ¬classes.Reaches r r.name := by
  intro hself
  have hmem := h.mem_iff.2 hself
  obtain ⟨before, after, heq⟩ := List.append_of_mem hmem
  obtain ⟨c, hc, hbefore⟩ := h.superclasses_before hclasses heq
  obtain rfl := Option.some.inj (hr.symm.trans hc)
  have hnd := h.nodup
  rw [heq] at hnd
  exact (List.nodup_append.1 hnd).2.2 _ (hbefore _ hmem) _ (List.mem_cons_self ..) rfl

/-- What makes a record closed are its superclasses and the direct superclasses of the classes. -/
theorem congr {classes' : RecordTable} {r' : Record} (h : r.Closed classes)
    (hs : r'.superclasses = r.superclasses) (hd : r'.directSuperclasses = r.directSuperclasses)
    (hle : ∀ {name : String} {c : Record}, classes.get? name = some c →
      ∃ c', classes'.get? name = some c' ∧ c'.directSuperclasses = c.directSuperclasses) :
    r'.Closed classes' where
  nodup := hs ▸ h.nodup
  roots := by
    rw [hs, hd]
    exact h.roots
  ordered heq := by
    obtain ⟨c, hc, hbefore⟩ := h.ordered (hs ▸ heq)
    obtain ⟨c', hc', hdirect⟩ := hle hc
    exact ⟨c', hc', hdirect ▸ hbefore⟩
  reached name hname := by
    have hreach := h.reached name (hs ▸ hname)
    clear hname
    induction hreach with
    | direct hn => exact .direct (hd ▸ hn)
    | step _ hc hnext ih =>
      obtain ⟨c', hc', hdirect⟩ := hle hc
      exact ih.step hc' (hdirect ▸ hnext)

end Closed
end Record

/-- The superclasses of all records are closed. -/
def Database.Closed (db : Database) : Prop :=
  ∀ side, ∀ r ∈ (db.table side).records, r.Closed db.classes

namespace Database
variable {db : Database} {r : Record}

theorem Closed.keepClass (h : db.Closed) (hr : r.Closed db.classes) :
    Closed { db with classes := (db.classes.keep r).table } := by
  have grow : ∀ s : Record, s.Closed db.classes → s.Closed (db.classes.keep r).table :=
    fun s hs => hs.congr rfl rfl fun hc => ⟨_, RecordTable.get?_keep hc, rfl⟩
  rintro (_ | _) s hs
  · rcases RecordTable.mem_keep hs with hs | rfl
    · exact grow s (h .classes s hs)
    · exact grow s hr
  · exact grow s (h .defs s hs)

theorem Closed.keepDef (h : db.Closed) (hr : r.Closed db.classes) :
    Closed { db with defs := (db.defs.keep r).table } := by
  rintro (_ | _) s hs
  · exact h .classes s hs
  · rcases RecordTable.mem_keep hs with hs | rfl
    · exact h .defs s hs
    · exact hr

theorem Closed.link (h : db.Closed) : db.link.Closed := by
  intro side r hr
  rw [table_link] at hr
  obtain ⟨s, hs, rfl⟩ := List.mem_map.1 hr
  refine (h side s hs).congr rfl rfl fun {name c} hc => ⟨{ c with linked := true }, ?_, rfl⟩
  show db.classes.link.get? name = _
  rw [RecordTable.get?_link, hc]
  rfl

end Database
end TypedRecords
