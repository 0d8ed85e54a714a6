import TypedRecords.Proofs.Reading.Declaration
import TypedRecords.Proofs.Reading.Evaluated
import TypedRecords.Proofs.Run.Names
import TypedRecords.Proofs.Unset.Inherit

/-!
# From the text of a def back to the def

A def that is written out and read in again is the same def, apart from the classes it derives from,
which its text mentions in a comment only.
-/

namespace TypedRecords

namespace Draft

/-- The field under construction is called as the record's field is, has its type and holds an
expression that writes its value down. -/
def Drafts (f : DraftField) (g : Field) : Prop := f.name = g.name ∧ f.type = g.type ∧ g.Writes f.value

/-- Declarations of new fields append them in their order. -/
theorem foldlM_declared {fields : List Field} {body : List BodyItem}
    (h : List.Forall₂ Field.Declared fields body) (hnd : (fields.map Field.name).Nodup) {d : Draft}
    (hnew : ∀ f ∈ fields, d.field? f.name = none) :
    ∃ d' added, body.foldlM (applyItem []) d = .ok d' ∧ d'.superclasses = d.superclasses ∧
      d'.fields = d.fields ++ added ∧ List.Forall₂ Drafts added fields := by
  induction h generalizing d with
  | nil => exact ⟨d, [], rfl, rfl, (List.append_nil _).symm, .nil⟩
  | @cons f item fs body hf _ ih =>
    obtain ⟨e, place, rfl, hwrites⟩ := hf
    obtain ⟨hfresh, hnds⟩ := List.nodup_cons.1 hnd
    obtain ⟨hnone, hnones⟩ := List.forall_mem_cons.1 hnew
    obtain ⟨d₁, hd₁, hfields, hs, -⟩ := declare_of_none hnone f.type (some e) place
    have hnew₁ : ∀ g ∈ fs, d₁.field? g.name = none := by
      intro g hg
      have hne : f.name ≠ g.name := fun heq => hfresh (heq ▸ List.mem_map_of_mem hg)
      rw [field?, hfields, List.find?_append, ← field?, hnones g hg]
      simp [hne]
    obtain ⟨d', added, hd', hs', hfields', hadded⟩ := ih hnds hnew₁
    refine ⟨d', ⟨f.name, f.type, e, place⟩ :: added, ?_, hs'.trans hs, ?_, .cons ⟨rfl, rfl, hwrites⟩ hadded⟩
    · refine foldlM_cons_eq_ok.2 ⟨d₁, ?_, hd'⟩
      rw [applyItem, Option.map_some, Expr.substitute_nil]
      exact hd₁
    · rw [hfields', hfields, List.append_assoc]
      rfl

theorem Drafts.names {fs : List DraftField} {gs : List Field} (h : List.Forall₂ Drafts fs gs) :
    fs.map DraftField.name = gs.map Field.name := by
  rw [← List.forall₂_eq_eq_eq, List.forall₂_map_left_iff, List.forall₂_map_right_iff]
  exact h.imp fun _ _ hfg => hfg.1

/-- The values that a field's value refers to are found under their names, which no field has. -/
theorem Drafts.computes {d : Draft} {db : Database} {f : DraftField} {g : Field} (h : Drafts f g)
    (hconforms : ∀ v ∈ g.value, Conforms db.store g.type v)
    (hrefs : ∀ v ∈ g.value, ∀ ref, Value.Within (.record ref) v →
      d.field? ref.name = none ∧ db.ref? ref.name = some ref) (table : Table) :
    d.Computes db table f g.value := by
  obtain ⟨-, htype, hwrites⟩ := h
  unfold Field.Writes at hwrites
  cases hg : g.value with
  | none =>
    rw [hg] at hwrites
    have hunset : f.value = .unset := hwrites
    unfold Computes fieldValue
    rw [hunset]
    rfl
  | some v =>
    rw [hg] at hwrites
    have hwrites : f.type.Writes v f.value := htype ▸ hwrites
    refine computes_of_gives (fun table => hwrites.gives ?_ fun ref hw => ?_) table
    · exact htype ▸ hconforms v hg
    · obtain ⟨hfield, href⟩ := hrefs v hg ref hw
      refine ⟨?_, href⟩
      show (d.field? ref.name).map _ = none
      rw [hfield]
      rfl

end Draft

/-- The record can be read back behind what `p` has declared: its types and references mean there what
they mean in the record, its own name is free, and no field stands in the way of a reference. -/
structure Record.Redeclarable (p : Progress) (r : Record) : Prop where
  readable : r.Readable p.declared p.db.store
  distinct : (r.fields.map Field.name).Nodup
  references : ∀ f ∈ r.fields, ∀ v ∈ f.value, ∀ ref, Value.Within (.record ref) v →
    p.db.ref? ref.name = some ref ∧ ref.name ∉ r.fields.map Field.name
  undefined : p.db.defs.contains r.name = false

/-- What the text of a record asks of its names is so in every session. -/
theorem Session.names_written {search : SearchPath} {name text : String} {s : Session}
    (h : Session.read search name text = .ok s) {r : Record} (hr : r ∈ s.db.defs.records) :
    IsIdentifier r.name ∧ ∀ c ∈ r.superclasses, '\n' ∉ c.toList := by
  obtain ⟨hname, hsuperclasses⟩ := Session.names_identifiers h .defs r hr
  refine ⟨hname, fun c hc hline => ?_⟩
  exact absurd ((hsuperclasses c hc).chars '\n' hline) (by decide)

namespace Record.Redeclarable
variable {p : Progress} {r : Record}

theorem addDef (h : r.Redeclarable p) {d : DefSyntax} (hd : r.Stated p.declared d) :
    ∃ hnew, p.addDef [] d = .ok { p with db := { p.db with
      defs := ⟨p.db.defs.records ++ [⟨r.name, false, false, r.fields, [], [], false⟩], hnew⟩ } } := by
  obtain ⟨hname, body, hbody, htemplate⟩ := hd
  have hgetD : d.name.getD p.anonymousName = r.name := by rw [hname]; rfl
  have hnamed : d.name.isNone = false := by rw [hname]; rfl
  obtain ⟨draft, added, hdraft, hs, hfields, hadded⟩ :=
    Draft.foldlM_declared hbody h.distinct (d := .empty) fun _ _ => rfl
  obtain rfl : draft.fields = added := hfields
  have hnames := Draft.Drafts.names hadded
  have hcomputes : List.Forall₂ (fun (f : DraftField) (g : Field) => f.name = g.name ∧ f.type = g.type ∧
      ∀ table, draft.Computes p.db table f g.value) draft.fields r.fields := by
    obtain ⟨hlen, hzip⟩ := List.forall₂_iff_zip.1 hadded
    refine List.forall₂_iff_zip.2 ⟨hlen, fun {f g} hmem => ⟨(hzip hmem).1, (hzip hmem).2.1, ?_⟩⟩
    have hg := (List.of_mem_zip hmem).2
    refine (hzip hmem).computes (h.readable.fields g hg).conforms fun v hv ref hw => ?_
    obtain ⟨href, hother⟩ := h.references g hg v hv ref hw
    refine ⟨List.find?_eq_none.2 fun f hf => ?_, href⟩
    rw [← hnames] at hother
    have hne : f.name ≠ ref.name := fun heq => hother (heq ▸ List.mem_map_of_mem hf)
    simpa using hne
  have hrecord := Draft.finish_of_computes hcomputes r.name false false []
  have hsuperclasses : draft.superclasses = [] := hs
  rw [hsuperclasses] at hrecord
  let q : Record := ⟨r.name, false, false, r.fields, [], [], false⟩
  have hnone : p.db.defs.get? q.name = none := by
    have hundefined := h.undefined
    rw [RecordTable.contains_eq_isSome] at hundefined
    simpa using hundefined
  refine ⟨(p.db.defs.push q hnone).nodup, Progress.DefStep.addDef (t := ⟨r.name, [], [], [], body⟩)
    (d := draft) (r := q) ⟨?_, ?_, ?_, ?_, ?_, rfl, ?_⟩⟩
  · rw [hgetD]
    exact htemplate [] r.name
  · rw [hgetD]
    exact h.undefined
  · exact hdraft
  · rw [hgetD, hnamed]
    exact hrecord
  · rw [RecordTable.keep_of_none hnone]
    rfl
  · rw [hnamed]
    rfl

end Record.Redeclarable

/-- The text of a def reads, behind what its types and references stand for, as one declaration, which
adds a def of the same name with the same fields, types and values and no superclasses. -/
theorem Record.Redeclarable.text_declares {p : Progress} {r : Record} (h : r.Redeclarable p)
    (file : String) (enter : Progress.Entering) :
    ∃ statements, readStatements file r.text = .ok statements ∧
      ∃ hnew, p.runAll enter [] statements = .ok { p with db := { p.db with
        defs := ⟨p.db.defs.records ++ [⟨r.name, false, false, r.fields, [], [], false⟩], hnew⟩ } } := by
  obtain ⟨d, hparse, hd⟩ := h.readable.readStatements file
  obtain ⟨hnew, hadd⟩ := h.addDef hd
  exact ⟨_, hparse, hnew, bind_eq_ok.2 ⟨_, hadd, rfl⟩⟩

/-- A class, and a def that derives from it. -/
def parts : Progress :=
  ⟨⟨⟨[⟨"Part", false, true, [], [], [], false⟩], by decide⟩,
    ⟨[⟨"wheel", false, false, [], ["Part"], ["Part"], false⟩], by decide⟩⟩, [⟨"Part", [], [], [], []⟩], 0⟩

/-- A def with values of every kind, some of them with unset places. -/
def cart : Record where
  name := "cart"
  anonymous := false
  isClass := false
  fields := [
    ⟨"open", .bit, some (.bit true)⟩,
    ⟨"mask", .bits 3, some (.bits [some true, none, some false])⟩,
    ⟨"offset", .int, some (.int (-5))⟩,
    ⟨"label", .string, some (.string "a \"cart\"\n")⟩,
    ⟨"body", .code, some (.code "roll();")⟩,
    ⟨"table", .list (.list .int), some (.list (.list .int) [.list .int [.int 1, .int 2], .list .int []])⟩,
    ⟨"uses", .list (.record "Part"), some (.list (.record "Part") [.record ⟨"wheel", 0⟩])⟩,
    ⟨"owner", .record "Part", none⟩]
  superclasses := ["Part"]
  directSuperclasses := ["Part"]
  linked := false

example : cart.text = "def cart \x7b\t// Part\n  bit open = 1;\n  bits<3> mask = \x7b 0, ?, 1 \x7d;\n" ++
    "  int offset = -5;\n  string label = \"a \\\"cart\\\"\\n\";\n  code body = [\x7broll();\x7d];\n" ++
    "  list<list<int>> table = [[1, 2], []];\n  list<Part> uses = [wheel];\n  Part owner = ?;\n\x7d\n" := by
  decide +kernel

theorem cart_readable : cart.Readable parts.declared parts.db.store where
  isDef := rfl
  name := by decide
  lines := by decide
  fields := by
    have hpart : (Ty.record "Part").Writable parts.declared := ⟨by decide, by decide⟩
    have hwheel : Conforms parts.db.store (.record "Part") (.record ⟨"wheel", 0⟩) :=
      ⟨_, rfl, .inr (by decide)⟩
    have hrow : ∀ numbers : List Int64, Conforms parts.db.store (.list .int) (.list .int (numbers.map .int)) ∧
        (Value.list .int (numbers.map .int)).Readable := fun numbers =>
      ⟨⟨rfl, List.forall_mem_map.2 fun _ _ => trivial⟩,
        .list (List.forall_mem_map.2 fun _ _ => ⟨nofun, nofun, nofun⟩) nofun⟩
    simp only [cart, List.forall_mem_cons]
    refine ⟨.of_value (by decide) trivial trivial ⟨nofun, nofun, nofun⟩,
      .of_value (by decide) (show 3 < 2 ^ 64 by decide) rfl ⟨nofun, nofun, nofun⟩,
      .of_value (by decide) trivial trivial ⟨nofun, nofun, nofun⟩,
      .of_value (by decide) trivial trivial ⟨nofun, nofun, nofun⟩,
      .of_value (by decide) trivial trivial ⟨fun text hw => ?_, nofun, nofun⟩,
      .of_value (by decide) trivial ⟨rfl, ?_⟩ (.list ?_ nofun),
      .of_value (by decide) hpart ⟨rfl, ?_⟩ (.list ?_ nofun),
      ⟨by decide, hpart, nofun, nofun⟩, nofun⟩
    · cases hw
      decide +kernel
    · exact List.forall_mem_cons.2 ⟨(hrow [1, 2]).1, List.forall_mem_singleton.2 (hrow []).1⟩
    · exact List.forall_mem_cons.2 ⟨(hrow [1, 2]).2, List.forall_mem_singleton.2 (hrow []).2⟩
    · exact List.forall_mem_singleton.2 hwheel
    · refine List.forall_mem_singleton.2 ⟨nofun, nofun, fun ref hw => ?_⟩
      cases hw
      decide

theorem cart_redeclarable : cart.Redeclarable parts where
  readable := cart_readable
  distinct := by decide
  references := by
    have hrow : ∀ (numbers : List Int64) (ref : RecordRef),
        ¬Value.Within (.record ref) (.list .int (numbers.map .int)) := by
      rintro numbers ref hw
      cases hw with
      | item hv hw =>
        obtain ⟨number, -, rfl⟩ := List.mem_map.1 hv
        cases hw
    simp only [cart, List.forall_mem_cons, Option.mem_some_iff, forall_eq']
    refine ⟨nofun, nofun, nofun, nofun, nofun, ?_, ?_, nofun, nofun⟩
    · intro ref hw
      cases hw with
      | item hv hw =>
        rcases List.mem_cons.1 hv with rfl | hv
        · exact absurd hw (hrow [1, 2] ref)
        · obtain rfl := List.mem_singleton.1 hv
          exact absurd hw (hrow [] ref)
    · intro ref hw
      cases hw with
      | item hv hw =>
        obtain rfl := List.mem_singleton.1 hv
        cases hw
        decide
  undefined := by decide

theorem cart_declared : cart.Redeclarable parts ∧
    ∃ statements, readStatements "cart" cart.text = .ok statements ∧
      ∃ hnew, parts.runAll ((⟨.emptyAt [], []⟩ : SearchPath).enter 0 []) [] statements = .ok { parts with
        db := { parts.db with
          defs := ⟨parts.db.defs.records ++ [⟨"cart", false, false, cart.fields, [], [], false⟩], hnew⟩ } } :=
  ⟨cart_redeclarable, cart_redeclarable.text_declares "cart" _⟩

end TypedRecords
