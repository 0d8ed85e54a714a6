import TypedRecords.Proofs.Resolve.Names
import TypedRecords.Proofs.Run.Invariant
import TypedRecords.Proofs.Tables

/-!
# Names in the records of a run

Every record of a run was built by a declaration, from a draft whose expressions could name the defs
that were there before. Names behind an unset operand of an operation are not looked up: there a name
that nothing has (`Session.stray_unresolved`) and a field that refers to itself are accepted.
-/

namespace TypedRecords

namespace Progress

/-- A declaration that is added to `p` builds the record from the draft and leaves `p'`. -/
inductive Builds (p p' : Progress) : Side → Draft → Record → Prop
  | classes {lets : List Override} {c : ClassSyntax} {t : Template} {bs : Bindings} {d : Draft}
      {r : Record} (h : p.ClassStep lets c p' t bs d r) : Builds p p' .classes d r
  | defs {lets : List Override} {s : DefSyntax} {t : Template} {d : Draft} {r : Record}
      (h : p.DefStep lets s p' t d r) : Builds p p' .defs d r

namespace Builds
variable {p p' : Progress} {side : Side} {d : Draft} {r : Record}

theorem finish (h : p.Builds p' side d r) :
    ∃ name anonymous isClass direct, d.finish p.db name anonymous isClass direct = .ok r := by
  cases h with
  | classes h => exact ⟨_, _, _, _, h.record⟩
  | defs h => exact ⟨_, _, _, _, h.record⟩

/-- The names in the draft of a declaration are resolved, save those behind an unset operand. -/
theorem resolved (h : p.Builds p' side d r) : ∃ t : String → Option Value,
    r.fields = d.fields.map (fun f => ⟨f.name, f.type, t f.name⟩) ∧
      d.Solves p.db t ∧ d.Resolved p.db fun x => ¬x.Unset (d.settled p.db t) := by
  obtain ⟨name, anonymous, isClass, direct, hr⟩ := h.finish
  exact Draft.finish_resolved hr

theorem defs_prefix (h : p.Builds p' side d r) : p.db.defs.records <+: p'.db.defs.records := by
  cases h with
  | classes h =>
    have hdefs : p'.db.defs = p.db.defs := by rw [h.db]
    exact hdefs ▸ List.prefix_rfl
  | defs h =>
    rw [h.db]
    exact RecordTable.prefix_keep ..

/-- The records afterwards are those there were before and the one that was built. -/
theorem item?_eq_some (h : p.Builds p' side d r) {side' : Side} {i : Nat} {q : Record}
    (hq : (p'.db.table side').item? i = some q) :
    (p.db.table side').item? i = some q ∨ (side' = side ∧ i = (p.db.table side).size ∧ q = r) := by
  cases h with
  | classes h =>
    rw [h.db] at hq
    cases side' with
    | classes => exact (RecordTable.item?_keep_eq_some hq).imp_right fun h => ⟨rfl, h⟩
    | defs => exact .inl hq
  | defs h =>
    rw [h.db] at hq
    cases side' with
    | classes => exact .inl hq
    | defs => exact (RecordTable.item?_keep_eq_some hq).imp_right fun h => ⟨rfl, h⟩

end Builds

/-- Every record was built by a declaration that found only the defs before it. -/
def Built (p : Progress) : Prop :=
  ∀ side i r, (p.db.table side).item? i = some r → ∃ q q' d, Builds q q' side d r ∧
    q.db.defs.records <+: p.db.defs.records ∧ (q.db.table side).size = i

theorem Built.add {p p' : Progress} {side : Side} {d : Draft} {r : Record} (hp : p.Built)
    (h : p.Builds p' side d r) : p'.Built := by
  intro side' i q hq
  rcases h.item?_eq_some hq with hold | ⟨rfl, rfl, rfl⟩
  · obtain ⟨q₀, q₁, d₀, hbuilds, hprefix, hsize⟩ := hp side' i q hold
    exact ⟨q₀, q₁, d₀, hbuilds, hprefix.trans h.defs_prefix, hsize⟩
  · exact ⟨p, p', d, h, h.defs_prefix, rfl⟩

theorem built_invariant : Invariant Built fun _ _ => True where
  start side i r hr := by cases side <;> cases hr
  lets _ _ := trivial
  grow _ _ := trivial
  addClass hp _ hstep := hp.add (.classes hstep)
  addDef hp _ hstep := hp.add (.defs hstep)

end Progress

namespace Session

/-- A declaration that is added to `p` builds, from the draft, the record that the session has at the
position. It finds the records of `p`, which the session goes on to have. -/
structure Builds (s : Session) (side : Side) (i : Nat) (p : Progress) (d : Draft) : Prop where
  step : ∃ p' r, p.Builds p' side d r ∧
    (s.db.table side).item? i = some { r with linked := true }
  kept : p.db.link.defs.records <+: s.db.defs.records
  position : (p.db.table side).size = i

/-- Every record was built by a declaration, and whatever declaration built it, the names in the
expressions of its fields are those of fields and of defs kept before it, and no field refers to
itself. Names behind an unset operand of an operation are left out; if no operand is unset, this holds
of all names. -/
theorem names_resolve {search : SearchPath} {name text : String} {s : Session}
    (h : read search name text = .ok s) {side : Side} {i : Nat} {r : Record}
    (hr : (s.db.table side).item? i = some r) :
    (∃ p d, s.Builds side i p d) ∧ ∀ p d, s.Builds side i p d →
      ∃ t : String → Option Value, r.fields = d.fields.map (fun f => ⟨f.name, f.type, t f.name⟩) ∧
        d.Solves p.db t ∧ d.Resolved p.db (fun x => ¬x.Unset (d.settled p.db t)) ∧
        ((∀ f ∈ d.fields, ∀ x : Expr, x.OperandOf f.value → ¬x.Unset (d.settled p.db t)) →
          d.Resolved p.db fun _ => True) := by
  constructor
  · obtain ⟨db, hdb, h⟩ := bind_eq_ok.1 h
    obtain ⟨p, hp, rfl⟩ := Progress.built_invariant.run hdb
    obtain rfl := pure_eq_ok.1 h
    have hlinked : (p.db.table side).link.item? i = some r := Database.table_link p.db side ▸ hr
    obtain ⟨q, hq, rfl⟩ := RecordTable.item?_link_eq_some hlinked
    obtain ⟨p₀, p₁, d, hbuilds, hprefix, hsize⟩ := hp side i q hq
    exact ⟨p₀, d, ⟨p₁, q, hbuilds, hr⟩, hprefix.map _, hsize⟩
  · rintro p d ⟨⟨p', q, hbuilds, hq⟩, -, -⟩
    obtain rfl := Option.some.inj (hr.symm.trans hq)
    obtain ⟨t, hfields, hsolves, hresolved⟩ := hbuilds.resolved
    exact ⟨t, hfields, hsolves, hresolved, hresolved.of_operands⟩

/-! ### Runs -/

/-- A def whose fields name each other, as an operand and as the operator of a dag, and a def. -/
def naming : String :=
  "def X; def D \x7b int a = !add(b, true); int b = true; string s = \"op\"; dag g = (s X); \x7d"

def namingPlace : Location := .start "naming"

def namingProgress : Progress := ⟨⟨.empty, ⟨[⟨"X", false, false, [], [], [], false⟩], by decide⟩⟩, [], 0⟩

def namingDef : DefSyntax where
  name := some "D"
  parents := []
  body := [
    .field .int "a" (some (.bang "!add" [.reference "b" namingPlace, .boolean true] namingPlace))
      namingPlace,
    .field .int "b" (some (.boolean true)) namingPlace,
    .field .string "s" (some (.string ['o', 'p'] namingPlace)) namingPlace,
    .field .dag "g" (some (.dag "s" namingPlace [⟨none, some (.reference "X" namingPlace)⟩]
      namingPlace)) namingPlace]
  place := namingPlace

def namingDraft : Draft where
  fields := [
    ⟨"a", .int, .bang .add [.reference "b" namingPlace, .int 1] namingPlace, namingPlace⟩,
    ⟨"b", .int, .int 1, namingPlace⟩,
    ⟨"s", .string, .string "op", namingPlace⟩,
    ⟨"g", .dag, .dag (.reference "s" namingPlace) [⟨none, some (.reference "X" namingPlace)⟩]
      namingPlace, namingPlace⟩]
  superclasses := []
  instantiations := []
  distinct := by decide

def namingRecord : Record :=
  ⟨"D", false, false,
    [⟨"a", .int, some (.int 2)⟩, ⟨"b", .int, some (.int 1)⟩, ⟨"s", .string, some (.string "op")⟩,
      ⟨"g", .dag, some (.dag (.name "op") [⟨none, some (.record ⟨"X", 0⟩)⟩])⟩], [], [], false⟩

theorem naming_builds :
    ∃ p', namingProgress.Builds p' .defs namingDraft namingRecord := by
  have hstep : namingProgress.DefStep [] namingDef
      { namingProgress with
        db := { namingProgress.db with
          defs := (namingProgress.db.defs.keep namingRecord).table } }
      ⟨"D", [], [], [], namingDraft.fields.map fun f => .field f.name f.type (some f.value) f.place⟩
      namingDraft namingRecord :=
    ⟨rfl, by decide, rfl, rfl, rfl, rfl, rfl⟩
  exact ⟨_, .defs hstep⟩

theorem naming_resolve :
    ∃ s, read ⟨.emptyAt [], []⟩ "naming" naming = .ok s ∧
      s.Builds .defs 1 namingProgress namingDraft ∧
      namingDraft.Resolved namingProgress.db fun _ => True := by
  have hrun : ((read ⟨.emptyAt [], []⟩ "naming" naming).toOption.map fun s => s.db.defs.records) =
      some [⟨"X", false, false, [], [], [], true⟩, { namingRecord with linked := true }] := by
    decide +kernel
  obtain ⟨s, h, hdefs⟩ := ok_of_toOption_map hrun
  have hitem : (s.db.table .defs).item? 1 = some { namingRecord with linked := true } :=
    congrArg (·[1]?) hdefs
  have hkept : namingProgress.db.link.defs.records <+: s.db.defs.records := ⟨_, hdefs.symm⟩
  obtain ⟨p', hstep⟩ := naming_builds
  have hbuilds : s.Builds .defs 1 namingProgress namingDraft :=
    ⟨⟨p', namingRecord, hstep, hitem⟩, hkept, rfl⟩
  obtain ⟨t, hfields, -, -, hall⟩ := (names_resolve h hitem).2 _ _ hbuilds
  have hb : t "b" = some (.int 1) :=
    (Field.mk.inj (List.cons.inj (List.cons.inj hfields).2).1).2.2.symm
  refine ⟨s, h, hbuilds, hall fun f hf x hx hunset => ?_⟩
  simp only [namingDraft, List.mem_cons, List.not_mem_nil, or_false] at hf
  rcases hf with rfl | rfl | rfl | rfl
  · cases hx with
    | here hx =>
      simp only [List.mem_cons, List.not_mem_nil, or_false] at hx
      rcases hx with rfl | rfl
      · have hvalue : (evaluate (namingDraft.settled namingProgress.db t)
            (.reference "b" namingPlace) none).run () = .ok (t "b", ()) := rfl
        rw [Expr.Unset, hvalue, hb] at hunset
        cases hunset
      · cases hunset
    | inner he hx =>
      simp only [List.mem_cons, List.not_mem_nil, or_false] at he
      rcases he with rfl | rfl <;> cases hx
  · cases hx
  · cases hx
  · cases hx with
    | operator hx => cases hx
    | arg ha he hx =>
      obtain rfl := List.mem_singleton.1 ha
      obtain rfl := Option.some.inj he
      cases hx

/-- A field that refers to itself and to a name that nothing has, behind an unset operand. -/
def stray : String := "def D \x7b int x = !add(?, nothing, x); \x7d"

def strayDef : DefSyntax where
  name := some "D"
  parents := []
  body := [.field .int "x" (some (.bang "!add"
    [.unset, .reference "nothing" namingPlace, .reference "x" namingPlace] namingPlace)) namingPlace]
  place := namingPlace

def strayDraft : Draft where
  fields := [⟨"x", .int, .bang .add [.unset, .reference "nothing" namingPlace,
    .reference "x" namingPlace] namingPlace, namingPlace⟩]
  superclasses := []
  instantiations := []
  distinct := by decide

def strayRecord : Record := ⟨"D", false, false, [⟨"x", .int, none⟩], [], [], false⟩

/-- Behind an unset operand a name that nothing has and a circular reference are accepted. -/
theorem stray_unresolved :
    (∃ s, read ⟨.emptyAt [], []⟩ "stray" stray = .ok s ∧ s.Builds .defs 0 .start strayDraft) ∧
    (∃ f ∈ strayDraft.fields, f.value.Mentions (fun _ => True) False "nothing") ∧
    strayDraft.field? "nothing" = none ∧ Progress.start.db.ref? "nothing" = none ∧
    Relation.TransGen (strayDraft.Refers fun _ => True) "x" "x" := by
  have hstep : Progress.start.DefStep [] strayDef
      { Progress.start with
        db := { Progress.start.db with
          defs := (Progress.start.db.defs.keep strayRecord).table } }
      ⟨"D", [], [], [], strayDraft.fields.map fun f => .field f.name f.type (some f.value) f.place⟩
      strayDraft strayRecord :=
    ⟨rfl, by decide, rfl, rfl, rfl, rfl, rfl⟩
  have hmem : strayDraft.fields[0] ∈ strayDraft.fields := List.getElem_mem _
  refine ⟨?_, ⟨_, hmem, ?_⟩, rfl, rfl, .single ⟨rfl, _, hmem, rfl, ?_⟩⟩
  · have hrun : ((read ⟨.emptyAt [], []⟩ "stray" stray).toOption.map fun s => s.db.defs.item? 0) =
        some (some { strayRecord with linked := true }) := by
      decide +kernel
    obtain ⟨s, h, hitem⟩ := ok_of_toOption_map hrun
    exact ⟨s, h, ⟨_, strayRecord, .defs hstep, hitem⟩, List.nil_prefix, rfl⟩
  · exact @Expr.Mentions.operand _ _ _ .add [.unset] [.reference "x" namingPlace] namingPlace _
      (fun _ _ => trivial) (.reference namingPlace)
  · exact @Expr.Mentions.operand _ _ _ .add [.unset, .reference "nothing" namingPlace] []
      namingPlace _ (fun _ _ => trivial) (.reference namingPlace)

end Session
end TypedRecords
