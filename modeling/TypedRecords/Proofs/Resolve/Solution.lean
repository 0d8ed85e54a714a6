import TypedRecords.Proofs.Resolve.Visit

/-!
# The solution of the field equations

A draft whose fields can all be evaluated has one table of values that satisfies the equation of
each field, and the finished record holds that table. The order in which the fields are visited
decides neither whether the record is finished nor what it holds.
-/

namespace TypedRecords.Draft
variable {d : Draft} {db : Database}

/-- In the table every field has the value that its expression evaluates and converts to where all
fields read as the table says. -/
def Solves (d : Draft) (db : Database) (t : String → Option Value) : Prop :=
  ∀ f ∈ d.fields, d.Computes db (fun name => some (t name)) f (t f.name)

/-- The values that a memo gives to fields; one that it does not hold is unset. -/
def memoValues (m : Memo) : String → Option Value := fun name => (m.lookup name).join

theorem values_eq_ok {order : List DraftField} {m : Memo} :
    d.values db order = .ok m ↔ (d.resolveAll db order).run [] = .ok ((), m) := by
  unfold values
  rw [bind_eq_ok]
  exact ⟨fun ⟨⟨⟨⟩, _⟩, h, hm⟩ => pure_eq_ok.1 hm ▸ h, fun h => ⟨_, h, rfl⟩⟩

theorem table_eq_memoValues {m : Memo} {name : String} (h : (m.table name).isSome) :
    m.table name = some (memoValues m name) := by
  obtain ⟨v, hv⟩ := Option.isSome_iff_exists.1 h
  have hv' : m.lookup name = some v := hv
  rw [hv, memoValues, hv']
  rfl

theorem Filled.solves {m : Memo} (h : d.Filled db m)
    (hall : ∀ f ∈ d.fields, (m.table f.name).isSome) : d.Solves db (memoValues m) := by
  intro f hf
  have hle : m.table.Le fun name => some (memoValues m name) := fun _ v hv =>
    (table_eq_memoValues (Option.isSome_iff_exists.2 ⟨v, hv⟩)).symm.trans hv
  exact (h.computes hf (table_eq_memoValues (hall f hf))).mono hle

theorem Filled.solution_eq {m : Memo} (h : d.Filled db m) {t : String → Option Value}
    (ht : d.Solves db t) {f : DraftField} (hf : (m.table f.name).isSome) :
    t f.name = memoValues m f.name :=
  Option.some.inj (h.le_solution ht _ _ (table_eq_memoValues hf))

/-- What is left behind where the fields are visited, each at least once, in some order. -/
theorem values_sound {order : List DraftField} (hmem : ∀ f, f ∈ order ↔ f ∈ d.fields) {m : Memo}
    (h : d.values db order = .ok m) :
    d.Filled db m ∧ ∀ f ∈ d.fields, (m.table f.name).isSome := by
  obtain ⟨hm, -, hall⟩ := resolveAll_sound (fun f hf => (hmem f).1 hf) .nil (values_eq_ok.1 h)
  exact ⟨hm, fun f hf => hall f ((hmem f).2 hf)⟩

/-- The record found in one order of visits is found in any other order. -/
theorem finishIn_congr {order order' : List DraftField} (hmem : ∀ f, f ∈ order ↔ f ∈ d.fields)
    (hmem' : ∀ f, f ∈ order' ↔ f ∈ d.fields) {name : String} {anonymous isClass : Bool}
    {direct : List String} {r : Record}
    (h : d.finishIn db order name anonymous isClass direct = .ok r) :
    d.finishIn db order' name anonymous isClass direct = .ok r := by
  obtain ⟨m, hm, rfl⟩ := finishIn_eq_ok.1 h
  obtain ⟨hfilled, hall⟩ := values_sound hmem hm
  obtain ⟨m', hrun, hle⟩ := resolveAll_complete hfilled (fun f hf => (hmem' f).1 hf)
    (fun f hf => hall f ((hmem' f).1 hf)) (m := []) nofun
  have hm' : d.values db order' = .ok m' := values_eq_ok.2 hrun
  have heq : ∀ f ∈ d.fields, memoValues m' f.name = memoValues m f.name := fun f hf => by
    have h' := table_eq_memoValues ((values_sound hmem' hm').2 f hf)
    exact Option.some.inj ((hle _ _ h').symm.trans (table_eq_memoValues (hall f hf)))
  refine finishIn_eq_ok.2 ⟨m', hm', ?_⟩
  rw [Record.mk.injEq]
  refine ⟨rfl, rfl, rfl, List.map_congr_left fun f hf => ?_, rfl, rfl, rfl⟩
  exact congrArg (Field.mk f.name f.type) (heq f hf).symm

/-- A finished record holds the one solution of the field equations, with every field evaluated; and
whether it is finished, and what it holds, is the same in every order of visits. -/
theorem finish_solution (d : Draft) (db : Database) (name : String) (anonymous isClass : Bool)
    (direct : List String) :
    (∀ r, d.finish db name anonymous isClass direct = .ok r →
      ∃ (m : Memo) (t : String → Option Value), d.values db d.fields = .ok m ∧
        (∀ f ∈ d.fields, m.lookup f.name = some (t f.name)) ∧
        r.fields = d.fields.map (fun f => ⟨f.name, f.type, t f.name⟩) ∧
        d.Solves db t ∧ ∀ u, d.Solves db u → ∀ f ∈ d.fields, u f.name = t f.name) ∧
    ∀ order : List DraftField, order.Perm d.fields →
      (d.finishIn db order name anonymous isClass direct).toOption =
        (d.finish db name anonymous isClass direct).toOption := by
  constructor
  · intro r h
    obtain ⟨m, hm, hr⟩ := finishIn_eq_ok.1 h
    obtain ⟨hfilled, hall⟩ := values_sound (fun _ => Iff.rfl) hm
    exact ⟨m, memoValues m, hm, fun f hf => table_eq_memoValues (hall f hf),
      congrArg Record.fields hr, hfilled.solves hall,
      fun u hu f hf => hfilled.solution_eq hu (hall f hf)⟩
  · intro order hperm
    have hmem : ∀ f, f ∈ order ↔ f ∈ d.fields := fun f => hperm.mem_iff
    cases hr : d.finish db name anonymous isClass direct with
    | ok r => rw [finishIn_congr (fun _ => Iff.rfl) hmem hr]
    | error e =>
      cases hr' : d.finishIn db order name anonymous isClass direct with
      | ok r =>
        have := finishIn_congr hmem (fun _ => Iff.rfl) hr'
        rw [finish, this] at hr
        cases hr
      | error e' => rfl

/-- A field that names one declared after it, which has to be converted. -/
def forward : Draft where
  fields := [⟨"number", .int, .reference "code" (.start ""), .start ""⟩,
    ⟨"code", .bits 2, .int 3, .start ""⟩]
  superclasses := []
  instantiations := []
  distinct := by decide

theorem forward_solution :
    ∃ r t, forward.finish .empty "forward" false false [] = .ok r ∧
      r.fields = forward.fields.map (fun f => ⟨f.name, f.type, t f.name⟩) ∧
      forward.Solves .empty t ∧ t "number" = some (.int 3) ∧
      forward.finishIn .empty forward.fields.reverse "forward" false false [] = .ok r := by
  obtain ⟨hsol, hperm⟩ := finish_solution forward .empty "forward" false false []
  have hr : forward.finish .empty "forward" false false [] = .ok ⟨"forward", false, false,
      [⟨"number", .int, some (.int 3)⟩, ⟨"code", .bits 2, some (.bits [some true, some true])⟩],
      [], [], false⟩ := by rfl
  obtain ⟨m, t, -, -, hfields, ht, -⟩ := hsol _ hr
  have hrev := hperm _ (List.reverse_perm _)
  refine ⟨_, t, hr, hfields, ht, ?_, ?_⟩
  · exact (Field.mk.inj (List.cons.inj hfields).1).2.2.symm
  · rw [hr] at hrev
    cases h : forward.finishIn .empty forward.fields.reverse "forward" false false [] with
    | ok r => rw [h] at hrev; exact congrArg Except.ok (Option.some.inj hrev)
    | error e => rw [h] at hrev; cases hrev

end TypedRecords.Draft
