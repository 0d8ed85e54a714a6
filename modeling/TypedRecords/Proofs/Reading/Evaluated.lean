import TypedRecords.Proofs.Reading.Values
import TypedRecords.Proofs.Resolve.Solution

/-!
# Evaluating what was written

An expression that writes a value of a type down evaluates, where that type is expected, to something
that converts to the value. It reads no field, so a draft of such expressions is finished whatever the
order of its fields.
-/

namespace TypedRecords

/-! ### Conversion of what conforms -/

theorem Value.convertAll_self {store : Store} {element : Ty} {items : List Value}
    (h : ∀ v ∈ items, v.convert store element = some v) :
    convertAll store items element = some items := by
  induction items with
  | nil => rfl
  | cons v vs ih =>
    obtain ⟨hv, hvs⟩ := List.forall_mem_cons.1 h
    rw [convertAll, hv]
    dsimp only
    rw [ih hvs]
    rfl

theorem Conforms.convert_self {store : Store} {type : Ty} {v : Value} (h : Conforms store type v) :
    v.convert store type = some v := by
  induction type generalizing v with
  | bits width =>
    cases v with
    | bits lsbFirst =>
      have hlength : lsbFirst.length = width := h
      rw [Value.convert, if_pos hlength]
    | _ => exact h.elim
  | list element ih =>
    cases v with
    | list recorded items =>
      obtain ⟨rfl, hitems⟩ := h
      rw [Value.convert, Value.convertAll_self fun v hv => ih (hitems v hv)]
      rfl
    | _ => exact h.elim
  | record name =>
    cases v with
    | record ref => rw [Value.convert, if_pos (Value.isInstance_iff.2 h)]
    | _ => exact h.elim
  | _ => cases v <;> first | rfl | exact h.elim

/-! ### Written expressions -/

section
variable {σ : Type} {s : Scope σ} {state : σ}

theorem evaluateBits_bitExpr (place : Location) (msbFirst : List (Option Bool)) :
    (evaluateBits s place (msbFirst.map bitExpr)).run state = .ok (msbFirst, state) := by
  induction msbFirst with
  | nil => rfl
  | cons b bs ih =>
    rw [List.map_cons, evaluateBits]
    refine run_bind_eq_ok.2 ⟨b.map fun b => .int (if b then 1 else 0), state, ?_, ?_⟩
    · rcases b with _ | _ <;> rfl
    · refine run_bind_eq_ok.2 ⟨[b], state, ?_, run_bind_eq_ok.2 ⟨bs, state, ih, rfl⟩⟩
      rcases b with _ | _ | _ <;> rfl

/-- The expression evaluates to something that converts to the value. -/
def Expr.Gives (s : Scope σ) (type : Ty) (v : Value) (e : Expr) : Prop :=
  ∀ state, ∃ w, (evaluate s e (some type)).run state = .ok (some w, state) ∧
    w.convert s.db.store type = some v

theorem evaluateItems_gives {element : Ty} {items : List Value} {es : List Expr} (place : Location)
    (state : σ) (h : List.Forall₂ (Expr.Gives s element) items es) :
    ∃ ws, (evaluateItems s place (some element) es).run state = .ok (ws, state) ∧
      convertElements s.db.store element place ws = .ok items := by
  induction h with
  | nil => exact ⟨[], rfl, rfl⟩
  | cons hv _ ih =>
    obtain ⟨w, hw, hconvert⟩ := hv state
    obtain ⟨ws, hws, hconverts⟩ := ih
    refine ⟨w :: ws, ?_, ?_⟩
    · rw [evaluateItems]
      exact run_bind_eq_ok.2 ⟨some w, state, hw, run_bind_eq_ok.2 ⟨ws, state, hws, rfl⟩⟩
    · rw [convertElements, hconvert]
      dsimp only
      rw [hconverts]
      rfl

/-- An expression that writes a value down gives it, where the names of records lead to the records. -/
theorem Ty.Writes.gives {type : Ty} {v : Value} {e : Expr} (h : type.Writes v e)
    (hv : Conforms s.db.store type v)
    (hrefs : ∀ ref, Value.Within (.record ref) v → s.field ref.name = none ∧ s.db.ref? ref.name = some ref) :
    e.Gives s type v := by
  intro state
  induction type generalizing v e state with
  | bit =>
    cases v with
    | bit b =>
      obtain rfl : e = bitExpr (some b) := h
      exact ⟨.int (if b then 1 else 0), rfl, by cases b <;> rfl⟩
    | _ => exact hv.elim
  | bits width =>
    cases v with
    | bits lsbFirst =>
      cases e with
      | bits items place =>
        obtain rfl : items = lsbFirst.reverse.map bitExpr := h
        refine ⟨.bits lsbFirst, ?_, hv.convert_self⟩
        rw [evaluate]
        refine run_bind_eq_ok.2 ⟨_, state, evaluateBits_bitExpr place lsbFirst.reverse, ?_⟩
        rw [List.reverse_reverse]
        rfl
      | _ => exact h.elim
    | _ => exact hv.elim
  | int =>
    cases v with
    | int number =>
      obtain rfl : e = .int number := h
      exact ⟨.int number, rfl, rfl⟩
    | _ => exact hv.elim
  | string =>
    cases v with
    | string text =>
      obtain rfl : e = .string text := h
      exact ⟨.string text, rfl, rfl⟩
    | _ => exact hv.elim
  | code =>
    cases v with
    | code text =>
      obtain rfl : e = .code text := h
      exact ⟨.code text, rfl, rfl⟩
    | _ => exact hv.elim
  | list element ih =>
    cases v with
    | list recorded items =>
      obtain ⟨rfl, hitems⟩ := id hv
      cases e with
      | list es declared place =>
        cases declared with
        | none =>
          have hwrites : List.Forall₂ recorded.Writes items es := h
          obtain ⟨hlen, hzip⟩ := List.forall₂_iff_zip.1 hwrites
          have hes : List.Forall₂ (Expr.Gives s recorded) items es := by
            refine List.forall₂_iff_zip.2 ⟨hlen, fun hmem => ?_⟩
            have hitem := (List.of_mem_zip hmem).1
            exact ih (hzip hmem) (hitems _ hitem) fun ref hw => hrefs ref (.item hitem hw)
          obtain ⟨ws, hws, hconverts⟩ := evaluateItems_gives place state hes
          refine ⟨.list recorded items, ?_, hv.convert_self⟩
          rw [evaluate]
          refine run_bind_eq_ok.2 ⟨ws, state, hws, run_bind_eq_ok.2 ⟨.list recorded items, state, ?_, rfl⟩⟩
          refine run_lift_eq_ok.2 ⟨?_, rfl⟩
          show (convertElements _ _ _ _).map _ = _
          rw [hconverts]
          rfl
        | some type => exact h.elim
      | _ => exact h.elim
    | _ => exact hv.elim
  | record name =>
    cases v with
    | record ref =>
      cases e with
      | reference other place =>
        obtain rfl : other = ref.name := h
        obtain ⟨hfield, href⟩ := hrefs ref .refl
        refine ⟨.record ref, ?_, hv.convert_self⟩
        rw [evaluate, Scope.lookup, hfield]
        dsimp only
        rw [href]
        rfl
      | _ => exact h.elim
    | _ => exact hv.elim
  | dag => cases v <;> exact h.elim
  | anyRecord => cases v <;> exact h.elim

end

/-! ### Drafts of values that are known -/

namespace Draft
variable {d : Draft} {db : Database}

/-- Fields whose values do not depend on what other fields read as can be filled in. -/
theorem exists_filled {fs : List DraftField} (hsub : ∀ f ∈ fs, f ∈ d.fields)
    (h : ∀ f ∈ fs, ∃ v, ∀ table, d.Computes db table f v) :
    ∃ m, d.Filled db m ∧ ∀ f ∈ fs, (Memo.table m f.name).isSome := by
  induction fs with
  | nil => exact ⟨[], .nil, nofun⟩
  | cons f fs ih =>
    obtain ⟨hf, hfs⟩ := List.forall_mem_cons.1 hsub
    obtain ⟨⟨v, hv⟩, hvs⟩ := List.forall_mem_cons.1 h
    obtain ⟨m, hm, hall⟩ := ih hfs hvs
    cases hmf : Memo.table m f.name with
    | some w => exact ⟨m, hm, List.forall_mem_cons.2 ⟨by rw [hmf]; rfl, hall⟩⟩
    | none =>
      refine ⟨_, hm.cons hf hmf (hv _), List.forall_mem_cons.2 ⟨?_, fun g hg => ?_⟩⟩
      · rw [Memo.table_cons_self]
        rfl
      · obtain ⟨w, hw⟩ := Option.isSome_iff_exists.1 (hall g hg)
        rw [Memo.le_cons v hmf _ _ hw]
        rfl

/-- A field whose expression gives a value computes it, whatever the fields read as. -/
theorem computes_of_gives {f : DraftField} {v : Value}
    (h : ∀ table, f.value.Gives (d.scope db (readFrom table)) f.type v) (table : Table) :
    d.Computes db table f (some v) := by
  obtain ⟨w, hw, hconvert⟩ := h table ()
  refine computes_iff.2 (run_bind_eq_ok.2 ⟨some w, (), hw, run_lift_eq_ok.2 ⟨?_, rfl⟩⟩)
  have hconvert' : w.convert db.store f.type = some v := hconvert
  rw [assign, hconvert']

/-- A draft whose fields have the values of a record's fields, whatever other fields read as, is
finished with those values. -/
theorem finish_of_computes {fields : List Field} (h : List.Forall₂ (fun (f : DraftField) (g : Field) =>
      f.name = g.name ∧ f.type = g.type ∧ ∀ table, d.Computes db table f g.value) d.fields fields)
    (name : String) (anonymous isClass : Bool) (direct : List String) :
    d.finish db name anonymous isClass direct =
      .ok ⟨name, anonymous, isClass, fields, d.superclasses, direct, false⟩ := by
  obtain ⟨hlen, hzip⟩ := List.forall₂_iff_zip.1 h
  have hvalue : ∀ f ∈ d.fields, ∃ v, ∀ table, d.Computes db table f v :=
    ((List.forall₂_and_left _ _).1 (h.imp fun f g hfg => ⟨⟨g.value, hfg.2.2⟩, hfg⟩)).1
  obtain ⟨m₀, hm₀, hall⟩ := exists_filled (fun _ hf => hf) hvalue
  obtain ⟨m, hrun, -⟩ := resolveAll_complete hm₀ (fun _ hf => hf) hall (m := []) nofun
  have hm : d.values db d.fields = .ok m := values_eq_ok.2 hrun
  obtain ⟨hfilled, hsome⟩ := values_sound (fun _ => Iff.rfl) hm
  refine finishIn_eq_ok.2 ⟨m, hm, ?_⟩
  have hfields : (d.fields.map fun f => ⟨f.name, f.type, (m.lookup f.name).join⟩) = fields := by
    rw [← List.forall₂_eq_eq_eq, List.forall₂_map_left_iff, List.forall₂_iff_zip]
    refine ⟨hlen, fun {f g} hmem => ?_⟩
    have hf := (List.of_mem_zip hmem).1
    obtain ⟨hname, htype, hcomputes⟩ := hzip hmem
    obtain ⟨v, hv⟩ := Option.isSome_iff_exists.1 (hsome f hf)
    have hlookup : m.lookup f.name = some v := hv
    have heq : (Except.ok v : Except ParseError _) = .ok g.value :=
      (hfilled.computes hf hv).symm.trans (hcomputes _)
    rw [hlookup, hname, htype, Except.ok.inj heq]
    rfl
  rw [hfields]

end Draft
end TypedRecords
