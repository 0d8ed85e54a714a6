import TypedRecords.Proofs.Resolve.Solution
import TypedRecords.Proofs.Unset.Inherit

/-!
# Records with parts left unset

A draft below one that is finished is finished too, with values below, or fails as a field wants a
value (`Draft.finish_follows`). It is compared with the filled memo of the other: a visit that is met
there is answered with a value below the one in the memo, as no field above it in the memo waits for it.
-/

namespace TypedRecords
variable {db : Database}

/-- Every value remembered is below the one in the table. -/
def Memo.Below (m : Memo) (t : Table) : Prop :=
  ∀ name v, m.table name = some v → ∃ w, t name = some w ∧ Value.Below v w

theorem Memo.Below.cons {m : Memo} {t : Table} (h : m.Below t) {name : String} {v w : Option Value}
    (hw : t name = some w) (hv : Value.Below v w) : Memo.Below ((name, v) :: m) t := by
  intro other u hu
  by_cases ho : other = name
  · subst ho
    rw [Memo.table_cons_self] at hu
    exact ⟨w, hw, Option.some.inj hu ▸ hv⟩
  · exact h other u (Memo.table_cons_ne m v ho ▸ hu)

namespace Draft
variable {d d' : Draft}

theorem Computes.fits {table : Table} {f : DraftField} {w : Option Value}
    (h : d.Computes db table f w) : ∀ a ∈ w, a.Fits f.type := by
  intro a ha
  obtain ⟨v, ⟨⟩, -, h⟩ := run_bind_eq_ok.1 (computes_iff.1 h)
  have h : assign _ _ _ _ v = .ok (some a) := ha ▸ (run_lift_eq_ok.1 h).1
  obtain ⟨u, -, hu⟩ := assign_eq_ok h
  exact Value.fits_of_convert hu

/-- The expression evaluates to the first value in the first draft and to the second in the second
draft, where the fields that it names have been evaluated. -/
def Compares (db : Database) (d d' : Draft) (bs bs' : Bindings) (e : Expr) (v w : Option Value) : Prop :=
  ∃ m m', d.Filled db m ∧ d'.Filled db m' ∧
    e.Compares (d.scope db (readFrom m.table)) (d'.scope db (readFrom m'.table)) bs bs' v w

/-- A field of the first draft wants a value that it has in the second, or its type wants a bit of one:
the field has the same expression in both, under different bindings. -/
def Wants (db : Database) (d d' : Draft) (err : ParseError) : Prop :=
  ∃ f ∈ d.fields, ∃ f' ∈ d'.fields, ∃ (e : Expr) (bs bs' : Bindings), f.name = f'.name ∧
    f.value = e.substitute bs ∧ f'.value = e.substitute bs' ∧
    e.WantedFor db.store (Compares db d d' bs bs') (.field f.name) f.type f.place err

section
variable {O : String → Bindings → Bindings → Prop} {σ : Type} {I : σ → Prop}
  {x : DraftField → Eval σ (Option Value)} {y : DraftField → Eval Unit (Option Value)}

theorem scope_tracks {N : ParseError → Prop} (h : d.Le O d')
    (hxy : ∀ f ∈ d.fields, ∀ f' ∈ d'.fields, f.Le f' →
      Tracks I N (fun v w => Value.Below v w ∧ ∀ a ∈ w, a.Fits f'.type) (x f) (y f')) :
    Scope.Tracks I N (d.scope db x) (d'.scope db y) where
  db := rfl
  field name := by
    rcases h.field? name with ⟨hf, hf'⟩ | ⟨f, f', hf, hf', hle⟩
    · exact .inl (by simp [scope, hf, hf'])
    · have hfield : (d.scope db x).field name = some (f'.type, x f) := by
        simp [scope, hf, hle.type]
      have hfield' : (d'.scope db y).field name = some (f'.type, y f') := by
        simp [scope, hf']
      have hreads := hxy f (mem_of_field? hf).1 f' (mem_of_field? hf').1 hle
      exact .inr ⟨f'.type, x f, y f', hfield, hfield', hreads⟩

theorem fieldValue_tracks (h : d.Le O d') (hxy : ∀ f ∈ d.fields, ∀ f' ∈ d'.fields, f.Le f' →
      Tracks I (Wants db d d') (fun v w => Value.Below v w ∧ ∀ a ∈ w, a.Fits f'.type) (x f) (y f'))
    (hcompares : ∀ bs bs', Comparable I (d.scope db x) (d'.scope db y) bs bs' (Compares db d d' bs bs'))
    {f f' : DraftField} (hf : f ∈ d.fields) (hf' : f' ∈ d'.fields) (hle : f.Le f') :
    Tracks I (Wants db d d') Value.Below (d.fieldValue db x f) (d'.fieldValue db y f') := by
  obtain ⟨e, bs, bs', hbs, he, he'⟩ := hle.value
  have hwants : ∀ err, e.WantedFor db.store (Compares db d d' bs bs') (.field f'.name) f'.type f'.place
      err → Wants db d d' err := by
    intro err herr
    refine ⟨f, hf, f', hf', e, bs, bs', hle.name, he, he', ?_⟩
    rw [hle.name, hle.type, hle.place]
    exact herr
  unfold fieldValue
  rw [he, he', hle.name, hle.type, hle.place]
  refine (evaluate_tracks (scope_tracks h hxy) hbs (hcompares bs bs') e _
    fun err herr => hwants err (.inside herr)).bind fun v w hvw hresults => ?_
  refine Tracks.lift ((assign_follows hvw.1 _ _ fun a b ha hb hlacks => ?_).mono
    fun u u' hu _ _ => hu.1)
  subst ha hb
  exact hwants _ (.converted (hcompares bs bs' e _ _ _ hresults) hlacks)

end

/-- Every value that is remembered is below the one in the table, and the fields on the path are being
evaluated. -/
structure Visited (db : Database) (d : Draft) (path : List String) (t : Table) (m : Memo) : Prop where
  below : m.Below t
  ready : d.Ready db path m

/-- What an expression evaluates to while fields are visited is its value where they have been. -/
theorem comparable_visited {depth : Nat} {path : List String} {t : Table} {m₀ : Memo}
    (h₀ : d'.Filled db m₀) (bs bs' : Bindings) :
    Comparable (Visited db d path t) (d.scope db (d.resolve db depth path))
      (d'.scope db (readFrom m₀.table)) bs bs' (Compares db d d' bs bs') := by
  rintro e expected v w ⟨m, m', hm, hv, hw⟩
  have hscopes : (visiting d db path m'.table).Scopes (d.scope db (d.resolve db depth path))
      (d.scope db (readFrom m'.table)) :=
    scope_scopes _ d rfl fun f hf => visit_sound depth path m'.table hf
  obtain ⟨hm', -, hread⟩ :=
    (visiting d db path m'.table).evaluate hscopes (e.substitute bs) expected m v m' hm.ready hv
  exact ⟨m', m₀, hm'.filled, h₀, expected, run'_eq_ok.2 (hread (.refl _)), run'_eq_ok.2 hw⟩

/-- A field that the filled memo `m₀` holds is visited, from memos below a table above `m₀`, with a
value below, where the fields that wait are not in `m₀`. -/
theorem visit_below {O : String → Bindings → Bindings → Prop} (h : d.Le O d') {m₀ : Memo}
    (h₀ : d'.Filled db m₀) {t : Table} (ht : m₀.table.Le t) {depth : Nat} {path : List String}
    (hpath : d.Path depth path) (hwait : ∀ name ∈ path, m₀.table name = none) {f : DraftField}
    (hf : f ∈ d.fields) {f' : DraftField} (hf' : f' ∈ d'.fields) (hle : f.Le f') :
    Tracks (Visited db d path t) (Wants db d d')
      (fun v w => Value.Below v w ∧ ∀ a ∈ w, a.Fits f'.type) (d.resolve db depth path f)
      (readFrom m₀.table f') := by
  -- on the order in which the memo was filled: what a field reads there was filled in before it
  induction h₀ generalizing depth path f f' with
  | nil => exact fun m _ b hb => nomatch readFrom_eq_ok.1 hb
  | @cons m₀ g w hm₀ hg hnew hw ih =>
    have hle₀ : m₀.table.Le t := (Memo.le_cons w hnew).trans ht
    have hwait₀ : ∀ name ∈ path, m₀.table name = none := fun name hname =>
      Memo.table_eq_none_of_cons hnew (hwait name hname)
    intro m hm b hb
    have hv := readFrom_eq_ok.1 hb
    by_cases hfg : f'.name = g.name
    · obtain rfl := eq_of_name_eq hf' hg hfg
      obtain rfl : w = b.1 := Option.some.inj ((Memo.table_cons_self m₀ _ w).symm.trans hv)
      have htf : t f'.name = some b.1 := ht _ _ hv
      cases hmf : m.table f.name with
      | some u =>
        obtain ⟨x, hx, hux⟩ := hm.below _ u hmf
        obtain rfl : x = b.1 := Option.some.inj (hx.symm.trans (hle.name ▸ htf))
        exact .inl ⟨(u, m), resolve_eq_of_table depth path hmf, ⟨hux, hw.fits⟩, hm⟩
      | none =>
        -- what waits is not in the memo, so this field does not wait for itself
        have hp : f.name ∉ path := fun hp => by
          rw [hwait f'.name (hle.name ▸ hp)] at hv
          cases hv
        obtain ⟨depth, rfl⟩ := hpath.exists_depth hf hp
        have hwaits : ∀ name ∈ f.name :: path, m₀.table name = none :=
          List.forall_mem_cons.2 ⟨hle.name ▸ hnew, hwait₀⟩
        have hreads : ∀ g ∈ d.fields, ∀ g' ∈ d'.fields, g.Le g' →
            Tracks (Visited db d (f.name :: path) t) (Wants db d d')
              (fun v w => Value.Below v w ∧ ∀ a ∈ w, a.Fits g'.type)
              (d.resolve db depth (f.name :: path) g) (readFrom m₀.table g') := by
          intro g hg g' hg' hgg'
          exact ih hle₀ (hpath.cons hf hp) hwaits hg hg' hgg'
        have hvisited : Visited db d (f.name :: path) t m :=
          ⟨hm.below, hm.ready.filled, List.forall_mem_cons.2 ⟨hmf, hm.ready.waiting⟩⟩
        have hinner := fieldValue_tracks h hreads (fun bs bs' => comparable_visited hm₀ bs bs') hf hf'
          hle m hvisited _ (computes_iff.1 hw)
        have hrun : (d.resolve db (depth + 1) path f).run m =
            ((d.fieldValue db (d.resolve db depth (f.name :: path)) f).run m).map fun p =>
              (p.1, (f.name, p.1) :: p.2) := resolve_succ_run hmf hp
        rcases hinner with ⟨p, hp, hbelow, hm₁⟩ | ⟨e, he, hwants⟩
        · rw [hp] at hrun
          have hready := (visit_sound (depth + 1) path t hf m p.1 ((f.name, p.1) :: p.2) hm.ready hrun).1
          exact .inl ⟨_, hrun, ⟨hbelow, hw.fits⟩, hm₁.below.cons (hle.name ▸ htf) hbelow, hready⟩
        · rw [he] at hrun
          exact .inr ⟨e, hrun, hwants⟩
    · rw [Memo.table_cons_ne m₀ w hfg] at hv
      exact ih hle₀ hpath hwait₀ hf hf' hle m hm b (readFrom_eq_ok.2 hv)

theorem resolveAll_below {O : String → Bindings → Bindings → Prop} (h : d.Le O d') {m₀ : Memo}
    (h₀ : d'.Filled db m₀) {fs fs' : List DraftField} (hle : List.Forall₂ DraftField.Le fs fs')
    (hfs : ∀ f ∈ fs, f ∈ d.fields)
    (hfs' : ∀ f ∈ fs', f ∈ d'.fields ∧ (m₀.table f.name).isSome) {m : Memo}
    (hm : Visited db d [] m₀.table m) :
    (∃ m', (d.resolveAll db fs).run m = .ok ((), m') ∧ m'.Below m₀.table) ∨
      ∃ e, (d.resolveAll db fs).run m = .error e ∧ Wants db d d' e := by
  induction hle generalizing m with
  | nil => exact .inl ⟨m, rfl, hm.below⟩
  | @cons f f' fs fs' hff' _ ih =>
    obtain ⟨hf, hfs⟩ := List.forall_mem_cons.1 hfs
    obtain ⟨⟨hf', hsome⟩, hfs'⟩ := List.forall_mem_cons.1 hfs'
    obtain ⟨w, hw⟩ := Option.isSome_iff_exists.1 hsome
    have hvisit := visit_below h h₀ (.refl _) (.nil d) (by simp) hf hf' hff' m hm (w, ())
      (readFrom_eq_ok.2 hw)
    rw [resolveAll, StateT.run_bind]
    rcases hvisit with ⟨p, hp, -, hm₁⟩ | ⟨e, he, hwants⟩
    · rw [hp]
      exact ih hfs hfs' hm₁
    · rw [he]
      exact .inr ⟨e, rfl, hwants⟩

end Draft

/-- One field of a record is another one whose value may be unset, wholly or in part. -/
structure Field.Le (f f' : Field) : Prop where
  name : f.name = f'.name
  type : f.type = f'.type
  value : Value.Below f.value f'.value

namespace Draft
variable {d d' : Draft}

theorem exists_finish {name : String} {anonymous isClass : Bool}
    {direct : List String} {r : Record} (h : d.finish db name anonymous isClass direct = .ok r)
    (name' : String) (anonymous' isClass' : Bool) (direct' : List String) :
    ∃ r', d.finish db name' anonymous' isClass' direct' = .ok r' := by
  obtain ⟨m, hm, -⟩ := finishIn_eq_ok.1 h
  exact ⟨_, finishIn_eq_ok.2 ⟨m, hm, rfl⟩⟩

/-- A draft below one that is finished is finished with values below, or a field wants a value. -/
theorem finish_follows {O : String → Bindings → Bindings → Prop} (h : d.Le O d') (name : String)
    (anonymous isClass : Bool) (direct : List String) (name' : String) (anonymous' isClass' : Bool)
    (direct' : List String) :
    Follows (Wants db d d')
      (fun r r' => List.Forall₂ Field.Le r.fields r'.fields ∧ r.superclasses = r'.superclasses)
      (d.finish db name anonymous isClass direct)
      (d'.finish db name' anonymous' isClass' direct') := by
  intro r' hr'
  obtain ⟨m₀, hm₀, rfl⟩ := finishIn_eq_ok.1 hr'
  obtain ⟨hfilled, hall⟩ := values_sound (fun _ => Iff.rfl) hm₀
  have hvisited : Visited db d [] m₀.table [] := ⟨nofun, .nil, by simp⟩
  have hvalues := resolveAll_below h hfilled h.fields (fun _ => id) (fun f hf => ⟨hf, hall f hf⟩) hvisited
  rcases hvalues with ⟨m, hm, hbelow⟩ | ⟨e, he, hwants⟩
  · refine .inl ⟨_, finishIn_eq_ok.2 ⟨m, values_eq_ok.2 hm, rfl⟩, ?_, h.superclasses⟩
    refine List.forall₂_map_left_iff.2 (List.forall₂_map_right_iff.2 (h.fields.imp fun f f' hff' => ?_))
    refine ⟨hff'.name, hff'.type, fun v hv => ?_⟩
    obtain ⟨w, hw, hvw⟩ := hbelow f.name (some v) (Option.join_eq_some_iff.1 hv)
    obtain ⟨a, ha, hva⟩ := hvw v rfl
    have hvalue : m₀.lookup f'.name = some (some a) := by
      rw [← hff'.name, ← show w = some a from ha]
      exact hw
    exact ⟨a, by simp [hvalue], hva⟩
  · refine .inr ⟨e, ?_, hwants⟩
    unfold finish finishIn values
    rw [he]
    rfl

end Draft
end TypedRecords
