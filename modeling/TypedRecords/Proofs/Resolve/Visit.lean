import Mathlib.Data.List.Perm.Subperm
import TypedRecords.Proofs.Resolve.Filled

/-!
# Visiting fields

The memoising evaluator against tables of field values. A visit that succeeds leaves a filled memo
(`visit_sound`); a field that a filled memo holds is visited with success from every memo that
agrees with it, as long as no field above it in that memo waits for it (`visit_complete`).
-/

namespace TypedRecords.Draft
variable {d : Draft} {db : Database}

theorem remembered_run (f : DraftField) (compute : Eval Memo (Option Value)) (m : Memo) :
    (remembered f compute).run m =
      match m.table f.name with
      | some v => .ok (v, m)
      | none => compute.run m := by
  show (match m.table f.name with
    | some v => (pure v : Eval Memo (Option Value))
    | none => compute).run m = _
  cases m.table f.name with
  | none => rfl
  | some v => rfl

theorem resolve_eq_of_table (depth : Nat) (path : List String) {f : DraftField} {m : Memo}
    {v : Option Value} (hv : m.table f.name = some v) :
    (d.resolve db depth path f).run m = .ok (v, m) := by
  cases depth with
  | zero => rw [resolve, remembered_run, hv]
  | succ depth => rw [resolve, remembered_run, hv]

theorem resolve_zero_ne_ok (path : List String) {f : DraftField} {m : Memo}
    (hm : m.table f.name = none) {r : Option Value × Memo} :
    (d.resolve db 0 path f).run m ≠ .ok r := by
  rw [resolve, remembered_run, hm]
  exact run_throw_ne_ok

/-- A visit of a field that is neither remembered nor waited for evaluates its equation while it is
waited for, and remembers the value found. -/
theorem resolve_succ_run {depth : Nat} {path : List String} {f : DraftField} {m : Memo}
    (hm : m.table f.name = none) (hp : f.name ∉ path) :
    (d.resolve db (depth + 1) path f).run m =
      ((d.fieldValue db (d.resolve db depth (f.name :: path)) f).run m).map fun p =>
        (p.1, (f.name, p.1) :: p.2) := by
  have hc : path.contains f.name = false := Bool.eq_false_iff.2 fun h => hp (List.contains_iff_mem.1 h)
  rw [resolve, remembered_run, hm]
  simp only [hc, Bool.false_eq_true, if_false]
  rw [StateT.run_bind]
  cases (d.fieldValue db (d.resolve db depth (f.name :: path)) f).run m <;> rfl

theorem resolve_succ_eq_ok {depth : Nat} {path : List String} {f : DraftField} {m : Memo}
    (hm : m.table f.name = none) {v : Option Value} {m' : Memo} :
    (d.resolve db (depth + 1) path f).run m = .ok (v, m') ↔
      f.name ∉ path ∧ ∃ m₁,
        (d.fieldValue db (d.resolve db depth (f.name :: path)) f).run m = .ok (v, m₁) ∧
        m' = (f.name, v) :: m₁ := by
  by_cases hp : f.name ∈ path
  · have hc : path.contains f.name = true := List.contains_iff_mem.2 hp
    rw [resolve, remembered_run, hm]
    simp only [hc, if_true]
    exact ⟨nofun, fun h => absurd hp h.1⟩
  · rw [resolve_succ_run hm hp, map_eq_ok]
    constructor
    · rintro ⟨⟨w, m₁⟩, hw, h⟩
      obtain ⟨rfl, rfl⟩ := Prod.mk.inj h
      exact ⟨hp, m₁, hw, rfl⟩
    · rintro ⟨-, m₁, hw, rfl⟩
      exact ⟨(v, m₁), hw, rfl⟩

/-! ### Soundness -/

/-- A memo from which the fields on `path` are being evaluated: it is filled and has none of them. -/
structure Ready (d : Draft) (db : Database) (path : List String) (m : Memo) : Prop where
  filled : d.Filled db m
  waiting : ∀ name ∈ path, m.table name = none

/-- The evaluation on the left keeps the memo filled and only adds to it, and what it gives is what
the one on the right gives where it reads from a table above the memo left behind. -/
def visiting (d : Draft) (db : Database) (path : List String) (t : Table) : Simulation Memo Unit where
  rel x y := ∀ m a m', d.Ready db path m → x.run m = .ok (a, m') →
    d.Ready db path m' ∧ m.table.Le m'.table ∧ (m'.table.Le t → y.run () = .ok (a, ()))
  pure a m b m' hm h := by
    obtain ⟨rfl, rfl⟩ := run_pure_eq_ok.1 h
    exact ⟨hm, .refl _, fun _ => rfl⟩
  throw _ _ _ _ _ h := absurd h run_throw_ne_ok
  bind hx hf m b m' hm h := by
    obtain ⟨a, m₁, ha, hb⟩ := run_bind_eq_ok.1 h
    obtain ⟨hm₁, hle₁, hy⟩ := hx m a m₁ hm ha
    obtain ⟨hm', hle', hg⟩ := hf a m₁ b m' hm₁ hb
    exact ⟨hm', hle₁.trans hle', fun ht =>
      run_bind_eq_ok.2 ⟨a, ⟨⟩, hy (hle'.trans ht), hg ht⟩⟩

theorem visit_sound (depth : Nat) (path : List String) (t : Table) {f : DraftField}
    (hf : f ∈ d.fields) :
    (visiting d db path t).rel (d.resolve db depth path f) (readFrom t f) := by
  induction depth generalizing path t f with
  | zero =>
    intro m v m' hm h
    cases hv : m.table f.name with
    | none => exact absurd h (resolve_zero_ne_ok path hv)
    | some w =>
      rw [resolve_eq_of_table 0 path hv, Except.ok.injEq, Prod.mk.injEq] at h
      obtain ⟨rfl, rfl⟩ := h
      exact ⟨hm, .refl _, fun ht => readFrom_eq_ok.2 (ht _ _ hv)⟩
  | succ depth ih =>
    intro m v m' hm h
    cases hv : m.table f.name with
    | none =>
      obtain ⟨hp, m₁, hval, rfl⟩ := (resolve_succ_eq_ok hv).1 h
      have hready : d.Ready db (f.name :: path) m :=
        ⟨hm.filled, List.forall_mem_cons.2 ⟨hv, hm.waiting⟩⟩
      -- the table to read from is only known now: the memo that the inner visits left
      obtain ⟨hm₁, hle, hread⟩ := fieldValue_rel (visiting d db (f.name :: path) m₁.table) d rfl
        (fun g hg => ih (f.name :: path) m₁.table hg) f m v m₁ hready hval
      have hnew : m₁.table f.name = none := hm₁.waiting _ (List.mem_cons_self ..)
      have hle' : m₁.table.Le (Memo.table ((f.name, v) :: m₁)) := Memo.le_cons v hnew
      refine ⟨⟨hm₁.filled.cons hf hnew (computes_iff.2 (hread (.refl _))), fun name hname => ?_⟩,
        hle.trans hle', fun ht => readFrom_eq_ok.2 (ht _ _ (Memo.table_cons_self ..))⟩
      rw [Memo.table_cons_ne m₁ v (by rintro rfl; exact hp hname)]
      exact hm₁.waiting name (List.mem_cons_of_mem _ hname)
    | some w =>
      rw [resolve_eq_of_table _ path hv, Except.ok.injEq, Prod.mk.injEq] at h
      obtain ⟨rfl, rfl⟩ := h
      exact ⟨hm, .refl _, fun ht => readFrom_eq_ok.2 (ht _ _ hv)⟩

/-- What visits in some order leave behind: a filled memo that has all the fields visited. -/
theorem resolveAll_sound {order : List DraftField} (hsub : ∀ f ∈ order, f ∈ d.fields) {m m' : Memo}
    (hm : d.Filled db m) (h : (d.resolveAll db order).run m = .ok ((), m')) :
    d.Filled db m' ∧ m.table.Le m'.table ∧ ∀ f ∈ order, (m'.table f.name).isSome := by
  induction order generalizing m with
  | nil =>
    obtain ⟨-, rfl⟩ := run_pure_eq_ok.1 h
    exact ⟨hm, .refl _, by simp⟩
  | cons f fs ih =>
    obtain ⟨v, m₁, hv, h⟩ := run_bind_eq_ok.1 h
    obtain ⟨hf, hfs⟩ := List.forall_mem_cons.1 hsub
    obtain ⟨hm₁, hle₁, hread⟩ := visit_sound d.fields.length [] m₁.table hf m v m₁ ⟨hm, by simp⟩ hv
    obtain ⟨hm', hle', hall⟩ := ih hfs hm₁.filled h
    have hf' : m'.table f.name = some v := hle' _ _ (readFrom_eq_ok.1 (hread (.refl _)))
    exact ⟨hm', hle₁.trans hle', List.forall_mem_cons.2 ⟨by rw [hf']; rfl, hall⟩⟩

/-! ### Completeness -/

/-- What the evaluation on the left gives, the one on the right gives too from every memo that
agrees with `t`, and it leaves such a memo behind. -/
def supplied (t : Table) : Simulation Unit Memo where
  rel x y := ∀ a, x.run () = .ok (a, ()) → ∀ m : Memo, m.table.Le t →
    ∃ m' : Memo, y.run m = .ok (a, m') ∧ m'.table.Le t
  pure a b h m hm := ⟨m, run_pure_eq_ok.2 ⟨(run_pure_eq_ok.1 h).1, rfl⟩, hm⟩
  throw _ _ h := absurd h run_throw_ne_ok
  bind hx hf b h m hm := by
    obtain ⟨a, ⟨⟩, ha, hb⟩ := run_bind_eq_ok.1 h
    obtain ⟨m₁, hy, hm₁⟩ := hx a ha m hm
    obtain ⟨m', hg, hm'⟩ := hf a b hb m₁ hm₁
    exact ⟨m', run_bind_eq_ok.2 ⟨a, m₁, hy, hg⟩, hm'⟩

/-- A path of fields that wait, on which the depth left for the evaluation is spent. -/
structure Path (d : Draft) (depth : Nat) (path : List String) : Prop where
  nodup : path.Nodup
  fields : ∀ name ∈ path, name ∈ d.fields.map DraftField.name
  depth : d.fields.length ≤ depth + path.length

/-- Depth is left as long as some field does not wait. -/
theorem Path.exists_depth {depth : Nat} {path : List String} (h : d.Path depth path) {f : DraftField}
    (hf : f ∈ d.fields) (hp : f.name ∉ path) : ∃ k, depth = k + 1 := by
  have hsub : f.name :: path ⊆ d.fields.map DraftField.name :=
    List.cons_subset.2 ⟨List.mem_map_of_mem hf, h.fields⟩
  have hlen := (List.subperm_of_subset (List.nodup_cons.2 ⟨hp, h.nodup⟩) hsub).length_le
  rw [List.length_cons, List.length_map] at hlen
  have hdepth := h.depth
  exact Nat.exists_eq_succ_of_ne_zero fun hzero => by omega

theorem Path.nil (d : Draft) : d.Path d.fields.length [] := ⟨.nil, by simp, by simp⟩

theorem Path.cons {depth : Nat} {path : List String} (h : d.Path (depth + 1) path) {f : DraftField}
    (hf : f ∈ d.fields) (hp : f.name ∉ path) : d.Path depth (f.name :: path) where
  nodup := List.nodup_cons.2 ⟨hp, h.nodup⟩
  fields := List.forall_mem_cons.2 ⟨List.mem_map_of_mem hf, h.fields⟩
  depth := by
    have := h.depth
    rw [List.length_cons]
    omega

/-- A field that the filled memo `m₀` holds is visited with success from every memo that agrees
with a table above `m₀`, where the fields that wait are not in `m₀`. -/
theorem visit_complete {m₀ : Memo} (h₀ : d.Filled db m₀) {t : Table} (ht : m₀.table.Le t)
    {depth : Nat} {path : List String} (hpath : d.Path depth path)
    (hwait : ∀ name ∈ path, m₀.table name = none) {f : DraftField} (hf : f ∈ d.fields) :
    (supplied t).rel (readFrom m₀.table f) (d.resolve db depth path f) := by
  induction h₀ generalizing depth path f with
  | nil => exact fun v hv => absurd (readFrom_eq_ok.1 hv) nofun
  | @cons m₀ g w hm₀ hg hnew hw ih =>
    have hle : m₀.table.Le t := (Memo.le_cons w hnew).trans ht
    have hwait₀ : ∀ name ∈ path, m₀.table name = none := fun name hname =>
      Memo.table_eq_none_of_cons hnew (hwait name hname)
    intro v hv m hm
    have hv := readFrom_eq_ok.1 hv
    by_cases hfg : f.name = g.name
    · obtain rfl := eq_of_name_eq hf hg hfg
      obtain rfl : w = v := Option.some.inj ((Memo.table_cons_self m₀ _ w).symm.trans hv)
      have htf : t f.name = some w := ht _ _ hv
      cases hmf : m.table f.name with
      | some u =>
        obtain rfl : u = w := Option.some.inj ((hm _ _ hmf).symm.trans htf)
        exact ⟨m, resolve_eq_of_table depth path hmf, hm⟩
      | none =>
        have hp : f.name ∉ path := fun hp => by
          rw [hwait _ hp] at hv
          cases hv
        obtain ⟨depth, rfl⟩ := hpath.exists_depth hf hp
        obtain ⟨m₁, hval, hm₁⟩ := fieldValue_rel (supplied t) d rfl
          (fun g hg => ih hle (hpath.cons hf hp) (List.forall_mem_cons.2 ⟨hnew, hwait₀⟩) hg)
          f w (computes_iff.1 hw) m hm
        exact ⟨(f.name, w) :: m₁, (resolve_succ_eq_ok hmf).2 ⟨hp, m₁, hval, rfl⟩,
          Memo.cons_le hm₁ htf⟩
    · rw [Memo.table_cons_ne m₀ w hfg] at hv
      exact ih hle hpath hwait₀ hf v (readFrom_eq_ok.2 hv) m hm

theorem resolveAll_complete {m₀ : Memo} (h₀ : d.Filled db m₀) {order : List DraftField}
    (hsub : ∀ f ∈ order, f ∈ d.fields) (hall : ∀ f ∈ order, (m₀.table f.name).isSome) {m : Memo}
    (hm : m.table.Le m₀.table) :
    ∃ m' : Memo, (d.resolveAll db order).run m = .ok ((), m') ∧ m'.table.Le m₀.table := by
  induction order generalizing m with
  | nil => exact ⟨m, rfl, hm⟩
  | cons f fs ih =>
    obtain ⟨hf, hfs⟩ := List.forall_mem_cons.1 hsub
    obtain ⟨hsome, hsomes⟩ := List.forall_mem_cons.1 hall
    obtain ⟨v, hv⟩ := Option.isSome_iff_exists.1 hsome
    obtain ⟨m₁, hval, hm₁⟩ := visit_complete h₀ (.refl _) (.nil d) (by simp) hf v
      (readFrom_eq_ok.2 hv) m hm
    obtain ⟨m', hrest, hm'⟩ := ih hfs hsomes hm₁
    exact ⟨m', run_bind_eq_ok.2 ⟨v, m₁, hval, hrest⟩, hm'⟩

end TypedRecords.Draft
