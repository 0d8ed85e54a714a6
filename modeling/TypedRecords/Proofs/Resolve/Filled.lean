import TypedRecords.Proofs.Eval.Simulation
import TypedRecords.Proofs.Outcome

/-!
# Tables of field values

`Draft.Computes` is the equation of one field, read from a table that may have gaps. A memo is
`Filled` if its entries came in one after the other, each computed from the entries before it. A
filled memo satisfies the equation of every field it holds (`Filled.computes`), and every solution of
the field equations agrees with it (`Filled.le_solution`).
-/

namespace TypedRecords

/-- What fields read as, by name; a field may be missing. -/
abbrev Table := String → Option (Option Value)

namespace Table

def Le (s t : Table) : Prop := ∀ name v, s name = some v → t name = some v

theorem Le.refl (t : Table) : Le t t := fun _ _ h => h

theorem Le.trans {s t u : Table} (h : Le s t) (h' : Le t u) : Le s u :=
  fun name v hv => h' name v (h name v hv)

end Table

namespace Memo

def table (m : Memo) : Table := fun name => m.lookup name

theorem table_cons_self (m : Memo) (name : String) (v : Option Value) :
    table ((name, v) :: m) name = some v := by
  simp [table]

theorem table_cons_ne (m : Memo) {name other : String} (v : Option Value) (h : other ≠ name) :
    table ((name, v) :: m) other = m.table other := by
  simp [table, List.lookup_cons, beq_eq_false_iff_ne.2 h]

theorem le_cons {m : Memo} {name : String} (v : Option Value) (h : m.table name = none) :
    m.table.Le (table ((name, v) :: m)) := by
  intro other w hw
  rw [table_cons_ne m v (by rintro rfl; rw [h] at hw; cases hw)]
  exact hw

theorem table_eq_none_of_cons {m : Memo} {name other : String} {v : Option Value}
    (hnew : m.table name = none) (h : table ((name, v) :: m) other = none) : m.table other = none := by
  refine Option.eq_none_iff_forall_ne_some.2 fun w hw => ?_
  rw [le_cons v hnew other w hw] at h
  cases h

theorem cons_le {m : Memo} {name : String} {v : Option Value} {t : Table} (h : m.table.Le t)
    (hv : t name = some v) : (table ((name, v) :: m)).Le t := by
  intro other w hw
  by_cases ho : other = name
  · subst ho
    rw [table_cons_self] at hw
    exact hv.trans hw
  · exact h other w (table_cons_ne m v ho ▸ hw)

end Memo

namespace Draft
variable {d : Draft} {db : Database}

def readFrom (table : Table) (f : DraftField) : Eval Unit (Option Value) :=
  match table f.name with
  | some v => pure v
  | none => throw ⟨.circular f.name, f.place⟩

/-- The equation of a field: its expression, with the fields it names read from the table, evaluates
and converts to `v`. -/
def Computes (d : Draft) (db : Database) (table : Table) (f : DraftField) (v : Option Value) : Prop :=
  (d.fieldValue db (readFrom table) f).run' () = .ok v

theorem computes_iff {table : Table} {f : DraftField} {v : Option Value} :
    d.Computes db table f v ↔ (d.fieldValue db (readFrom table) f).run () = .ok (v, ()) := run'_eq_ok

theorem readFrom_eq_ok {table : Table} {f : DraftField} {v : Option Value} :
    (readFrom table f).run () = .ok (v, ()) ↔ table f.name = some v := by
  unfold readFrom
  cases table f.name with
  | none => exact ⟨nofun, nofun⟩
  | some w => exact run_pure_eq_ok.trans (by simp)

/-- The evaluation on the right gives what the one on the left gives. -/
def growing : Simulation Unit Unit where
  rel x y := ∀ a, x.run () = .ok (a, ()) → y.run () = .ok (a, ())
  pure _ _ h := h
  throw _ _ h := h
  bind hx hf b h := by
    obtain ⟨a, ⟨⟩, ha, hb⟩ := run_bind_eq_ok.1 h
    exact run_bind_eq_ok.2 ⟨a, ⟨⟩, hx a ha, hf a b hb⟩

theorem Computes.mono {s t : Table} (hst : s.Le t) {f : DraftField} {v : Option Value}
    (h : d.Computes db s f v) : d.Computes db t f v :=
  computes_iff.2 <| fieldValue_rel growing d rfl
    (fun g _ w hw => readFrom_eq_ok.2 (hst g.name w (readFrom_eq_ok.1 hw))) f v (computes_iff.1 h)

/-! ### Filled memos -/

/-- The entries came in one after the other, each computed from the entries before it. -/
inductive Filled (d : Draft) (db : Database) : Memo → Prop
  | nil : Filled d db []
  | cons {m : Memo} {f : DraftField} {v : Option Value} (hm : Filled d db m) (hf : f ∈ d.fields)
      (hnew : m.table f.name = none) (hv : d.Computes db m.table f v) :
      Filled d db ((f.name, v) :: m)

namespace Filled
variable {m : Memo}

theorem computes (h : d.Filled db m) {f : DraftField} (hf : f ∈ d.fields) {v : Option Value}
    (hv : m.table f.name = some v) : d.Computes db m.table f v := by
  induction h with
  | nil => cases hv
  | @cons m g w _ hg hnew hw ih =>
    by_cases hfg : f.name = g.name
    · obtain rfl := eq_of_name_eq hf hg hfg
      rw [Memo.table_cons_self] at hv
      exact Option.some.inj hv ▸ hw.mono (Memo.le_cons w hnew)
    · rw [Memo.table_cons_ne m w hfg] at hv
      exact (ih hv).mono (Memo.le_cons w hnew)

theorem le_solution (h : d.Filled db m) {t : String → Option Value}
    (ht : ∀ f ∈ d.fields, d.Computes db (fun name => some (t name)) f (t f.name)) :
    m.table.Le fun name => some (t name) := by
  induction h with
  | nil => intro _ _ hv; cases hv
  | @cons m f v hm hf hnew hv ih =>
    refine Memo.cons_le ih ?_
    have heq : (Except.ok (t f.name) : Except ParseError _) = .ok v :=
      (ht f hf).symm.trans (hv.mono ih)
    exact congrArg some (Except.ok.inj heq)

end Filled
end Draft
end TypedRecords
