import TypedRecords.Draft.Resolve
import TypedRecords.Proofs.Draft.Fields
import TypedRecords.Proofs.Eval.Outline

/-!
# Two evaluations side by side

The evaluator does nothing with the state of a scope but read fields. So whatever relation between
two evaluations is kept by returning, failing and sequencing is kept by the evaluation of every
expression, once the two scopes read each field in related ways (`Simulation.evaluate`). The memo,
a fixed table of values and a table with gaps are compared through such relations.
-/

namespace TypedRecords

/-- A relation between evaluations over two states that returning, failing and sequencing keep. -/
structure Simulation (σ τ : Type) where
  rel : ∀ {α : Type}, Eval σ α → Eval τ α → Prop
  pure : ∀ {α : Type} (a : α), rel (Pure.pure a) (Pure.pure a)
  throw : ∀ {α : Type} (e : ParseError), rel (α := α) (MonadExcept.throw e) (MonadExcept.throw e)
  bind : ∀ {α β : Type} {x : Eval σ α} {y : Eval τ α} {f : α → Eval σ β} {g : α → Eval τ β},
    rel x y → (∀ a, rel (f a) (g a)) → rel (x >>= f) (y >>= g)

namespace Simulation
variable {σ τ : Type} (R : Simulation σ τ)

theorem lift {α : Type} (x : Except ParseError α) : R.rel (liftM x) (liftM x) := by
  cases x with
  | ok a => exact R.pure a
  | error e => exact R.throw e

/-- Two scopes over defs of one outline with the same fields, which are read in related ways. -/
structure Scopes (s : Scope σ) (t : Scope τ) : Prop where
  outline : s.db.defs.outline = t.db.defs.outline
  field : ∀ name, (s.field name = none ∧ t.field name = none) ∨
    ∃ type x y, s.field name = some (type, x) ∧ t.field name = some (type, y) ∧ R.rel x y

namespace Scopes
variable {R} {s : Scope σ} {t : Scope τ}

theorem ref? (h : R.Scopes s t) (name : String) : s.db.ref? name = t.db.ref? name :=
  Database.ref?_congr h.outline name

theorem makeList (h : R.Scopes s t) (declared : Option Ty) (place : Location) (values : List Value) :
    makeList s.db.store declared place values = makeList t.db.store declared place values := by
  rw [← makeList_outline, Database.store_congr h.outline, makeList_outline]

theorem apply (h : R.Scopes s t) (op : Bang) (place : Location) (values : List Value) :
    op.apply s.db.store place values = op.apply t.db.store place values := by
  rw [← Bang.apply_outline, Database.store_congr h.outline, Bang.apply_outline]

theorem lookup (h : R.Scopes s t) (name : String) (place : Location) :
    R.rel (s.lookup name place) (t.lookup name place) := by
  unfold Scope.lookup
  rcases h.field name with ⟨hs, ht⟩ | ⟨type, x, y, hs, ht, hxy⟩
  · rw [hs, ht, h.ref?]
    dsimp only
    split
    · exact R.pure _
    · exact R.throw _
  · rw [hs, ht]
    exact hxy

theorem plainName? (h : R.Scopes s t) (e : Expr) : s.plainName? e = t.plainName? e := by
  cases e with
  | reference name place =>
    rcases h.field name with ⟨hs, ht⟩ | ⟨type, x, y, hs, ht, -⟩
    · simp only [Scope.plainName?, hs, ht, h.ref?, Option.isNone_none]
    · simp only [Scope.plainName?, hs, ht, Option.isNone_some, Bool.false_and]
  | _ => rfl

theorem operandType? (h : R.Scopes s t) (e : Expr) : s.operandType? e = t.operandType? e := by
  cases e with
  | reference name place =>
    rcases h.field name with ⟨hs, ht⟩ | ⟨type, x, y, hs, ht, -⟩
    · simp only [Scope.operandType?, hs, ht, Option.map_none]
    · simp only [Scope.operandType?, hs, ht, Option.map_some]
  | bound value type => cases value <;> rfl
  | _ => rfl

theorem operandBits (h : R.Scopes s t) (place : Location) (e : Expr) (v : Option Value) :
    s.operandBits place e v = t.operandBits place e v := by
  cases v with
  | none => simp only [Scope.operandBits, Scope.unsetWidth, h.operandType?]
  | some v => cases v <;> rfl

end Scopes

variable {s : Scope σ} {t : Scope τ}

mutual

/-- Expressions evaluate in related ways where fields are read in related ways. -/
theorem evaluate (h : R.Scopes s t) :
    ∀ (e : Expr) (expected : Option Ty), R.rel (evaluate s e expected) (evaluate t e expected)
  | .unset, _ | .int _, _ | .string _, _ | .code _, _ | .bound _ _, _ => by
    rw [TypedRecords.evaluate, TypedRecords.evaluate]
    exact R.pure _
  | .reference name place, _ => by
    rw [TypedRecords.evaluate, TypedRecords.evaluate]
    exact h.lookup name place
  | .bits items place, _ => by
    rw [TypedRecords.evaluate, TypedRecords.evaluate]
    exact R.bind (evaluateBits h place items) fun _ => R.pure _
  | .list items element place, expected => by
    rw [TypedRecords.evaluate, TypedRecords.evaluate]
    refine R.bind (evaluateItems h place _ items) fun values => ?_
    rw [h.makeList]
    exact R.bind (R.lift _) fun _ => R.pure _
  | .dag operator args place, _ => by
    rw [TypedRecords.evaluate, TypedRecords.evaluate, h.plainName?]
    have rest : ∀ op, R.rel (do return some (Value.dag op (← TypedRecords.evaluateArgs s args)))
        (do return some (Value.dag op (← TypedRecords.evaluateArgs t args))) :=
      fun _ => R.bind (evaluateArgs h args) fun _ => R.pure _
    dsimp only
    split
    · exact R.bind (R.pure _) rest
    · exact R.bind (evaluate h operator none) fun _ => R.bind (R.lift _) rest
  | .bang op args place, _ => by
    rw [TypedRecords.evaluate, TypedRecords.evaluate]
    refine R.bind (evaluateOperands h args) fun values => ?_
    cases values with
    | none => exact R.pure _
    | some values =>
      dsimp only
      rw [h.apply]
      exact R.bind (R.lift _) fun _ => R.pure _

theorem evaluateBits (h : R.Scopes s t) (place : Location) :
    ∀ es : List Expr, R.rel (evaluateBits s place es) (evaluateBits t place es)
  | [] => R.pure _
  | e :: es => by
    rw [TypedRecords.evaluateBits, TypedRecords.evaluateBits]
    refine R.bind (evaluate h e none) fun v => ?_
    rw [h.operandBits]
    exact R.bind (R.lift _) fun _ => R.bind (evaluateBits h place es) fun _ => R.pure _

theorem evaluateItems (h : R.Scopes s t) (place : Location) (declared : Option Ty) :
    ∀ es : List Expr, R.rel (evaluateItems s place declared es) (evaluateItems t place declared es)
  | [] => R.pure _
  | e :: es => by
    rw [TypedRecords.evaluateItems, TypedRecords.evaluateItems]
    refine R.bind (evaluate h e declared) fun v => ?_
    cases v with
    | none => exact R.throw _
    | some v => exact R.bind (evaluateItems h place declared es) fun _ => R.pure _

theorem evaluateArgs (h : R.Scopes s t) :
    ∀ as : List (DagArg Expr), R.rel (evaluateArgs s as) (evaluateArgs t as)
  | [] => R.pure _
  | ⟨name, some e⟩ :: as => by
    rw [TypedRecords.evaluateArgs, TypedRecords.evaluateArgs]
    exact R.bind (evaluate h e none) fun _ => R.bind (evaluateArgs h as) fun _ => R.pure _
  | ⟨name, none⟩ :: as => by
    rw [TypedRecords.evaluateArgs, TypedRecords.evaluateArgs]
    exact R.bind (evaluateArgs h as) fun _ => R.pure _

theorem evaluateOperands (h : R.Scopes s t) :
    ∀ es : List Expr, R.rel (evaluateOperands s es) (evaluateOperands t es)
  | [] => R.pure _
  | e :: es => by
    rw [TypedRecords.evaluateOperands, TypedRecords.evaluateOperands]
    refine R.bind (evaluate h e none) fun v => ?_
    cases v with
    | none => exact R.pure _
    | some v => exact R.bind (evaluateOperands h es) fun _ => R.pure _

end

end Simulation

namespace Draft
variable {σ τ : Type} (R : Simulation σ τ) (d : Draft) {db db' : Database}
  {x : DraftField → Eval σ (Option Value)} {y : DraftField → Eval τ (Option Value)}

theorem scope_scopes (hdb : db.defs.outline = db'.defs.outline) (h : ∀ f ∈ d.fields, R.rel (x f) (y f)) :
    R.Scopes (d.scope db x) (d.scope db' y) where
  outline := hdb
  field name := by
    cases hf : d.field? name with
    | none => exact .inl (by simp [scope, hf])
    | some f =>
      exact .inr ⟨f.type, x f, y f, by simp [scope, hf], by simp [scope, hf], h f (mem_of_field? hf).1⟩

theorem fieldValue_rel (hdb : db.defs.outline = db'.defs.outline) (h : ∀ f ∈ d.fields, R.rel (x f) (y f))
    (f : DraftField) : R.rel (d.fieldValue db x f) (d.fieldValue db' y f) := by
  refine R.bind (R.evaluate (scope_scopes R d hdb h) f.value (some f.type)) fun v => ?_
  rw [← assign_outline, Database.store_congr hdb, assign_outline]
  exact R.lift _

end Draft
end TypedRecords
