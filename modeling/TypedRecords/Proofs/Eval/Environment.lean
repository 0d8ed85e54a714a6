import TypedRecords.Expr.Eval

/-!
# Bindings as an environment

Substitution puts what is bound in the place of names, and evaluation then meets fields and defs only.
The bindings can be left in the scope instead, where a bound name is found before a field or a def of
its name. Either way gives every expression one outcome (`substitute_agrees`), also where the form of
an operand matters and not its value alone: a bound name has the width of its type while it is unset, and
as the operator of a dag it is no plain name.
-/

namespace TypedRecords

namespace Scope
variable {σ : Type}

/-- The scope with names bound in it. A bound name has the type and the value of its binding, and hides
a field or a def of the name. -/
def under (bs : Bindings) (s : Scope σ) : Scope σ where
  db := s.db
  field name := ((bs.find? name).map fun b => (b.type, pure b.value)).or (s.field name)

variable (bs : Bindings) (s : Scope σ)

theorem db_under : (s.under bs).db = s.db := rfl

theorem field_under (name : String) :
    (s.under bs).field name =
      ((bs.find? name).map fun b => (b.type, pure b.value)).or (s.field name) := rfl

/-- A name is what it is bound to, else the field of that name, else the def. -/
theorem lookup_under (name : String) (place : Location) :
    (s.under bs).lookup name place =
      match bs.find? name with
      | some b => pure b.value
      | none => s.lookup name place := by
  unfold lookup
  rw [field_under, db_under]
  cases bs.find? name <;> rfl

theorem plainName?_under (name : String) (place : Location) :
    (s.under bs).plainName? (.reference name place) =
      match bs.find? name with
      | some _ => none
      | none => s.plainName? (.reference name place) := by
  cases hb : bs.find? name <;> simp [plainName?, field_under, db_under, hb]

theorem unsetWidth_under (name : String) (place : Location) :
    (s.under bs).unsetWidth (.reference name place) =
      match bs.find? name with
      | some b => s.unsetWidth (.bound none b.type)
      | none => s.unsetWidth (.reference name place) := by
  simp only [unsetWidth, operandType?, field_under]
  cases bs.find? name <;> rfl

/-! ### The form of an operand -/

theorem plainName?_substitute (e : Expr) :
    s.plainName? (e.substitute bs) = (s.under bs).plainName? e := by
  cases e with
  | reference name place =>
    rw [Expr.substitute, plainName?_under]
    cases bs.find? name <;> rfl
  | _ => rw [Expr.substitute]; rfl

/-- An operand that evaluates to `v` stands for the same bits before and after substitution. Its form
matters only where `v` is unset, and a bound name is unset only if it is bound so. -/
theorem operandBits_substitute (place : Location) (e : Expr) (v : Option Value)
    (hv : ∀ name p b, e = .reference name p → bs.find? name = some b → b.value = v) :
    s.operandBits place (e.substitute bs) v = (s.under bs).operandBits place e v := by
  cases v with
  | some v => cases v <;> rfl
  | none =>
    rw [operandBits, operandBits]
    cases e with
    | reference name p =>
      rw [Expr.substitute, unsetWidth_under]
      cases hb : bs.find? name with
      | some b => simp only [hv name p b rfl hb]
      | none => rfl
    | bound value type => cases value <;> rfl
    | _ => rw [Expr.substitute]; rfl

theorem bind_operandBits_substitute {β : Type} (place : Location) (e : Expr)
    (f : Except ParseError (List (Option Bool)) → Eval σ β) :
    (do f (s.operandBits place (e.substitute bs) (← evaluate (s.under bs) e none))) =
      (do f ((s.under bs).operandBits place e (← evaluate (s.under bs) e none))) := by
  by_cases he : ∃ name p b, e = .reference name p ∧ bs.find? name = some b
  · obtain ⟨name, p, b, rfl, hb⟩ := he
    have hvalue : evaluate (s.under bs) (.reference name p) none = pure b.value := by
      simp only [evaluate, lookup_under, hb]
    rw [hvalue, pure_bind, pure_bind, operandBits_substitute]
    rintro _ _ b' ⟨⟩ hb'
    rw [Option.some.inj (hb.symm.trans hb')]
  · refine bind_congr fun v => ?_
    rw [operandBits_substitute]
    exact fun name p b hname hb => absurd ⟨name, p, b, hname, hb⟩ he

end Scope

/-! ### Evaluation -/

section
variable {σ : Type} (bs : Bindings) (s : Scope σ)

mutual

/-- An expression has after substitution the outcome that it has where the names are bound. -/
theorem evaluate_substitute : ∀ (e : Expr) (expected : Option Ty),
    evaluate s (e.substitute bs) expected = evaluate (s.under bs) e expected
  | .unset, _ | .int _, _ | .string _, _ | .code _, _ | .bound _ _, _ => by
    simp only [Expr.substitute, evaluate]
  | .reference name place, _ => by
    rw [Expr.substitute, evaluate.eq_def (s.under bs)]
    dsimp only
    rw [s.lookup_under]
    cases bs.find? name <;> simp only [evaluate]
  | .bits items place, _ => by
    rw [Expr.substitute, evaluate, evaluate, evaluateBits_substitute place items]
  | .list items element place, expected => by
    rw [Expr.substitute, evaluate, evaluate]
    simp only [evaluateItems_substitute place _ items]
    rfl
  | .dag operator args place, _ => by
    rw [Expr.substitute, evaluate, evaluate, s.plainName?_substitute, evaluateArgs_substitute args,
      evaluate_substitute operator none]
  | .bang op args place, _ => by
    rw [Expr.substitute, evaluate, evaluate, evaluateOperands_substitute args]
    rfl

theorem evaluateBits_substitute (place : Location) : ∀ es : List Expr,
    evaluateBits s place (Expr.substituteAll bs es) = evaluateBits (s.under bs) place es
  | [] => by simp only [Expr.substituteAll, evaluateBits]
  | e :: es => by
    rw [Expr.substituteAll, evaluateBits, evaluateBits, evaluateBits_substitute place es,
      evaluate_substitute e none]
    exact s.bind_operandBits_substitute bs place e fun bits => do
      return (← liftM bits) ++ (← evaluateBits (s.under bs) place es)

theorem evaluateItems_substitute (place : Location) (declared : Option Ty) : ∀ es : List Expr,
    evaluateItems s place declared (Expr.substituteAll bs es) =
      evaluateItems (s.under bs) place declared es
  | [] => by simp only [Expr.substituteAll, evaluateItems]
  | e :: es => by
    rw [Expr.substituteAll, evaluateItems, evaluateItems, evaluateItems_substitute place declared es,
      evaluate_substitute e declared]

theorem evaluateArgs_substitute : ∀ as : List (DagArg Expr),
    evaluateArgs s (Expr.substituteArgs bs as) = evaluateArgs (s.under bs) as
  | [] => by simp only [Expr.substituteArgs, evaluateArgs]
  | ⟨name, some e⟩ :: as => by
    rw [Expr.substituteArgs, evaluateArgs, evaluateArgs, evaluateArgs_substitute as,
      evaluate_substitute e none]
  | ⟨name, none⟩ :: as => by
    rw [Expr.substituteArgs, evaluateArgs, evaluateArgs, evaluateArgs_substitute as]

theorem evaluateOperands_substitute : ∀ es : List Expr,
    evaluateOperands s (Expr.substituteAll bs es) = evaluateOperands (s.under bs) es
  | [] => by simp only [Expr.substituteAll, evaluateOperands]
  | e :: es => by
    rw [Expr.substituteAll, evaluateOperands, evaluateOperands, evaluateOperands_substitute es,
      evaluate_substitute e none]

end

/-- Every expression has one outcome, after substitution and in the scope that has the bindings, where a
name is looked up in the bindings, then among the fields and then among the defs. There an unset name has
the width of the type that it is bound or declared with, and a name is plain as the operator of a dag only
if it is neither bound nor a field nor a def. -/
theorem substitute_agrees :
    (∀ (e : Expr) (expected : Option Ty),
      evaluate s (e.substitute bs) expected = evaluate (s.under bs) e expected) ∧
    ∀ (name : String) (place : Location),
      ((s.under bs).lookup name place =
        match bs.find? name, s.field name, s.db.ref? name with
        | some b, _, _ => pure b.value
        | none, some (_, read), _ => read
        | none, none, some ref => pure (some (.record ref))
        | none, none, none => throw ⟨.nameUndefined name, place⟩) ∧
      ((s.under bs).unsetWidth (.reference name place) =
        match ((bs.find? name).map Binding.type).or ((s.field name).map (·.1)) with
        | some (.bits width) => width
        | _ => 1) ∧
      (s.under bs).plainName? (.reference name place) =
        if bs.find? name = none ∧ s.field name = none ∧ s.db.ref? name = none then some name
        else none := by
  refine ⟨evaluate_substitute bs s, fun name place => ⟨?_, ?_, ?_⟩⟩
  · rw [s.lookup_under, Scope.lookup]
    cases bs.find? name with
    | some b => rfl
    | none => cases s.field name <;> cases s.db.ref? name <;> rfl
  · rw [s.unsetWidth_under]
    cases bs.find? name <;> rfl
  · rw [s.plainName?_under]
    cases bs.find? name with
    | some b => simp
    | none => simp [Scope.plainName?]

/-- An unset vector of three bits spans its width in front of a set bit. -/
example (place : Location) :
    evaluateClosed .empty
      ((Expr.bits [.reference "v" place, .int 1] place).substitute [⟨"v", .bits 3, none⟩]) none =
        .ok (some (.bits [some true, none, none, none])) := by
  rfl

end

end TypedRecords
