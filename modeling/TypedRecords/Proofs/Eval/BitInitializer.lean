import TypedRecords.Proofs.Outcome

/-!
# Bit initializers

A bit initializer is the concatenation of its operands, each most significant bit first
(`evaluate_bits_eq_ok`). An initializer among the operands may as well be written out in its place: what
counts are the `operands` that are no initializers themselves (`evaluate_bits_congr`).
-/

namespace TypedRecords

/-! ### Operands -/

namespace Expr

mutual

/-- The operands that an expression stands for where it is one itself: those of an initializer, and the
expression alone otherwise. -/
def operands : Expr → List Expr
  | bits items _ => operandsAll items
  | e => [e]

def operandsAll : List Expr → List Expr
  | [] => []
  | e :: es => e.operands ++ operandsAll es

end

end Expr

namespace Scope
variable {σ : Type} (s : Scope σ)

/-- The bits, most significant first, that the operand `e` stands for where it has the value. -/
inductive Row (e : Expr) : Option Value → List (Option Bool) → Prop
  | unset : Row e none (List.replicate (s.unsetWidth e) none)
  | bit (b : Bool) : Row e (some (.bit b)) [some b]
  | int (b : Bool) : Row e (some (.int (if b then 1 else 0))) [some b]
  | bits (lsbFirst : List (Option Bool)) : Row e (some (.bits lsbFirst)) lsbFirst.reverse

/-- The operands are evaluated one after the other, and stand for the rows. -/
inductive Operands : List Expr → σ → List (List (Option Bool)) → σ → Prop
  | nil (st : σ) : Operands [] st [] st
  | cons {e : Expr} {es : List Expr} {v : Option Value} {row : List (Option Bool)}
      {rows : List (List (Option Bool))} {st st₁ st' : σ}
      (he : (evaluate s e none).run st = .ok (v, st₁)) (hrow : s.Row e v row)
      (hes : Operands es st₁ rows st') : Operands (e :: es) st (row :: rows) st'

variable {s}

theorem operandBits_eq_ok {place : Location} {e : Expr} {v : Option Value}
    {row : List (Option Bool)} : s.operandBits place e v = .ok row ↔ s.Row e v row := by
  constructor
  · intro h
    cases v with
    | none => exact Except.ok.inj h ▸ .unset
    | some v =>
      cases v with
      | bit b => exact Except.ok.inj h ▸ .bit b
      | bits lsbFirst => exact Except.ok.inj h ▸ .bits lsbFirst
      | int number =>
        rw [operandBits] at h
        split at h
        · rename_i hzero
          exact hzero ▸ Except.ok.inj h ▸ .int false
        · split at h
          · rename_i hone
            exact hone ▸ Except.ok.inj h ▸ .int true
          · cases h
      | _ => cases h
  · intro h
    cases h with
    | int b => cases b <;> rfl
    | _ => rfl

end Scope

/-! ### Concatenation -/

section
variable {σ : Type} {s : Scope σ}

theorem evaluateBits_eq_ok {place : Location} {es : List Expr} {st st' : σ}
    {msbFirst : List (Option Bool)} :
    (evaluateBits s place es).run st = .ok (msbFirst, st') ↔
      ∃ rows, s.Operands es st rows st' ∧ msbFirst = rows.flatten := by
  induction es generalizing st msbFirst with
  | nil =>
    rw [evaluateBits, run_pure_eq_ok]
    constructor
    · rintro ⟨rfl, rfl⟩
      exact ⟨[], .nil st, rfl⟩
    · rintro ⟨_, ⟨⟩, rfl⟩
      exact ⟨rfl, rfl⟩
  | cons e es ih =>
    rw [evaluateBits]
    constructor
    · intro h
      obtain ⟨v, st₁, hv, h⟩ := run_bind_eq_ok.1 h
      obtain ⟨row, st₂, hlift, h⟩ := run_bind_eq_ok.1 h
      obtain ⟨hrow, rfl⟩ := run_lift_eq_ok.1 hlift
      obtain ⟨rest, st₃, hrest, h⟩ := run_bind_eq_ok.1 h
      obtain ⟨rfl, rfl⟩ := run_pure_eq_ok.1 h
      obtain ⟨rows, hrows, rfl⟩ := ih.1 hrest
      exact ⟨row :: rows, .cons hv (Scope.operandBits_eq_ok.1 hrow) hrows, rfl⟩
    · rintro ⟨_, @⟨⟩ | @⟨_, _, v, row, rows, _, st₁, _, hv, hrow, hrows⟩, rfl⟩
      exact run_bind_eq_ok.2 ⟨v, st₁, hv, run_bind_eq_ok.2 ⟨row, st₁,
        run_lift_eq_ok.2 ⟨Scope.operandBits_eq_ok.2 hrow, rfl⟩,
        run_bind_eq_ok.2 ⟨rows.flatten, st', ih.2 ⟨rows, hrows, rfl⟩, rfl⟩⟩⟩

/-- An initializer has a value where its operands stand for rows of bits, and the value is their
concatenation. -/
theorem evaluate_bits_eq_ok {items : List Expr} {place : Location} {expected : Option Ty} {st st' : σ}
    {v : Option Value} :
    (evaluate s (.bits items place) expected).run st = .ok (v, st') ↔
      ∃ lsbFirst rows, v = some (.bits lsbFirst) ∧ s.Operands items st rows st' ∧
        lsbFirst.reverse = rows.flatten := by
  rw [evaluate, run_bind_eq_ok]
  constructor
  · rintro ⟨msbFirst, st₁, hbits, h⟩
    obtain ⟨rfl, rfl⟩ := run_pure_eq_ok.1 h
    obtain ⟨rows, hrows, rfl⟩ := evaluateBits_eq_ok.1 hbits
    exact ⟨_, rows, rfl, hrows, List.reverse_reverse _⟩
  · rintro ⟨lsbFirst, rows, rfl, hrows, hflat⟩
    refine ⟨rows.flatten, st', evaluateBits_eq_ok.2 ⟨rows, hrows, rfl⟩, ?_⟩
    rw [← hflat, List.reverse_reverse]
    rfl

/-! ### Initializers among the operands -/

/-- From every state, what one of the evaluations comes to is what the other comes to. How they fail does
not matter. -/
def SameRuns {α : Type} (x y : Eval σ α) : Prop := ∀ st r, x.run st = .ok r ↔ y.run st = .ok r

namespace SameRuns
variable {α β : Type} {x y z : Eval σ α}

theorem refl (x : Eval σ α) : SameRuns x x := fun _ _ => .rfl

theorem symm (h : SameRuns x y) : SameRuns y x := fun st r => (h st r).symm

theorem trans (h : SameRuns x y) (h' : SameRuns y z) : SameRuns x z :=
  fun st r => (h st r).trans (h' st r)

theorem lift {u v : Except ParseError α} (h : ∀ a, u = .ok a ↔ v = .ok a) :
    SameRuns (liftM u : Eval σ α) (liftM v) := by
  rintro st ⟨a, st'⟩
  rw [run_lift_eq_ok, run_lift_eq_ok, h]

theorem bind {f g : α → Eval σ β} (h : SameRuns x y) (hf : ∀ a, SameRuns (f a) (g a)) :
    SameRuns (x >>= f) (y >>= g) := by
  intro st r
  rw [run_bind_eq_ok, run_bind_eq_ok]
  exact exists_congr fun a => exists_congr fun st₁ => and_congr (h st _) (hf a st₁ r)

end SameRuns

theorem evaluateBits_append (s : Scope σ) (place : Location) (es es' : List Expr) :
    evaluateBits s place (es ++ es') = (do
      let bits ← evaluateBits s place es
      return bits ++ (← evaluateBits s place es')) := by
  induction es with
  | nil => simp [evaluateBits]
  | cons e es ih =>
    simp only [List.cons_append, evaluateBits, ih, bind_assoc, pure_bind, List.append_assoc]

/-- The bits of one operand. -/
def operandRow (s : Scope σ) (place : Location) (e : Expr) : Eval σ (List (Option Bool)) := do
  s.operandBits place e (← evaluate s e none)

theorem evaluateBits_cons (s : Scope σ) (place : Location) (e : Expr) (es : List Expr) :
    evaluateBits s place (e :: es) = (do
      let bits ← operandRow s place e
      return bits ++ (← evaluateBits s place es)) := by
  simp [evaluateBits, operandRow]

theorem operandRow_bits (s : Scope σ) (place p : Location) (items : List Expr) :
    operandRow s place (.bits items p) = evaluateBits s p items := by
  have hbits : ∀ msbFirst : List (Option Bool),
      (liftM (s.operandBits place (.bits items p) (some (.bits msbFirst.reverse))) :
        Eval σ (List (Option Bool))) = pure msbFirst := fun msbFirst => by
    rw [Scope.operandBits, List.reverse_reverse]
    rfl
  simp only [operandRow, evaluate, bind_assoc, pure_bind, hbits, bind_pure]

/-- Where an operand is written matters only if it stands for no bits. -/
theorem operandRow_elsewhere (s : Scope σ) (place place' : Location) (e : Expr) :
    SameRuns (operandRow s place e) (evaluateBits s place' [e]) := by
  simp only [operandRow, evaluateBits, pure_bind, List.append_nil, bind_pure]
  exact (SameRuns.refl _).bind fun v => .lift fun row =>
    Scope.operandBits_eq_ok.trans Scope.operandBits_eq_ok.symm

mutual

theorem operandRow_same (s : Scope σ) (place place' : Location) :
    ∀ e : Expr, SameRuns (operandRow s place e) (evaluateBits s place' e.operands)
  | .bits items p => by
    rw [operandRow_bits, Expr.operands]
    exact evaluateBits_same s p place' items
  | .unset | .int _ | .string _ | .code _ | .list .. | .dag .. | .bang .. | .reference .. | .bound .. =>
    operandRow_elsewhere s place place' _

theorem evaluateBits_same (s : Scope σ) (place place' : Location) :
    ∀ es : List Expr, SameRuns (evaluateBits s place es) (evaluateBits s place' (Expr.operandsAll es))
  | [] => .refl _
  | e :: es => by
    rw [Expr.operandsAll, evaluateBits_append, evaluateBits_cons]
    exact (operandRow_same s place place' e).bind fun bits =>
      (evaluateBits_same s place place' es).bind fun _ => .refl _

end

/-- Initializers with the same operands, once those among them are written out, have the same value. -/
theorem evaluate_bits_congr {items items' : List Expr}
    (h : Expr.operandsAll items = Expr.operandsAll items') (place place' : Location)
    (expected expected' : Option Ty) :
    SameRuns (evaluate s (.bits items place) expected) (evaluate s (.bits items' place') expected') := by
  have hbits : SameRuns (evaluateBits s place items) (evaluateBits s place' items') :=
    (evaluateBits_same s place place items).trans (h ▸ (evaluateBits_same s place' place items').symm)
  rw [evaluate, evaluate]
  exact hbits.bind fun _ => .refl _

end
end TypedRecords
