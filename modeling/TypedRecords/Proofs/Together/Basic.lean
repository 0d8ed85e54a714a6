import TypedRecords.Proofs.Outcome

/-!
# Computations that succeed together

Two computations go `Together` where both fail or both give a result, and the results are related. How
they fail does not matter. This is kept by sequencing, and so it is of evaluations that begin and end in
one state.
-/

namespace TypedRecords

/-- Both computations fail, or both give a result and the results are related. -/
inductive Together {ε α β : Type} (R : α → β → Prop) : Except ε α → Except ε β → Prop
  | ok {a : α} {b : β} (h : R a b) : Together R (.ok a) (.ok b)
  | error (e e' : ε) : Together R (.error e) (.error e')

/-- Related lists have the same images where related elements have. -/
theorem map_eq_of_forall₂ {α β γ : Type} {R : α → β → Prop} {f : α → γ} {g : β → γ} {as : List α}
    {bs : List β} (h : List.Forall₂ R as bs) (hR : ∀ a b, R a b → f a = g b) : as.map f = bs.map g :=
  List.forall₂_eq_eq_eq ▸ List.forall₂_map_left_iff.2 (List.forall₂_map_right_iff.2 (h.imp hR))

namespace Together
variable {ε α β γ δ ι κ : Type} {R : α → β → Prop} {S : γ → δ → Prop} {x : Except ε α}
  {y : Except ε β}

theorem refl {R : α → α → Prop} (h : ∀ a, R a a) (x : Except ε α) : Together R x x := by
  cases x with
  | ok a => exact .ok (h a)
  | error e => exact .error e e

theorem imp {R' : α → β → Prop} (h : Together R x y)
    (himp : ∀ a b, x = .ok a → y = .ok b → R a b → R' a b) : Together R' x y := by
  cases h with
  | ok h => exact .ok (himp _ _ rfl rfl h)
  | error e e' => exact .error e e'

theorem bind {f : α → Except ε γ} {g : β → Except ε δ} (h : Together R x y)
    (hf : ∀ a b, R a b → Together S (f a) (g b)) : Together S (x >>= f) (y >>= g) := by
  cases h with
  | ok h => exact hf _ _ h
  | error e e' => exact .error e e'

theorem map {f : α → γ} {g : β → δ} (h : Together R x y) (hf : ∀ a b, R a b → S (f a) (g b)) :
    Together S (x.map f) (y.map g) := by
  cases h with
  | ok h => exact .ok (hf _ _ h)
  | error e e' => exact .error e e'

theorem exists_right (h : Together R x y) {a : α} (ha : x = .ok a) : ∃ b, y = .ok b ∧ R a b := by
  cases h with
  | ok h => exact ⟨_, rfl, Except.ok.inj ha ▸ h⟩
  | error => cases ha

theorem eq_ok_iff {y : Except ε α} (h : Together Eq x y) {a : α} : x = .ok a ↔ y = .ok a := by
  cases h with
  | ok h => rw [h]
  | error => exact iff_of_false nofun nofun

/-- Each has a result where the other has one, and it is a related one. -/
theorem of_ok (h : ∀ a, x = .ok a → ∃ b, y = .ok b ∧ R a b) (h' : ∀ b, y = .ok b → ∃ a, x = .ok a) :
    Together R x y := by
  cases x with
  | ok a =>
    obtain ⟨b, rfl, hab⟩ := h a rfl
    exact .ok hab
  | error e =>
    cases y with
    | ok b =>
      obtain ⟨a, ha⟩ := h' b rfl
      cases ha
    | error e' => exact .error e e'

theorem trans {T : β → γ → Prop} {U : α → γ → Prop} {z : Except ε γ} (h : Together R x y)
    (h' : Together T y z) (hU : ∀ a b c, R a b → T b c → U a c) : Together U x z := by
  cases h with
  | ok h => cases h' with | ok h' => exact .ok (hU _ _ _ h h')
  | error e e' => cases h' with | error _ e'' => exact .error e e''

theorem toOption_eq {y : Except ε α} (h : Together Eq x y) : x.toOption = y.toOption := by
  cases h with
  | ok h => exact congrArg some h
  | error => rfl

/-- Checks that fail their inputs for the same of them. -/
theorem throwIf {p q : Prop} [Decidable p] [Decidable q] (hpq : p ↔ q) {e e' : ε}
    {f : Unit → Except ε γ} {g : Unit → Except ε δ} (h : ¬p → Together S (f ()) (g ())) :
    Together S (if p then throw e >>= f else f ()) (if q then throw e' >>= g else g ()) := by
  by_cases hp : p
  · rw [if_pos hp, if_pos (hpq.1 hp)]
    exact .error e e'
  · rw [if_neg hp, if_neg fun hq => hp (hpq.2 hq)]
    exact h hp

theorem foldlM {Q : ι → κ → Prop} {is : List ι} {js : List κ} (hij : List.Forall₂ Q is js)
    {f : α → ι → Except ε α} {g : β → κ → Except ε β}
    (h : ∀ i j a b, Q i j → R a b → Together R (f a i) (g b j)) {a : α} {b : β} (hab : R a b) :
    Together R (is.foldlM f a) (js.foldlM g b) := by
  induction hij generalizing a b with
  | nil => exact .ok hab
  | cons hi _ ih =>
    rw [List.foldlM_cons, List.foldlM_cons]
    exact (h _ _ a b hi hab).bind fun a' b' hab' => ih hab'

theorem mapM {Q : ι → κ → Prop} {is : List ι} {js : List κ} (hij : List.Forall₂ Q is js)
    {f : ι → Except ε α} {g : κ → Except ε β} (h : ∀ i j, Q i j → Together R (f i) (g j)) :
    Together (List.Forall₂ R) (is.mapM f) (js.mapM g) := by
  induction hij with
  | nil =>
    rw [List.mapM_nil, List.mapM_nil]
    exact .ok .nil
  | cons hi _ ih =>
    rw [List.mapM_cons, List.mapM_cons]
    exact (h _ _ hi).bind fun a b hab => ih.bind fun as bs has => .ok (.cons hab has)

end Together

/-! ### Evaluations -/

/-- From a state that satisfies `I` the evaluations go together to one result, which satisfies `Q`, and
to one state, which satisfies `I` again. -/
def Parallel {σ α : Type} (I : σ → Prop) (Q : α → Prop) (x y : Eval σ α) : Prop :=
  ∀ s, I s → Together (fun r r' => r = r' ∧ Q r.1 ∧ I r.2) (x.run s) (y.run s)

namespace Parallel
variable {σ α β : Type} {I : σ → Prop} {Q : α → Prop} {S : β → Prop} {x y : Eval σ α}

theorem pure {a : α} (h : Q a) : Parallel I Q (Pure.pure a) (Pure.pure a) :=
  fun _ hs => .ok ⟨rfl, h, hs⟩

theorem throw (e e' : ParseError) :
    Parallel I Q (MonadExcept.throw e : Eval σ α) (MonadExcept.throw e') :=
  fun _ _ => .error e e'

theorem lift {u v : Except ParseError α} (h : Together (fun a b => a = b ∧ Q a) u v) :
    Parallel I Q (liftM u) (liftM v) := by
  intro s hs
  cases h with
  | ok h => exact .ok ⟨Prod.ext h.1 rfl, h.2, hs⟩
  | error e e' => exact .error e e'

theorem bind {f g : α → Eval σ β} (h : Parallel I Q x y) (hf : ∀ a, Q a → Parallel I S (f a) (g a)) :
    Parallel I S (x >>= f) (y >>= g) := by
  intro s hs
  rw [StateT.run_bind, StateT.run_bind]
  exact (h s hs).bind fun r r' ⟨hr, hQ, hI⟩ => hr ▸ hf r.1 hQ r.2 hI

end Parallel
end TypedRecords
