import Mathlib.Data.List.Forall2
import TypedRecords.Expr.Eval

/-!
# Successful outcomes

What a computation that can fail must have done where it gave a result. A sequence that succeeds is
peeled apart with these, one step after the other.
-/

namespace TypedRecords

section
variable {ε α β : Type}

theorem bind_eq_ok {x : Except ε α} {f : α → Except ε β} {b : β} :
    x >>= f = .ok b ↔ ∃ a, x = .ok a ∧ f a = .ok b := by
  cases x with
  | ok a => exact ⟨fun h => ⟨a, rfl, h⟩, fun ⟨_, ha, h⟩ => by cases ha; exact h⟩
  | error e => exact ⟨nofun, fun ⟨_, h, _⟩ => nomatch h⟩

theorem bind_of_ok {x : Except ε α} {a : α} (h : x = .ok a) (f : α → Except ε β) :
    x >>= f = f a := by
  rw [h]
  rfl

theorem bind_of_error {x : Except ε α} {e : ε} (h : x = .error e) (f : α → Except ε β) :
    x >>= f = .error e := by
  rw [h]
  rfl

theorem bind_congr_ok {x : Except ε α} {f g : α → Except ε β} (h : ∀ a, x = .ok a → f a = g a) :
    x >>= f = x >>= g := by
  cases x with
  | ok a => exact h a rfl
  | error e => rfl

theorem map_eq_ok {x : Except ε α} {f : α → β} {b : β} :
    x.map f = .ok b ↔ ∃ a, x = .ok a ∧ f a = b := by
  cases x with
  | ok a => simp [Except.map]
  | error e => simp [Except.map]

theorem mapError_eq_ok {ε' : Type} {x : Except ε α} {f : ε → ε'} {a : α} :
    x.mapError f = .ok a ↔ x = .ok a := by
  cases x with
  | ok a' => exact ⟨fun h => congrArg _ (Except.ok.inj h), fun h => congrArg _ (Except.ok.inj h)⟩
  | error e => exact ⟨nofun, nofun⟩

theorem pure_eq_ok {a b : α} : (pure a : Except ε α) = .ok b ↔ a = b := by
  simp [pure, Except.pure]

theorem ok_of_toOption {x : Except ε α} {a : α} (h : x.toOption = some a) : x = .ok a := by
  cases x with
  | ok a' => exact congrArg _ (Option.some.inj h)
  | error e => cases h

/-- What is known of a result is known of an outcome that gave one. -/
theorem ok_of_toOption_map {x : Except ε α} {f : α → β} {b : β} (h : x.toOption.map f = some b) :
    ∃ a, x = .ok a ∧ f a = b := by
  obtain ⟨a, ha, hf⟩ := Option.map_eq_some_iff.1 h
  exact ⟨a, ok_of_toOption ha, hf⟩

theorem toOption_bind (x : Except ε α) (f : α → Except ε β) :
    (x >>= f).toOption = x.toOption.bind fun a => (f a).toOption := by
  cases x <;> rfl

/-- A check that fails its input goes on only where the check does not apply. -/
theorem throwIf_bind_eq_ok {p : Prop} [Decidable p] {e : ε} {f : Unit → Except ε β} {b : β} :
    (if p then throw e >>= f else f ()) = .ok b ↔ ¬p ∧ f () = .ok b := by
  by_cases hp : p
  · rw [if_pos hp]
    exact ⟨nofun, fun h => absurd hp h.1⟩
  · rw [if_neg hp]
    exact ⟨fun h => ⟨hp, h⟩, fun h => h.2⟩

theorem foldlM_nil_eq_ok {f : β → α → Except ε β} {b c : β} :
    [].foldlM f b = .ok c ↔ b = c := pure_eq_ok

theorem foldlM_cons_eq_ok {f : β → α → Except ε β} {a : α} {as : List α} {b c : β} :
    (a :: as).foldlM f b = .ok c ↔ ∃ b₁, f b a = .ok b₁ ∧ as.foldlM f b₁ = .ok c := by
  rw [List.foldlM_cons, bind_eq_ok]

theorem foldlM_append_eq_ok {f : β → α → Except ε β} {as as' : List α} {b c : β} :
    (as ++ as').foldlM f b = .ok c ↔ ∃ b₁, as.foldlM f b = .ok b₁ ∧ as'.foldlM f b₁ = .ok c := by
  rw [List.foldlM_append, bind_eq_ok]

theorem mapM_eq_ok {f : α → Except ε β} {as : List α} {bs : List β} :
    as.mapM f = .ok bs ↔ List.Forall₂ (fun a b => f a = .ok b) as bs := by
  induction as generalizing bs with
  | nil =>
    rw [List.mapM_nil, pure_eq_ok, List.forall₂_nil_left_iff, eq_comm]
  | cons a as ih =>
    rw [List.mapM_cons, bind_eq_ok, List.forall₂_cons_left_iff]
    refine exists_congr fun b => ?_
    rw [bind_eq_ok]
    constructor
    · rintro ⟨hb, bs', hbs', h⟩
      exact ⟨bs', hb, ih.1 hbs', (pure_eq_ok.1 h).symm⟩
    · rintro ⟨bs', hb, hbs', rfl⟩
      exact ⟨hb, bs', ih.2 hbs', rfl⟩

theorem mapM_append_eq_ok {f : α → Except ε β} {as as' : List α} {bs : List β} :
    (as ++ as').mapM f = .ok bs ↔
      ∃ cs cs', as.mapM f = .ok cs ∧ as'.mapM f = .ok cs' ∧ cs ++ cs' = bs := by
  rw [List.mapM_append, bind_eq_ok]
  refine exists_congr fun cs => ?_
  rw [bind_eq_ok]
  constructor
  · rintro ⟨hcs, cs', hcs', h⟩
    exact ⟨cs', hcs, hcs', pure_eq_ok.1 h⟩
  · rintro ⟨cs', hcs, hcs', rfl⟩
    exact ⟨hcs, cs', hcs', rfl⟩

theorem mem_of_mapM_eq_ok {f : α → Except ε β} {as : List α} {bs : List β}
    (h : as.mapM f = .ok bs) : ∀ b ∈ bs, ∃ a ∈ as, f a = .ok b := by
  intro b hb
  obtain ⟨i, hi, rfl⟩ := List.getElem_of_mem hb
  have hall := mapM_eq_ok.1 h
  have hi' : i < as.length := hall.length_eq ▸ hi
  exact ⟨as[i], List.getElem_mem hi', hall.get hi' hi⟩

end

section
variable {σ α β : Type}

theorem run_bind_eq_ok {x : Eval σ α} {f : α → Eval σ β} {s : σ} {r : β × σ} :
    (x >>= f).run s = .ok r ↔ ∃ a s', x.run s = .ok (a, s') ∧ (f a).run s' = .ok r := by
  rw [StateT.run_bind, bind_eq_ok]
  exact ⟨fun ⟨p, hx, hf⟩ => ⟨p.1, p.2, hx, hf⟩, fun ⟨a, s', hx, hf⟩ => ⟨(a, s'), hx, hf⟩⟩

theorem run_pure_eq_ok {a b : α} {s t : σ} :
    (pure a : Eval σ α).run s = .ok (b, t) ↔ a = b ∧ s = t := by
  rw [StateT.run_pure, pure_eq_ok, Prod.mk.injEq]

theorem run_throw_ne_ok {e : ParseError} {s : σ} {r : α × σ} :
    (throw e : Eval σ α).run s ≠ .ok r := nofun

theorem run_lift_eq_ok {x : Except ParseError α} {a : α} {s t : σ} :
    (liftM x : Eval σ α).run s = .ok (a, t) ↔ x = .ok a ∧ s = t := by
  cases x with
  | ok b => exact run_pure_eq_ok.trans (by rw [Except.ok.injEq])
  | error e => exact ⟨nofun, fun h => nomatch h.1⟩

theorem run'_eq_ok {x : Eval Unit α} {a : α} : x.run' () = .ok a ↔ x.run () = .ok (a, ()) := by
  rw [StateT.run'_eq]
  exact map_eq_ok.trans ⟨fun ⟨⟨_, ()⟩, h, ha⟩ => ha ▸ h, fun h => ⟨_, h, rfl⟩⟩

end
end TypedRecords
