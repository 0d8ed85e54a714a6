import TypedRecords.Proofs.Eval.Ensures
import TypedRecords.Proofs.Unset.Order

/-!
# Computations on values with parts left unset

A computation on values that are below others does what the computation on the others does, with a
result below, or fails with an error of a given kind. `Follows` says this of two computations and is
kept by sequencing; the forming of lists, of dags and of bit vectors and the operations satisfy it,
and fail only where something is needed that the values above have.
-/

namespace TypedRecords

/-- Where the second computation gives a result, the first gives a related one or fails with one of
the errors `N`. -/
def Follows {α β : Type} (N : ParseError → Prop) (R : α → β → Prop) (x : Except ParseError α)
    (y : Except ParseError β) : Prop :=
  ∀ b, y = .ok b → (∃ a, x = .ok a ∧ R a b) ∨ ∃ e, x = .error e ∧ N e

namespace Follows
variable {α β γ δ : Type} {N : ParseError → Prop} {R : α → β → Prop} {S : γ → δ → Prop}
  {x : Except ParseError α} {y : Except ParseError β}

theorem ok {a : α} {b : β} (h : R a b) : Follows N R (.ok a) (.ok b) := by
  intro b' hb
  exact .inl ⟨a, rfl, Except.ok.inj hb ▸ h⟩

theorem error (x : Except ParseError α) (e : ParseError) : Follows N R x (.error e) := nofun

/-- Where the first computation gives its result at once, it is below whatever the second gives. -/
theorem ok_left {a : α} (h : ∀ b, y = .ok b → R a b) : Follows N R (.ok a) y :=
  fun b hb => .inl ⟨a, rfl, h b hb⟩

theorem error_left {e : ParseError} (h : ∀ b, y = .ok b → N e) : Follows N R (.error e) y :=
  fun b hb => .inr ⟨e, rfl, h b hb⟩

theorem bind {f : α → Except ParseError γ} {g : β → Except ParseError δ} (hx : Follows N R x y)
    (hf : ∀ a b, R a b → x = .ok a → y = .ok b → Follows N S (f a) (g b)) :
    Follows N S (x >>= f) (y >>= g) := by
  intro d hd
  obtain ⟨b, hb, hd⟩ := bind_eq_ok.1 hd
  rcases hx b hb with ⟨a, rfl, hab⟩ | ⟨e, rfl, he⟩
  · exact hf a b hab rfl hb d hd
  · exact .inr ⟨e, rfl, he⟩

theorem map {f : α → γ} {g : β → δ} (hx : Follows N R x y) (hf : ∀ a b, R a b → S (f a) (g b)) :
    Follows N S (x.map f) (y.map g) := by
  intro d hd
  obtain ⟨b, hb, rfl⟩ := map_eq_ok.1 hd
  rcases hx b hb with ⟨a, rfl, hab⟩ | ⟨e, rfl, he⟩
  · exact .inl ⟨f a, rfl, hf a b hab⟩
  · exact .inr ⟨e, rfl, he⟩

theorem mono {R' : α → β → Prop} (hx : Follows N R x y)
    (hR : ∀ a b, R a b → x = .ok a → y = .ok b → R' a b) : Follows N R' x y := by
  intro b hb
  rcases hx b hb with ⟨a, ha, hab⟩ | he
  · exact .inl ⟨a, ha, hR a b hab ha hb⟩
  · exact .inr he

theorem foldlM {ι : Type} {f : α → ι → Except ParseError α} {g : β → ι → Except ParseError β}
    {is : List ι} (h : ∀ i ∈ is, ∀ a b, R a b → Follows N R (f a i) (g b i)) {a : α} {b : β}
    (hab : R a b) : Follows N R (is.foldlM f a) (is.foldlM g b) := by
  induction is generalizing a b with
  | nil => exact .ok hab
  | cons i is ih =>
    obtain ⟨hi, his⟩ := List.forall_mem_cons.1 h
    rw [List.foldlM_cons, List.foldlM_cons]
    exact (hi a b hab).bind fun a' b' hab' _ _ => ih his hab'

end Follows

/-! ### Forming values -/

section
variable {store : Store} {place : Location} {vs ws : List Value} {N : ParseError → Prop}
  {P : Value → Value → Prop}

/-- The first value is the second one with parts left unset, and the two satisfy `P`. -/
def Value.LeAnd (P : Value → Value → Prop) (v w : Value) : Prop := v.Le w ∧ P v w

theorem convertElements_follows (h : List.Forall₂ (Value.LeAnd P) vs ws) {element : Ty}
    (hN : ∀ v w, P v w → v.Lacks element w →
      N ⟨.elementIncompatible (v.type store) element, place⟩) :
    Follows N (List.Forall₂ Value.Le) (convertElements store element place vs)
      (convertElements store element place ws) := by
  induction h with
  | nil => exact .ok .nil
  | @cons v w vs ws hvw _ ih =>
    obtain ⟨hle, hP⟩ := hvw
    rw [convertElements, convertElements]
    cases hw : w.convert store element with
    | none => exact .error _ _
    | some w' =>
      rcases hle.convert hw with ⟨u, hu, huw⟩ | ⟨hnone, hlacks⟩
      · rw [hu]
        exact ih.map fun us us' hus => .cons huw hus
      · rw [hnone]
        exact .error_left fun _ _ => hN v w hP hlacks

theorem referencedRecords_eq (h : List.Forall₂ (Value.LeAnd P) vs ws) :
    referencedRecords store vs = referencedRecords store ws := by
  induction h with
  | nil => rfl
  | @cons v w vs ws hvw _ ih =>
    cases hvw.1 with
    | refl =>
      cases v with
      | record ref => simp only [referencedRecords, ih]
      | _ => rfl
    | _ => rfl

theorem commonType_eq (h : List.Forall₂ (Value.LeAnd P) vs ws) :
    commonType store vs = commonType store ws := by
  have hrecords : referencedRecords store vs = referencedRecords store ws := referencedRecords_eq h
  cases h with
  | nil => rfl
  | cons hvw hrest =>
    simp only [commonType]
    rw [hrecords, hvw.1.type_eq]

theorem makeList_follows (h : List.Forall₂ (Value.LeAnd P) vs ws) (declared : Option Ty)
    (hN : ∀ v w type, (∀ t ∈ declared, t = type) → P v w → v.Lacks type w →
      N ⟨.elementIncompatible (v.type store) type, place⟩) :
    Follows N Value.Le (makeList store declared place vs) (makeList store declared place ws) := by
  unfold makeList
  rw [commonType_eq h]
  cases htype : declared.or (commonType store ws) with
  | none => exact .error _ _
  | some element =>
    have hdeclared : ∀ t ∈ declared, t = element := by
      rintro t rfl
      exact Option.some.inj htype
    exact (convertElements_follows h fun v w => hN v w element hdeclared).map
      fun us us' hus => .of_items hus

theorem dagOperatorOf_follows {v w : Option Value} (h : Value.Below v w)
    (hN : ∀ a, v = none → w = some a → N ⟨.badDagOperator none, place⟩) :
    Follows N Eq (dagOperatorOf place v) (dagOperatorOf place w) := by
  intro op hop
  cases w with
  | none => cases hop
  | some w =>
    cases v with
    | none => exact .inr ⟨_, rfl, hN w rfl rfl⟩
    | some v =>
      cases h.le with
      | refl => exact .inl ⟨op, hop, rfl⟩
      | _ => cases hop

theorem intOperand_follows {v w : Value} (h : v.Le w)
    (hN : v.Lacks .int w → N ⟨.notInt v.kind, place⟩) :
    Follows N Eq (intOperand store place v) (intOperand store place w) := by
  unfold intOperand
  cases hw : w.convert store .int with
  | none => exact .error _ _
  | some x =>
    rcases h.convert hw with ⟨u, hu, hux⟩ | ⟨hnone, hlacks⟩
    · rw [hu]
      cases x with
      | int number =>
        rw [hux.eq_int]
        exact .ok rfl
      | _ => exact .error _ _
    · rw [hnone]
      exact .error_left fun _ _ => hN hlacks

theorem sumOperands_follows (h : List.Forall₂ (Value.LeAnd P) vs ws) (sum : Int64)
    (hN : ∀ v w, P v w → v.Lacks .int w → N ⟨.notInt v.kind, place⟩) :
    Follows N Eq (sumOperands store place sum vs) (sumOperands store place sum ws) := by
  induction h generalizing sum with
  | nil => exact .ok rfl
  | @cons v w vs ws hvw _ ih =>
    rw [sumOperands, sumOperands]
    refine (intOperand_follows hvw.1 (hN v w hvw.2)).bind fun a b hab _ _ => ?_
    exact hab ▸ ih _

theorem concatOperands_follows (h : List.Forall₂ (Value.LeAnd P) vs ws) (text : String) :
    Follows N Eq (concatOperands place text vs) (concatOperands place text ws) := by
  induction h generalizing text with
  | nil => exact .ok rfl
  | @cons v w vs ws hvw _ ih =>
    rw [concatOperands, concatOperands]
    cases hvw.1 with
    | refl =>
      cases v.asText with
      | ok part => exact ih _
      | error e => exact .error _ _
    | _ => exact .error _ _

theorem Bang.apply_follows (op : Bang) (h : List.Forall₂ (Value.LeAnd P) vs ws)
    (hN : ∀ v w, op ≠ .strconcat → P v w → v.Lacks .int w → N ⟨.notInt v.kind, place⟩) :
    Follows N Value.Le (op.apply store place vs) (op.apply store place ws) := by
  cases op with
  | add =>
    exact (sumOperands_follows h 0 fun v w => hN v w nofun).map fun a b hab => hab ▸ .refl _
  | strconcat => exact (concatOperands_follows h "").map fun a b hab => hab ▸ .refl _
  | sub =>
    match vs, ws, h with
    | [v, v'], [w, w'], .cons hvw (.cons hvw' .nil) =>
      refine (intOperand_follows hvw.1 (hN v w nofun hvw.2)).bind fun a b hab _ _ => ?_
      refine (intOperand_follows hvw'.1 (hN v' w' nofun hvw'.2)).bind fun a' b' hab' _ _ => ?_
      exact .ok (hab ▸ hab' ▸ .refl _)
    | [], [], .nil => exact .error _ _
    | [_], [_], .cons _ .nil => exact .error _ _
    | _ :: _ :: _ :: _, _ :: _ :: _ :: _, .cons _ (.cons _ (.cons _ _)) => exact .error _ _

/-- A value that is assigned fits the type it is assigned to. -/
theorem assign_follows {v w : Option Value} (h : Value.Below v w) (target : Target) (type : Ty)
    (hN : ∀ a b, v = some a → w = some b → a.Lacks type b →
      N ⟨.incompatible target type (a.type store), place⟩) :
    Follows N (fun u u' => Value.Below u u' ∧ ∀ x ∈ u', x.Fits type)
      (assign store target type place v) (assign store target type place w) := by
  intro b hb
  have hfits : ∀ x ∈ b, x.Fits type := by
    intro x hx
    obtain ⟨u, -, hu⟩ := assign_eq_ok (hx ▸ hb : assign store target type place w = .ok (some x))
    exact Value.fits_of_convert hu
  cases v with
  | none => exact .inl ⟨none, rfl, .none b, hfits⟩
  | some v =>
    cases w with
    | none => cases h.eq_none
    | some w =>
      rw [assign] at hb ⊢
      cases hw : w.convert store type with
      | none =>
        rw [hw] at hb
        cases hb
      | some x =>
        rw [hw] at hb
        obtain rfl := Except.ok.inj hb
        rcases h.le.convert hw with ⟨u, hu, hux⟩ | ⟨hnone, hlacks⟩
        · exact .inl ⟨some u, by rw [hu], .some hux, hfits⟩
        · exact .inr ⟨_, by rw [hnone], hN v w rfl rfl hlacks⟩

end
end TypedRecords
