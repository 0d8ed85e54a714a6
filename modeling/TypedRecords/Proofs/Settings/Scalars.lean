import TypedRecords.Proofs.Outcome
import TypedRecords.Settings.Standard.Layer

/-!
# Texts that read as scalars

A text in the environment that reads as a truth value or a number is taken for that, whatever setting it is
for (`Setting.scalar?`). Such a text is made of letters, digits, signs and points only
(`Setting.isNumeralChar_of_scalar?`).
-/

namespace TypedRecords

theorem splitParts_eq_splitOn (separator : Char) (cs : List Char) :
    splitParts separator cs = cs.splitOn separator := by
  induction cs with
  | nil => rfl
  | cons c cs ih =>
    rw [splitParts, List.splitOn_cons_eq_if_modifyHead, ih]
    by_cases hc : c = separator
    · rw [if_pos hc, if_pos (beq_iff_eq.2 hc)]
    · rw [if_neg hc, if_neg (mt beq_iff_eq.1 hc)]
      cases hparts : cs.splitOn separator with
      | nil => exact absurd hparts (List.splitOn_ne_nil separator cs)
      | cons part parts => rfl

theorem forall_mem_of_dropWhile {P : Char → Prop} {p : Char → Bool} {cs : List Char}
    (hwhile : ∀ c ∈ cs.takeWhile p, P c) (hhead : ∀ c, p c = false → P c)
    (htail : ∀ c ∈ (cs.dropWhile p).tail, P c) : ∀ c ∈ cs, P c := by
  induction cs with
  | nil => nofun
  | cons c cs ih =>
    cases hp : p c with
    | true =>
      rw [List.takeWhile_cons_of_pos hp] at hwhile
      rw [List.dropWhile_cons_of_pos hp] at htail
      obtain ⟨hc, hwhile⟩ := List.forall_mem_cons.1 hwhile
      exact List.forall_mem_cons.2 ⟨hc, ih hwhile htail⟩
    | false =>
      rw [List.dropWhile_cons_of_neg (Bool.eq_false_iff.1 hp)] at htail
      exact List.forall_mem_cons.2 ⟨hhead c hp, htail⟩

/-! ### The characters of scalars -/

/-- A letter, a digit, a sign or a point. -/
def isNumeralChar (c : Char) : Bool := c.isAlphanum || c == '+' || c == '-' || c == '.'

theorem isNumeralChar_of_isAlphanum {c : Char} (h : c.isAlphanum = true) : isNumeralChar c = true := by
  simp [isNumeralChar, h]

theorem isNumeralChar_of_word {cs : List Char} {word : String}
    (hword : word.toList.all Char.isAlphanum = true)
    (h : String.ofList (cs.map Char.toLower) = word) : ∀ c ∈ cs, isNumeralChar c = true := by
  intro c hc
  have hlower : c.toLower.isAlphanum = true := by
    refine List.all_eq_true.1 hword _ ?_
    rw [← h, String.toList_ofList]
    exact List.mem_map_of_mem hc
  refine isNumeralChar_of_isAlphanum ?_
  by_cases hupper : c.isUpper = true
  · show ((c.isUpper || c.isLower) || c.isDigit) = true
    rw [hupper]
    rfl
  · have heq : c.toLower = c := dif_neg fun h => hupper (decide_eq_true h)
    rwa [heq] at hlower

namespace Decimal
variable {cs : List Char}

theorem isNumeralChar_of_splitSign (h : ∀ c ∈ (splitSign cs).2, isNumeralChar c = true) :
    ∀ c ∈ cs, isNumeralChar c = true := by
  unfold splitSign at h
  split at h
  · exact List.forall_mem_cons.2 ⟨rfl, h⟩
  · exact List.forall_mem_cons.2 ⟨rfl, h⟩
  · exact h

theorem isNumeralChar_of_allDigits (h : allDigits cs = true) : ∀ c ∈ cs, isNumeralChar c = true := by
  intro c hc
  have hdigit : c.isDigit = true := List.all_eq_true.1 (Bool.and_eq_true_iff.1 h).2 c hc
  refine isNumeralChar_of_isAlphanum ?_
  show (c.isAlpha || c.isDigit) = true
  rw [hdigit, Bool.or_true]

theorem isNumeralChar_of_int64? (h : int64? cs ≠ none) : ∀ c ∈ cs, isNumeralChar c = true := by
  refine isNumeralChar_of_splitSign (isNumeralChar_of_allDigits ?_)
  exact Decidable.byContradiction fun hdigits => h (if_neg hdigits)

theorem isNumeralChar_of_exponent? (h : exponent? cs ≠ none) : ∀ c ∈ cs, isNumeralChar c = true := by
  refine isNumeralChar_of_splitSign (isNumeralChar_of_allDigits ?_)
  exact Decidable.byContradiction fun hdigits => h (if_neg hdigits)

theorem isNumeralChar_of_unsignedFloat? {negative : Bool} (h : unsignedFloat? negative cs ≠ none) :
    ∀ c ∈ cs, isNumeralChar c = true := by
  simp only [unsignedFloat?] at h
  split at h
  · rename_i hdigits
    have hdigits := isNumeralChar_of_allDigits hdigits
    have hmark : ∀ c, (!isExponentMark c) = false → isNumeralChar c = true := by
      intro c hc
      simp only [isExponentMark, Bool.not_eq_false', Bool.or_eq_true, beq_iff_eq] at hc
      rcases hc with rfl | rfl <;> rfl
    have hpoint : ∀ c, (c != '.') = false → isNumeralChar c = true := by
      intro c hc
      obtain rfl : c = '.' := by simpa using hc
      rfl
    refine forall_mem_of_dropWhile (p := (!isExponentMark ·)) ?_ hmark ?_
    · refine forall_mem_of_dropWhile (p := (· != '.')) ?_ hpoint ?_
      · exact fun c hc => hdigits c (List.mem_append_left _ hc)
      · exact fun c hc => hdigits c (List.mem_append_right _ hc)
    · cases hrest : cs.dropWhile (!isExponentMark ·) with
      | nil => nofun
      | cons mark exponent =>
        simp only [hrest] at h
        have hexponent : exponent? exponent ≠ none := fun hnone => h (by rw [hnone, Option.map_none])
        exact isNumeralChar_of_exponent? hexponent
  · exact absurd rfl h

theorem isNumeralChar_of_float? (h : float? cs ≠ none) : ∀ c ∈ cs, isNumeralChar c = true := by
  simp only [float?] at h
  refine isNumeralChar_of_splitSign ?_
  split at h
  · rename_i hword
    rcases Bool.or_eq_true_iff.1 hword with hword | hword
    · exact isNumeralChar_of_word (by decide +kernel) (beq_iff_eq.1 hword)
    · exact isNumeralChar_of_word (by decide +kernel) (beq_iff_eq.1 hword)
  · split at h
    · rename_i hword
      exact isNumeralChar_of_word (by decide +kernel) (beq_iff_eq.1 hword)
    · exact isNumeralChar_of_unsignedFloat? h

end Decimal

namespace Setting

theorem isNumeralChar_of_truth? {cs : List Char} (h : truth? cs ≠ none) :
    ∀ c ∈ cs, isNumeralChar c = true := by
  simp only [truth?] at h
  split at h
  · rename_i hword
    exact isNumeralChar_of_word (by decide +kernel) (beq_iff_eq.1 hword)
  · split at h
    · rename_i hword
      exact isNumeralChar_of_word (by decide +kernel) (beq_iff_eq.1 hword)
    · exact absurd rfl h

/-- The truth value or the number that a text reads as. -/
def scalar? (value : String) : Option Setting :=
  match truth? value.toList, Decimal.int64? value.toList, Decimal.float? value.toList with
  | some b, _, _ => some (truth b)
  | none, some n, _ => some (integer n)
  | none, none, some x => some (float x)
  | none, none, none => none

theorem isNumeralChar_of_scalar? {value : String} (h : scalar? value ≠ none) :
    ∀ c ∈ value.toList, isNumeralChar c = true := by
  unfold scalar? at h
  cases htruth : truth? value.toList with
  | some b => exact isNumeralChar_of_truth? (by simp [htruth])
  | none =>
    cases hint : Decimal.int64? value.toList with
    | some n => exact Decimal.isNumeralChar_of_int64? (by simp [hint])
    | none =>
      cases hfloat : Decimal.float? value.toList with
      | some x => exact Decimal.isNumeralChar_of_float? (by simp [hfloat])
      | none => simp [htruth, hint, hfloat] at h

theorem scalar?_eq_none {value : String} : scalar? value = none ↔
    truth? value.toList = none ∧ Decimal.int64? value.toList = none ∧
      Decimal.float? value.toList = none := by
  unfold scalar?
  cases truth? value.toList <;> cases Decimal.int64? value.toList <;>
    cases Decimal.float? value.toList <;> simp

theorem scalar?_eq_some {value : String} {v : Setting} (h : scalar? value = some v) :
    (∃ b, truth? value.toList = some b ∧ v = truth b) ∨
    (truth? value.toList = none ∧ ∃ n, Decimal.int64? value.toList = some n ∧ v = integer n) ∨
    (truth? value.toList = none ∧ Decimal.int64? value.toList = none ∧
      ∃ x, Decimal.float? value.toList = some x ∧ v = float x) := by
  unfold scalar? at h
  cases htruth : truth? value.toList with
  | some b => exact .inl ⟨b, rfl, by simpa [htruth] using h.symm⟩
  | none =>
    cases hint : Decimal.int64? value.toList with
    | some n => exact .inr (.inl ⟨rfl, n, rfl, by simpa [htruth, hint] using h.symm⟩)
    | none =>
      cases hfloat : Decimal.float? value.toList with
      | some x => exact .inr (.inr ⟨rfl, rfl, x, rfl, by simpa [htruth, hint, hfloat] using h.symm⟩)
      | none => simp [htruth, hint, hfloat] at h

/-- What a text in the environment comes to where a text is wanted: a scalar is written out anew. -/
def rewritten (value : String) : String := ((scalar? value).bind asText?).getD value

theorem rewritten_of_none {value : String} (h : scalar? value = none) : rewritten value = value := by
  rw [rewritten, h]
  rfl

end Setting
end TypedRecords
