import TypedRecords.Syntax.Literal
import TypedRecords.Proofs.Reading.Words

/-!
# Written integers

The texts that are read as integers: a sign or none, the mark of a radix and digits of that radix, with no
word going on behind them (`scanInteger_eq_some`). No other radix reads the same text: the mark of each but
the decimal one has a letter in it that the digits of the others do not have in its place.
-/

namespace TypedRecords

theorem isWordChar_of_isDigit {c : Char} (h : c.isDigit = true) : isWordChar c = true := by
  simp [isWordChar, Char.isAlphanum, h]

namespace Radix

theorem isWordChar_of_digit {radix : Radix} {c : Char} (h : radix.isDigit c = true) :
    isWordChar c = true := by
  cases radix with
  | decimal => exact isWordChar_of_isDigit h
  | hex =>
    simp only [isDigit, isHexDigit, Bool.or_eq_true, Bool.and_eq_true, decide_eq_true_eq] at h
    rcases h with (hdigit | hlower) | hupper
    · exact isWordChar_of_isDigit hdigit
    · have hletter : c ≤ 'z' := Char.le_trans hlower.2 (by decide)
      have hlower : c.isLower = true :=
        Bool.and_eq_true_iff.2 ⟨decide_eq_true hlower.1, decide_eq_true hletter⟩
      show (((c.isUpper || c.isLower) || c.isDigit) || c == '_') = true
      rw [hlower, Bool.or_true, Bool.true_or, Bool.true_or]
    · have hletter : c ≤ 'Z' := Char.le_trans hupper.2 (by decide)
      have hupper : c.isUpper = true := decide_eq_true ⟨hupper.1, hletter⟩
      show (((c.isUpper || c.isLower) || c.isDigit) || c == '_') = true
      rw [hupper, Bool.true_or, Bool.true_or, Bool.true_or]
  | binary =>
    simp only [isDigit, isBinDigit, Bool.or_eq_true, beq_iff_eq] at h
    rcases h with rfl | rfl <;> rfl

end Radix

/-- The digits are digits of the radix, and there is one at least. -/
structure IntLiteral.Spelled (l : IntLiteral) : Prop where
  digits_ne_nil : l.digits ≠ []
  isDigit : ∀ c ∈ l.digits, l.radix.isDigit c = true

namespace IntLiteral
variable {l : IntLiteral}

def signText (negative : Bool) : List Char := if negative then ['-'] else []

theorem toList_text (l : IntLiteral) :
    l.text.toList = signText l.negative ++ (l.radix.mark.toList ++ l.digits) := by
  cases hsign : l.negative <;> simp [text, signText, hsign]

/-- No sign stands behind the first. -/
theorem Spelled.no_sign (h : l.Spelled) (rest : List Char) :
    ['-'].isPrefixOf (l.radix.mark.toList ++ l.digits ++ rest) = false := by
  cases hradix : l.radix with
  | hex => rfl
  | binary => rfl
  | decimal =>
    obtain ⟨c, cs, hdigits⟩ := List.exists_cons_of_ne_nil h.digits_ne_nil
    have hc : '-' ≠ c := by
      rintro rfl
      have hsign := h.isDigit '-' (hdigits ▸ List.mem_cons_self ..)
      rw [hradix] at hsign
      exact absurd hsign (by decide)
    rw [hdigits]
    simp [Radix.mark, List.isPrefixOf, hc]

end IntLiteral

/-! ### Magnitudes -/

section
variable {radix other : Radix} {cs digits rest : List Char} {n : Nat}

theorem scanDigits_eq_some (h : scanDigits radix cs = some (digits, n)) :
    digits ≠ [] ∧ (∀ c ∈ digits, radix.isDigit c = true) ∧ n = (radix.mark.toList ++ digits).length ∧
      radix.mark.toList ++ digits <+: cs := by
  unfold scanDigits at h
  dsimp only at h
  split at h
  · rename_i hmark
    split at h
    · cases h
    · rename_i hempty
      obtain ⟨rest, rfl⟩ := List.isPrefixOf_iff_prefix.1 hmark
      rw [List.drop_left] at h hempty
      obtain ⟨rfl, rfl⟩ := Prod.mk.inj (Option.some.inj h)
      refine ⟨mt List.isEmpty_iff.2 hempty, List.all_eq_true.1 List.all_takeWhile, ?_, ?_⟩
      · rw [List.length_append]
      · exact (List.prefix_append_right_inj _).2 (List.takeWhile_prefix _)
  · cases h

theorem scanDigits_append (hne : digits ≠ []) (hdigits : ∀ c ∈ digits, radix.isDigit c = true)
    (hrest : atWordEnd rest = true) : scanDigits radix (radix.mark.toList ++ digits ++ rest) =
      some (digits, (radix.mark.toList ++ digits).length) := by
  have hstop : ∀ c ∈ rest.head?, radix.isDigit c = false := fun c hc =>
    Bool.eq_false_iff.2 fun h =>
      Bool.eq_false_iff.1 (head_of_atWordEnd hrest c hc) (Radix.isWordChar_of_digit h)
  unfold scanDigits
  dsimp only
  rw [List.append_assoc, if_pos (List.isPrefixOf_iff_prefix.2 (List.prefix_append ..)), List.drop_left,
    takeWhile_append hdigits hstop, if_neg (mt List.isEmpty_iff.1 hne), List.length_append]

theorem scanDigits_of_mark (h : other.mark.toList.isPrefixOf cs = false) : scanDigits other cs = none := by
  unfold scanDigits
  dsimp only
  rw [h, if_neg Bool.false_ne_true]

/-- Decimal digits do not begin with a mark, which has a letter in it. -/
theorem mark_not_begins {c d : Char} (hmark : other.mark.toList = [c, d]) (hc : isWordChar c = true)
    (hd : isWordChar d = true) (hletter : d.isDigit = false)
    (hdigits : ∀ c ∈ digits, c.isDigit = true) (hrest : atWordEnd rest = true) :
    other.mark.toList.isPrefixOf (digits ++ rest) = false := by
  rw [hmark, isPrefixOf_word (by simp [hc, hd]) hrest, Bool.eq_false_iff]
  intro h
  have hmem : d ∈ digits := (List.isPrefixOf_iff_prefix.1 h).subset (by simp)
  exact Bool.eq_false_iff.1 hletter (hdigits d hmem)

theorem scanMagnitude_append (hne : digits ≠ []) (hdigits : ∀ c ∈ digits, radix.isDigit c = true)
    (hrest : atWordEnd rest = true) : scanMagnitude (radix.mark.toList ++ digits ++ rest) =
      some ((radix, digits), (radix.mark.toList ++ digits).length) := by
  have hscan := scanDigits_append hne hdigits hrest
  unfold scanMagnitude
  cases radix with
  | hex => rw [List.findSome?_cons, hscan]; rfl
  | binary =>
    have hhex : scanDigits .hex (Radix.binary.mark.toList ++ digits ++ rest) = none :=
      scanDigits_of_mark rfl
    rw [List.findSome?_cons, hhex, Option.map_none, List.findSome?_cons, hscan]
    rfl
  | decimal =>
    have hhex : scanDigits .hex (Radix.decimal.mark.toList ++ digits ++ rest) = none :=
      scanDigits_of_mark (mark_not_begins rfl (by decide) (by decide) (by decide) hdigits hrest)
    have hbinary : scanDigits .binary (Radix.decimal.mark.toList ++ digits ++ rest) = none :=
      scanDigits_of_mark (mark_not_begins rfl (by decide) (by decide) (by decide) hdigits hrest)
    rw [List.findSome?_cons, hhex, Option.map_none, List.findSome?_cons, hbinary, Option.map_none,
      List.findSome?_cons, hscan]
    rfl

theorem scanMagnitude_eq_some (h : scanMagnitude cs = some ((radix, digits), n)) :
    scanDigits radix cs = some (digits, n) := by
  obtain ⟨other, -, hother⟩ := List.exists_of_findSome?_eq_some h
  obtain ⟨⟨ds, m⟩, hscan, heq⟩ := Option.map_eq_some_iff.1 hother
  cases heq
  exact hscan

end

/-! ### Integers -/

section
variable {cs : List Char} {l : IntLiteral} {n : Nat}

theorem exists_sign (cs : List Char) : ∃ negative rest, cs = IntLiteral.signText negative ++ rest ∧
    (negative = false → ['-'].isPrefixOf rest = false) := by
  by_cases h : ['-'].isPrefixOf cs = true
  · obtain ⟨rest, hrest⟩ := List.isPrefixOf_iff_prefix.1 h
    exact ⟨true, rest, hrest.symm, nofun⟩
  · exact ⟨false, cs, rfl, fun _ => Bool.eq_false_iff.2 h⟩

theorem scanInteger_sign {negative : Bool} (h : negative = false → ['-'].isPrefixOf cs = false) :
    scanInteger (IntLiteral.signText negative ++ cs) =
      (scanMagnitude cs).bind fun r =>
        if atWordEnd (cs.drop r.2) then
          some (⟨negative, r.1.1, r.1.2⟩, (IntLiteral.signText negative).length + r.2)
        else none := by
  unfold scanInteger IntLiteral.signText
  cases negative with
  | true =>
    have hsign : ['-'].isPrefixOf ('-' :: cs) = true := rfl
    have hdrop : ∀ width, ('-' :: cs).drop (1 + width) = cs.drop width := fun width => by
      rw [Nat.add_comm, List.drop_succ_cons]
    simp only [if_true, List.singleton_append, hsign, List.drop_succ_cons, List.drop_zero, hdrop]
    cases scanMagnitude cs <;> rfl
  | false =>
    simp only [Bool.false_eq_true, if_false, List.nil_append, h rfl, List.drop_zero, Nat.zero_add,
      List.length_nil]
    cases scanMagnitude cs <;> rfl

theorem IntLiteral.Spelled.scan (h : l.Spelled) {rest : List Char} (hrest : atWordEnd rest = true) :
    scanInteger (l.text.toList ++ rest) = some (l, l.text.toList.length) := by
  rw [toList_text, List.append_assoc, scanInteger_sign fun _ => h.no_sign rest,
    scanMagnitude_append h.digits_ne_nil h.isDigit hrest, Option.bind_some]
  dsimp only
  rw [List.drop_left, if_pos hrest]
  exact congrArg (fun n => some (l, n)) (List.length_append ..).symm

/-- An integer is read exactly where its text stands and no word goes on behind it. -/
theorem scanInteger_eq_some : scanInteger cs = some (l, n) ↔
    l.Spelled ∧ n = l.text.toList.length ∧ ∃ rest, cs = l.text.toList ++ rest ∧ atWordEnd rest = true := by
  constructor
  · intro h
    obtain ⟨negative, cs, rfl, hsign⟩ := exists_sign cs
    rw [scanInteger_sign hsign] at h
    obtain ⟨⟨⟨radix, digits⟩, width⟩, hmagnitude, h⟩ := Option.bind_eq_some_iff.1 h
    obtain ⟨hne, hdigits, rfl, rest, rfl⟩ := scanDigits_eq_some (scanMagnitude_eq_some hmagnitude)
    dsimp only at h
    rw [List.drop_left] at h
    obtain ⟨hrest, h⟩ := Option.ite_none_right_eq_some.1 h
    obtain ⟨rfl, rfl⟩ := Prod.mk.inj (Option.some.inj h)
    rw [IntLiteral.toList_text]
    exact ⟨⟨hne, hdigits⟩, (List.length_append ..).symm, rest, (List.append_assoc ..).symm, hrest⟩
  · rintro ⟨hl, rfl, rest, rfl, hrest⟩
    exact hl.scan hrest

end
end TypedRecords
