import Mathlib.Data.Int.ModEq
import Mathlib.Data.Nat.Digits.Defs
import TypedRecords.Expr.OfSyntax
import TypedRecords.Proofs.Reading.Literals

/-!
# The numbers that integers write

The digits of an integer are read from its text again (`IntLiteral.ofText_text`) and taken up one by one in a
word of 64 bits, each step refused where it overflows. This fails just where the number they write does not
fit a word (`IntLiteral.word?_eq`). The word is taken for a signed one and negated with wraparound, so an
integer stands for its number modulo `2 ^ 64` (`IntLiteral.value?_eq_some`).
-/

namespace TypedRecords

/-! ### From the text to the digits -/

namespace IntLiteral
variable {l : IntLiteral}

/-- Whether a text begins with a sign, and what stands behind it. -/
def splitSign (text : List Char) : Bool × List Char :=
  match ['-'].isPrefixOf? text with
  | some rest => (true, rest)
  | none => (false, text)

/-- The radix whose mark a text begins with, and what stands behind the mark. -/
def splitMark (text : List Char) : Radix × List Char :=
  match Radix.hex.mark.toList.isPrefixOf? text, Radix.binary.mark.toList.isPrefixOf? text with
  | some digits, _ => (.hex, digits)
  | none, some digits => (.binary, digits)
  | none, none => (.decimal, text)

/-- The literal that a text is, if it is one. -/
def ofText (text : List Char) : IntLiteral :=
  ⟨(splitSign text).1, (splitMark (splitSign text).2).1, (splitMark (splitSign text).2).2⟩

theorem isPrefixOf?_append (mark rest : List Char) : mark.isPrefixOf? (mark ++ rest) = some rest :=
  List.isPrefixOf?_eq_some_iff_append_eq.2 rfl

theorem isPrefixOf?_of_not {mark text : List Char} (h : mark.isPrefixOf text = false) :
    mark.isPrefixOf? text = none := by
  refine Option.eq_none_iff_forall_ne_some.2 fun rest hrest => ?_
  obtain rfl := List.isPrefixOf?_eq_some_iff_append_eq.1 hrest
  rw [List.isPrefixOf_iff_prefix.2 (List.prefix_append ..)] at h
  cases h

theorem splitSign_text (h : l.Spelled) :
    splitSign l.text.toList = (l.negative, l.radix.mark.toList ++ l.digits) := by
  rw [toList_text]
  cases l.negative with
  | true => rfl
  | false =>
    have hsign := h.no_sign []
    rw [List.append_nil] at hsign
    rw [splitSign, signText, if_neg Bool.false_ne_true, List.nil_append, isPrefixOf?_of_not hsign]

theorem splitMark_text (h : l.Spelled) :
    splitMark (l.radix.mark.toList ++ l.digits) = (l.radix, l.digits) := by
  unfold splitMark
  cases hradix : l.radix with
  | hex => rw [isPrefixOf?_append]
  | binary =>
    have hhex : Radix.hex.mark.toList.isPrefixOf? (Radix.binary.mark.toList ++ l.digits) = none :=
      isPrefixOf?_of_not rfl
    rw [hhex, isPrefixOf?_append]
  | decimal =>
    have hdigits : ∀ c ∈ l.digits, Radix.decimal.isDigit c = true := hradix ▸ h.isDigit
    have hnone : ∀ {other : Radix} {c d : Char}, other.mark.toList = [c, d] → isWordChar c = true →
        isWordChar d = true → d.isDigit = false →
        other.mark.toList.isPrefixOf? (Radix.decimal.mark.toList ++ l.digits) = none := by
      intro other c d hmark hc hd hletter
      refine isPrefixOf?_of_not ?_
      have hbegins : other.mark.toList.isPrefixOf (l.digits ++ []) = false :=
        mark_not_begins hmark hc hd hletter hdigits rfl
      rwa [List.append_nil] at hbegins
    rw [hnone rfl (by decide) (by decide) (by decide), hnone rfl (by decide) (by decide) (by decide)]
    rfl

theorem ofText_text (h : l.Spelled) : ofText l.text.toList = l := by
  rw [ofText, splitSign_text h, splitMark_text h]

end IntLiteral

/-! ### From the digits to a word -/

/-- Digits weigh as much as their place says, the last one least. -/
theorem digitsValue_eq_ofDigits (base : Nat) (digits : List Char) :
    digitsValue base digits = Nat.ofDigits base (digits.reverse.map digitValue) := by
  rw [Nat.ofDigits_eq_foldr, List.foldr_map, List.foldr_reverse, digitsValue]
  refine congrArg (List.foldl · 0 digits) (funext fun n => funext fun c => ?_)
  rw [Nat.cast_id, Nat.mul_comm, Nat.add_comm]

theorem le_foldl_digits {base : Nat} (hbase : 0 < base) (digits : List Char) (n : Nat) :
    n ≤ digits.foldl (fun n c => n * base + digitValue c) n := by
  induction digits generalizing n with
  | nil => exact Nat.le_refl n
  | cons c digits ih =>
    have hstep : n ≤ n * base + digitValue c := Nat.le_add_right_of_le (Nat.le_mul_of_pos_right n hbase)
    exact hstep.trans (ih _)

namespace Word

/-- The product of two words; none where it does not fit a word. -/
def multiply? (x y : UInt64) : Option UInt64 := if x.toNat * y.toNat < 2 ^ 64 then some (x * y) else none

/-- The sum of two words; none where it does not fit a word. -/
def add? (x y : UInt64) : Option UInt64 := if x.toNat + y.toNat < 2 ^ 64 then some (x + y) else none

/-- Takes up one more digit. -/
def pushDigit? (base : Nat) (x : UInt64) (c : Char) : Option UInt64 := do
  add? (← multiply? x (UInt64.ofNat base)) (UInt64.ofNat (digitValue c))

theorem pushDigit?_eq {base : Nat} (hbase : base < 2 ^ 64) {n : Nat} (hn : n < 2 ^ 64) {c : Char}
    (hc : digitValue c < 2 ^ 64) : pushDigit? base (UInt64.ofNat n) c =
      if n * base + digitValue c < 2 ^ 64 then some (UInt64.ofNat (n * base + digitValue c)) else none := by
  have htoNat : ∀ {m : Nat}, m < 2 ^ 64 → (UInt64.ofNat m).toNat = m := UInt64.toNat_ofNat_of_lt'
  unfold pushDigit? multiply? add?
  rw [htoNat hn, htoNat hbase, htoNat hc, ← UInt64.ofNat_mul]
  by_cases hproduct : n * base < 2 ^ 64
  · rw [if_pos hproduct]
    show (if (UInt64.ofNat (n * base)).toNat + digitValue c < 2 ^ 64 then _ else _) = _
    rw [htoNat hproduct, UInt64.ofNat_add]
  · rw [if_neg hproduct, if_neg fun hsum => hproduct (Nat.lt_of_le_of_lt (Nat.le_add_right ..) hsum)]
    rfl

/-- A number that does not fit is too large already at the digit that the word refuses. -/
theorem foldlM_pushDigit? {base : Nat} (hpos : 0 < base) (hbase : base < 2 ^ 64) {digits : List Char}
    (hdigits : ∀ c ∈ digits, digitValue c < 2 ^ 64) {n : Nat} (hn : n < 2 ^ 64) :
    digits.foldlM (pushDigit? base) (UInt64.ofNat n) =
      if digits.foldl (fun n c => n * base + digitValue c) n < 2 ^ 64 then
        some (UInt64.ofNat (digits.foldl (fun n c => n * base + digitValue c) n)) else none := by
  induction digits generalizing n with
  | nil => exact (if_pos hn).symm
  | cons c digits ih =>
    obtain ⟨hc, hdigits⟩ := List.forall_mem_cons.1 hdigits
    rw [List.foldlM_cons, pushDigit?_eq hbase hn hc, List.foldl_cons]
    by_cases hnext : n * base + digitValue c < 2 ^ 64
    · rw [if_pos hnext]
      exact ih hdigits hnext
    · have hlarge := le_foldl_digits hpos digits (n * base + digitValue c)
      rw [if_neg hnext, if_neg fun hlt => hnext (hlarge.trans_lt hlt)]
      rfl

theorem ofInt_eq_iff {a : Int} {x : Int64} : Int64.ofInt a = x ↔ x.toInt ≡ a [ZMOD 2 ^ 64] := by
  rw [Int64.ofInt_eq_iff_bmod_eq_toInt]
  constructor
  · intro h
    rw [← h]
    exact Int.bmod_emod
  · intro h
    have hx : x.toInt.bmod (2 ^ 64) = x.toInt := (Int64.ofInt_eq_iff_bmod_eq_toInt _ _).1 x.ofInt_toInt
    have hmod : a % (2 ^ 64 : Nat) = x.toInt % (2 ^ 64 : Nat) := h.symm
    rw [← hx, ← Int.emod_bmod, hmod, Int.emod_bmod]

end Word

/-! ### From the word to the integer -/

theorem digitValue_lt (c : Char) : digitValue c < 2 ^ 64 := by
  have hc : c.toNat < 2 ^ 32 := c.val.toNat_lt
  unfold digitValue
  split
  · omega
  · split <;> omega

namespace IntLiteral
variable {l : IntLiteral}

/-- The number that the literal writes, sign and all. -/
def number (l : IntLiteral) : Int := if l.negative then -l.magnitude else l.magnitude

/-- The digits taken up in a word; none where that overflows. -/
def word? (l : IntLiteral) : Option UInt64 := l.digits.foldlM (Word.pushDigit? l.radix.base) 0

/-- The word taken for a signed one, and negated for a sign. The least integer is its own negation. -/
def wrapped? (l : IntLiteral) : Option Int64 :=
  l.word?.map fun x => if l.negative then -x.toInt64 else x.toInt64

theorem word?_eq (l : IntLiteral) :
    l.word? = if l.magnitude < 2 ^ 64 then some (UInt64.ofNat l.magnitude) else none := by
  have hpos : 0 < l.radix.base := by cases l.radix <;> decide
  have hbase : l.radix.base < 2 ^ 64 := by cases l.radix <;> decide
  exact Word.foldlM_pushDigit? hpos hbase (fun c _ => digitValue_lt c) (by decide)

theorem value?_eq (l : IntLiteral) :
    l.value? = if l.magnitude < 2 ^ 64 then some (Int64.ofInt l.number) else none := rfl

theorem wrapped?_eq (l : IntLiteral) : l.wrapped? = l.value? := by
  have hword : (UInt64.ofNat l.magnitude).toInt64 = Int64.ofInt l.magnitude := by
    rw [UInt64.toInt64_ofNat', Int64.ofInt_eq_ofNat]
  rw [wrapped?, word?_eq, value?_eq, number]
  by_cases h : l.magnitude < 2 ^ 64
  · rw [if_pos h, if_pos h, Option.map_some, hword]
    cases l.negative with
    | true => exact congrArg some (Int64.ofInt_neg _).symm
    | false => rfl
  · rw [if_neg h, if_neg h, Option.map_none]

theorem value?_eq_none : l.value? = none ↔ 2 ^ 64 ≤ l.magnitude := by
  rw [value?_eq, ite_eq_right_iff, ← Nat.not_lt]
  exact ⟨fun h hlt => Option.some_ne_none _ (h hlt), fun h hlt => absurd hlt h⟩

theorem value?_eq_some {x : Int64} :
    l.value? = some x ↔ l.magnitude < 2 ^ 64 ∧ x.toInt ≡ l.number [ZMOD 2 ^ 64] := by
  rw [value?_eq, Option.ite_none_right_eq_some, Option.some_inj, Word.ofInt_eq_iff]

theorem toExpr_integer (declared : String → Bool) (l : IntLiteral) (place : Location) :
    (ValueSyntax.integer l place).toExpr declared =
      match l.value? with
      | some x => .ok (.int x)
      | none => .error ⟨.badInteger l.text, place⟩ := by
  rw [ValueSyntax.toExpr, integerValue]
  cases l.value? <;> rfl

end IntLiteral

/-! ### Integers in a text -/

namespace Parser

theorem integer_outcome {c c' : Cursor} {v : ValueSyntax} :
    (integer c).outcome = some (v, c') ↔
      ∃ l n, scanInteger c.rest = some (l, n) ∧ v = .integer l c.place ∧ c' = c.advance n := by
  have hinteger : (integer c).outcome =
      (token .integer scanInteger c).outcome.map fun r => (.integer r.1 c.place, r.2) := by
    show (Parser.bind here (fun place => Parser.bind (token .integer scanInteger) _) c).outcome = _
    simp only [Parser.bind, here]
    cases (token .integer scanInteger c).outcome <;> rfl
  rw [hinteger, Option.map_eq_some_iff]
  constructor
  · rintro ⟨⟨l, d⟩, htoken, hv⟩
    obtain ⟨n, hscan, rfl⟩ := token_outcome.1 htoken
    obtain ⟨rfl, rfl⟩ := Prod.mk.inj hv
    exact ⟨l, n, hscan, rfl, rfl⟩
  · rintro ⟨l, n, hscan, rfl, rfl⟩
    exact ⟨(l, _), token_outcome.2 ⟨n, hscan, rfl⟩, rfl⟩

/-- The text of an integer value is read as one integer, whatever follows that does not go on with it. -/
theorem integer_text (x : Int64) (place : Location) {rest : List Char} (hrest : atWordEnd rest = true) :
    (integer ⟨(Value.int x).text.toList ++ rest, place⟩).outcome =
      some (.integer (intLiteral x.toInt) place, ⟨rest, place.advanceAll (Value.int x).text.toList⟩) := by
  have hscan := scanInteger_toString x.toInt hrest
  refine integer_outcome.2 ⟨_, _, hscan, rfl, ?_⟩
  show _ = Cursor.advance ⟨(toString x.toInt).toList ++ rest, place⟩ _
  rw [Cursor.advance, List.drop_left, List.take_left]
  rfl

/-- What is read as an integer is the text of a literal, and its digits are those that the text itself gives
back. It fails just where the number that the digits write does not fit 64 bits; otherwise it stands for the
one 64-bit integer that agrees with that number, or for a sign with its negation, modulo `2 ^ 64`. The text of
every 64-bit integer reads back as that integer. -/
theorem integers_wrap (declared : String → Bool) :
    (∀ {c c' : Cursor} {v : ValueSyntax}, (integer c).outcome = some (v, c') →
      ∃ l : IntLiteral, v = .integer l c.place ∧ c.rest = l.text.toList ++ c'.rest ∧
        atWordEnd c'.rest = true ∧ l.Spelled ∧ IntLiteral.ofText l.text.toList = l ∧
        l.magnitude = Nat.ofDigits l.radix.base (l.digits.reverse.map digitValue) ∧
        v.toExpr declared = (match l.wrapped? with
          | some x => .ok (.int x)
          | none => .error ⟨.badInteger l.text, c.place⟩) ∧
        (l.wrapped? = none ↔ 2 ^ 64 ≤ l.magnitude) ∧
        ∀ x, l.wrapped? = some x ↔ l.magnitude < 2 ^ 64 ∧ x.toInt ≡ l.number [ZMOD 2 ^ 64]) ∧
    ∀ (x : Int64) (place : Location) (rest : List Char), atWordEnd rest = true →
      ∃ l, (integer ⟨(Value.int x).text.toList ++ rest, place⟩).outcome =
          some (.integer l place, ⟨rest, place.advanceAll (Value.int x).text.toList⟩) ∧
        (ValueSyntax.integer l place).toExpr declared = .ok (.int x) := by
  refine ⟨?read, fun x place rest hrest => ⟨_, integer_text x place hrest, ?shown⟩⟩
  case read =>
    intro c c' v h
    obtain ⟨l, n, hscan, rfl, rfl⟩ := integer_outcome.1 h
    obtain ⟨hl, rfl, rest, htext, hrest⟩ := scanInteger_eq_some.1 hscan
    have hafter : (c.advance l.text.toList.length).rest = rest := by rw [Cursor.advance, htext, List.drop_left]
    rw [hafter]
    refine ⟨l, rfl, htext, hrest, hl, IntLiteral.ofText_text hl, digitsValue_eq_ofDigits _ _, ?_⟩
    rw [l.wrapped?_eq]
    exact ⟨l.toExpr_integer declared c.place, IntLiteral.value?_eq_none,
      fun x => IntLiteral.value?_eq_some⟩
  case shown => rw [IntLiteral.toExpr_integer, value?_intLiteral]

/-- The integer with the sign bit alone is the least one, and its negation is itself. -/
theorem sign_bit_read :
    (integer (.start "" "-0x8000000000000000;")).outcome =
      some (.integer ⟨true, .hex, "8000000000000000".toList⟩ (.start ""),
        (Cursor.start "" "-0x8000000000000000;").advance 19) ∧
    (ValueSyntax.integer ⟨true, .hex, "8000000000000000".toList⟩ (.start "")).toExpr (fun _ => false) =
      .ok (.int Int64.minValue) := by
  have hread : (integer (.start "" "-0x8000000000000000;")).outcome =
      some (.integer ⟨true, .hex, "8000000000000000".toList⟩ (.start ""),
        (Cursor.start "" "-0x8000000000000000;").advance 19) := by
    rfl
  obtain ⟨l, hv, -, -, -, -, -, hvalue, -, hwrapped⟩ := (integers_wrap fun _ => false).1 hread
  obtain ⟨rfl, -⟩ := ValueSyntax.integer.inj hv
  have hmin := (hwrapped Int64.minValue).2 ⟨by decide +kernel, by decide +kernel⟩
  rw [hmin] at hvalue
  exact ⟨hread, hvalue⟩

end Parser
end TypedRecords
