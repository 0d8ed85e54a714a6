import TypedRecords.Value.Text
import TypedRecords.Proofs.Reading.Integers

/-!
# Reading literals

What the text of an integer, a string or a code value reads as: the value itself. The digits of a
natural number are read in full and only as decimal ones, every escape is undone, and code goes up to
the first closing bracket.
-/

namespace TypedRecords

/-! ### Digits -/

theorem digitsValue_toDigits (n : Nat) : digitsValue 10 (Nat.toDigits 10 n) = n := by
  have hdigits : ∀ c ∈ Nat.toDigits 10 n, c.isDigit = true := fun c hc =>
    Nat.isDigit_of_mem_toDigits (by decide) (by decide) hc
  have hfold : ∀ (cs : List Char) (m : Nat), (∀ c ∈ cs, c.isDigit = true) →
      cs.foldl (fun n c => n * 10 + digitValue c) m = Nat.ofDigitChars 10 cs m := by
    intro cs
    induction cs with
    | nil => exact fun _ _ => rfl
    | cons c cs ih =>
      intro m hcs
      obtain ⟨hc, hcs⟩ := List.forall_mem_cons.1 hcs
      rw [List.foldl_cons, ih _ hcs, Nat.ofDigitChars_cons, digitValue, if_pos hc, Nat.mul_comm]
  rw [digitsValue, hfold _ _ hdigits]
  exact Nat.ofDigitChars_toDigits (by decide) (by decide)

theorem toList_toString (n : Nat) : (toString n).toList = Nat.toDigits 10 n := by
  rw [Nat.toString_eq_ofList_toDigits, String.toList_ofList]

theorem isDigit_toString (n : Nat) : ∀ c ∈ (toString n).toList, c.isDigit = true := fun _ hc =>
  Nat.isDigit_of_mem_toDigits (by decide) (by decide) (toList_toString n ▸ hc)

theorem toString_ne_nil (n : Nat) : (toString n).toList ≠ [] :=
  toList_toString n ▸ Nat.toDigits_ne_nil

theorem isWordChar_toString (n : Nat) : ∀ c ∈ (toString n).toList, isWordChar c = true :=
  fun c hc => isWordChar_of_isDigit (isDigit_toString n c hc)

section
variable {rest : List Char}

theorem scanDecimal_toString (n : Nat) (hrest : ∀ c ∈ rest.head?, c.isDigit = false) :
    scanDecimal ((toString n).toList ++ rest) = some (n, (toString n).toList.length) := by
  unfold scanDecimal
  rw [takeWhile_append (isDigit_toString n) hrest]
  dsimp only
  rw [if_neg (mt List.isEmpty_iff.1 (toString_ne_nil n)), toList_toString, digitsValue_toDigits]

theorem isDigit_of_atWordEnd (hrest : atWordEnd rest = true) : ∀ c ∈ rest.head?, c.isDigit = false :=
  fun c hc => Bool.eq_false_iff.2 fun h =>
    Bool.eq_false_iff.1 (head_of_atWordEnd hrest c hc) (isWordChar_of_isDigit h)

/-- How the text of an integer is read. -/
def intLiteral (number : Int) : IntLiteral :=
  ⟨decide (number < 0), .decimal, (toString number.natAbs).toList⟩

theorem toList_toString_negSucc (n : Nat) :
    (toString (Int.negSucc n)).toList = '-' :: (toString (n + 1)).toList := by
  show ("-" ++ toString (n + 1)).toList = _
  rw [String.toList_append]
  rfl

theorem intLiteral_spelled (number : Int) : (intLiteral number).Spelled :=
  ⟨toString_ne_nil _, isDigit_toString _⟩

theorem toList_intLiteral (number : Int) : (intLiteral number).text.toList = (toString number).toList := by
  rw [IntLiteral.toList_text]
  cases number with
  | ofNat n => rfl
  | negSucc n =>
    rw [toList_toString_negSucc, intLiteral, decide_eq_true (Int.negSucc_lt_zero n)]
    rfl

theorem scanInteger_toString (number : Int) (hrest : atWordEnd rest = true) :
    scanInteger ((toString number).toList ++ rest) =
      some (intLiteral number, (toString number).toList.length) := by
  rw [← toList_intLiteral]
  exact (intLiteral_spelled number).scan hrest

theorem value?_intLiteral (number : Int64) : (intLiteral number.toInt).value? = some number := by
  have hdigits : (intLiteral number.toInt).magnitude = number.toInt.natAbs := by
    show digitsValue 10 (toString number.toInt.natAbs).toList = _
    rw [toList_toString, digitsValue_toDigits]
  have hlt := number.toInt_lt
  have hle := number.le_toInt
  have hnumber : (if (intLiteral number.toInt).negative then -(number.toInt.natAbs : Int)
      else (number.toInt.natAbs : Int)) = number.toInt := by
    simp only [intLiteral, decide_eq_true_eq]
    split <;> omega
  unfold IntLiteral.value?
  rw [hdigits, if_pos (by show _ < 2 ^ 64; omega), hnumber, Int64.ofInt_toInt]

end

/-! ### Strings -/

section
variable {rest : List Char}

/-- A character is written as it stands, or with a backslash before a character that brings it back. -/
theorem escapeChar_cases (c : Char) :
    (∃ d, escapeChar c = ['\\', d] ∧ unescapeChar d = some c) ∨
      (escapeChar c = [c] ∧ c ≠ '"' ∧ c ≠ '\\' ∧ c ≠ '\n') := by
  by_cases hbackslash : c = '\\'
  · subst hbackslash
    exact .inl ⟨'\\', rfl, rfl⟩
  by_cases hquote : c = '"'
  · subst hquote
    exact .inl ⟨'"', rfl, rfl⟩
  by_cases hline : c = '\n'
  · subst hline
    exact .inl ⟨'n', rfl, rfl⟩
  by_cases htab : c = '\t'
  · subst htab
    exact .inl ⟨'t', rfl, rfl⟩
  refine .inr ⟨?_, hquote, hbackslash, hline⟩
  rw [escapeChar, if_neg hbackslash, if_neg hquote, if_neg hline, if_neg htab]

theorem quotedBody_cons {c : Char} (hquote : c ≠ '"') (hbackslash : c ≠ '\\') (hline : c ≠ '\n')
    (cs : List Char) : quotedBody (c :: cs) = (quotedBody cs).map (c :: ·) := by
  rw [quotedBody]
  · rw [if_neg (by simp [hbackslash, hline])]
  · exact fun h => absurd h hquote
  · exact fun _ _ h => absurd h hbackslash

theorem quotedBody_escape (cs : List Char) :
    quotedBody (cs.flatMap escapeChar ++ '"' :: rest) = some (cs.flatMap escapeChar) := by
  induction cs with
  | nil => rfl
  | cons c cs ih =>
    rw [List.flatMap_cons, List.append_assoc]
    rcases escapeChar_cases c with ⟨d, hd, -⟩ | ⟨hsame, hquote, hbackslash, hline⟩
    · rw [hd]
      show (quotedBody (cs.flatMap escapeChar ++ '"' :: rest)).map ('\\' :: d :: ·) = _
      rw [ih]
      rfl
    · rw [hsame]
      show quotedBody (c :: (cs.flatMap escapeChar ++ '"' :: rest)) = _
      rw [quotedBody_cons hquote hbackslash hline, ih]
      rfl

theorem unescape_escape (cs : List Char) : unescape (cs.flatMap escapeChar) = .ok cs := by
  induction cs with
  | nil => rfl
  | cons c cs ih =>
    rw [List.flatMap_cons]
    rcases escapeChar_cases c with ⟨d, hd, hback⟩ | ⟨hsame, -, hbackslash, -⟩
    · rw [hd]
      show unescape ('\\' :: d :: cs.flatMap escapeChar) = _
      rw [unescape, hback, ih]
      rfl
    · rw [hsame]
      show unescape (c :: cs.flatMap escapeChar) = _
      rw [unescape, ih]
      · rfl
      · exact fun h _ => absurd h hbackslash
      · exact fun _ _ h => absurd h hbackslash

theorem toList_quoted (text : String) :
    (quoted text).toList = '"' :: (text.toList.flatMap escapeChar ++ ['"']) := by
  simp [quoted, escape]

theorem scanString_quoted (text : String) :
    scanString ((quoted text).toList ++ rest) =
      some ((escape text).toList, (quoted text).toList.length) := by
  rw [toList_quoted, List.cons_append, List.append_assoc, scanString]
  show (quotedBody (text.toList.flatMap escapeChar ++ '"' :: rest)).map _ = _
  rw [quotedBody_escape, escape, String.toList_ofList]
  simp

end

/-! ### Code -/

theorem codeBody_of_open {cs : List Char} (h : ¬['}', ']'] <:+: cs) (rest : List Char) :
    codeBody (cs ++ '}' :: ']' :: rest) = some cs := by
  induction cs with
  | nil => rfl
  | cons c cs ih =>
    have htail : ¬['}', ']'] <:+: cs := fun hin => h (hin.trans (List.suffix_cons c cs).isInfix)
    rw [List.cons_append, codeBody, ih htail]
    · rfl
    · rintro after rfl hafter
      cases cs with
      | nil => cases hafter
      | cons d ds => exact h ⟨[], ds, by rw [(List.cons.inj hafter).1]; rfl⟩

theorem toList_code (text : String) :
    (Value.code text).text.toList = '[' :: '\x7b' :: (text.toList ++ ['}', ']']) := by
  simp [Value.text]

theorem scanCode_open {text : String} (h : ¬['}', ']'] <:+: text.toList) (rest : List Char) :
    scanCode ((Value.code text).text.toList ++ rest) =
      some (text.toList, (Value.code text).text.toList.length) := by
  rw [toList_code, List.cons_append, List.cons_append, List.append_assoc, scanCode]
  show (codeBody (text.toList ++ '}' :: ']' :: rest)).map _ = _
  rw [codeBody_of_open h]
  simp

end TypedRecords
