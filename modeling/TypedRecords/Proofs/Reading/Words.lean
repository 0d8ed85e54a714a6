import TypedRecords.Syntax.Word
import TypedRecords.Proofs.Reading.Parsers

/-!
# Reading words

Keywords and identifiers are read by whole words: of the word at the head of a text, a keyword is read
where it is just that word, and an identifier where it is no keyword. So neither is ever read from a part
of a word.
-/

namespace TypedRecords

/-- The name is a word that can stand for something: it does not begin with a digit and is no keyword. -/
structure IsIdentifier (name : String) : Prop where
  chars : ∀ c ∈ name.toList, isWordChar c = true
  start : ∃ c ∈ name.toList.head?, isWordStart c = true
  noKeyword : ∀ k : Keyword, k.text ≠ name

theorem Solid.of_isWordChar {c : Char} (h : isWordChar c = true) (rest : List Char) :
    Solid (c :: rest) := by
  refine .cons (Bool.eq_false_iff.2 fun hblank => ?_) (fun hslash => ?_) rest
  · have hc : ((c = ' ' ∨ c = '\t') ∨ c = '\r') ∨ c = '\n' := by simpa [isBlank] using hblank
    rcases hc with ((rfl | rfl) | rfl) | rfl <;> revert h <;> decide
  · subst hslash
    revert h
    decide

theorem isDigit_of_isWordStart {c : Char} (h : isWordStart c = true) : c.isDigit = false := by
  have halpha : c.isAlpha = (decide ('A'.val ≤ c.val ∧ c.val ≤ 'Z'.val) ||
      decide ('a'.val ≤ c.val) && decide (c.val ≤ 'z'.val)) := rfl
  have hdigit : c.isDigit = (decide ('0'.val ≤ c.val) && decide (c.val ≤ '9'.val)) := rfl
  rw [isWordStart, Bool.or_eq_true, halpha] at h
  rcases h with hletter | hline
  · rw [hdigit]
    grind
  · rw [eq_of_beq hline]
    rfl

theorem IsIdentifier.exists_cons {name : String} (h : IsIdentifier name) :
    ∃ c cs, name.toList = c :: cs ∧ isWordStart c = true := by
  obtain ⟨c, hc, hstart⟩ := h.start
  obtain ⟨cs, hcs⟩ := List.head?_eq_some_iff.1 hc
  exact ⟨c, cs, hcs, hstart⟩

theorem IsIdentifier.ne_nil {name : String} (h : IsIdentifier name) : name.toList ≠ [] := by
  obtain ⟨c, cs, hcs, -⟩ := h.exists_cons
  exact hcs ▸ List.cons_ne_nil c cs

section
variable {word rest : List Char}

theorem Solid.of_word (hne : word ≠ []) (hword : ∀ c ∈ word, isWordChar c = true) :
    Solid (word ++ rest) := by
  obtain ⟨c, cs, rfl⟩ := List.exists_cons_of_ne_nil hne
  exact .of_isWordChar (hword c (List.mem_cons_self ..)) _

theorem atWordEnd_append (hword : ∀ c ∈ word, isWordChar c = true) (hrest : atWordEnd rest = true) :
    atWordEnd (word ++ rest) = true ↔ word = [] := by
  cases word with
  | nil => exact ⟨fun _ => rfl, fun _ => hrest⟩
  | cons c cs =>
    refine ⟨fun h => ?_, nofun⟩
    have hc : isWordChar c = true := hword c (List.mem_cons_self ..)
    rw [List.cons_append, atWordEnd, hc] at h
    cases h

/-- What begins with a word at the end of which the text goes on without one begins the word itself. -/
theorem isPrefixOf_word {other : List Char} (hother : ∀ c ∈ other, isWordChar c = true)
    (hrest : atWordEnd rest = true) : other.isPrefixOf (word ++ rest) = other.isPrefixOf word := by
  rw [Bool.eq_iff_iff, List.isPrefixOf_iff_prefix, List.isPrefixOf_iff_prefix]
  refine ⟨fun h => ?_, fun h => h.trans (List.prefix_append ..)⟩
  rcases List.prefix_or_prefix_of_prefix h (List.prefix_append word rest) with h' | ⟨more, rfl⟩
  · exact h'
  -- the other text would go on behind the word
  · cases more with
    | nil => exact (List.append_nil word).symm ▸ List.prefix_rfl
    | cons c cs =>
      obtain ⟨after, rfl⟩ := (List.prefix_append_right_inj word).1 h
      have hc : isWordChar c = true := hother c (by simp)
      rw [List.cons_append, atWordEnd, hc] at hrest
      cases hrest

end

/-! ### Keywords -/

namespace Keyword

theorem chars_text (k : Keyword) : ∀ c ∈ k.text.toList, isWordChar c = true :=
  List.all_eq_true.1 (by cases k <;> rfl)

end Keyword

section
variable {word rest : List Char} (hword : ∀ c ∈ word, isWordChar c = true)
  (hrest : atWordEnd rest = true)
include hword hrest

theorem atWordEnd_drop {text : List Char} (h : text.isPrefixOf word = true) :
    atWordEnd ((word ++ rest).drop text.length) = true ↔ text = word := by
  obtain ⟨more, rfl⟩ := List.isPrefixOf_iff_prefix.1 h
  rw [List.append_assoc, List.drop_left, atWordEnd_append (fun c hc => hword c (by simp [hc])) hrest]
  simp

theorem scanKeyword_word (k : Keyword) :
    scanKeyword k (word ++ rest) = if k.text.toList = word then some ((), word.length) else none := by
  unfold scanKeyword
  dsimp only
  rw [isPrefixOf_word k.chars_text hrest]
  by_cases hbegins : k.text.toList.isPrefixOf word = true
  · have hend := atWordEnd_drop hword hrest hbegins
    by_cases hk : k.text.toList = word
    · rw [hbegins, hend.2 hk, if_pos hk, hk]
      rfl
    · rw [hbegins, Bool.eq_false_iff.2 (mt hend.1 hk), if_neg hk]
      rfl
  · have hk : k.text.toList ≠ word := by
      rintro rfl
      exact hbegins (List.isPrefixOf_iff_prefix.2 List.prefix_rfl)
    rw [Bool.eq_false_iff.2 hbegins, if_neg hk]
    rfl

theorem scanAnyKeyword_word (hnone : ∀ k : Keyword, k.text.toList ≠ word) :
    scanAnyKeyword (word ++ rest) = none := by
  unfold scanAnyKeyword
  cases hfind : Keyword.all.find? fun k => k.text.toList.isPrefixOf (word ++ rest) with
  | none => rfl
  | some k =>
    have hbegins : k.text.toList.isPrefixOf word = true := by
      rw [← isPrefixOf_word k.chars_text hrest]
      simpa using List.find?_some hfind
    have hend := mt (atWordEnd_drop hword hrest hbegins).1 (hnone k)
    dsimp only
    rw [Bool.eq_false_iff.2 hend]
    rfl

end

/-- A keyword that begins another one does not hide it. -/
theorem Keyword.find?_text (k : Keyword) :
    Keyword.all.find? (fun other => other.text.toList.isPrefixOf k.text.toList) = some k := by
  cases k <;> decide

theorem scanAnyKeyword_text (k : Keyword) {rest : List Char} (hrest : atWordEnd rest = true) :
    scanAnyKeyword (k.text.toList ++ rest) = some (k, k.text.toList.length) := by
  unfold scanAnyKeyword
  have hfind : Keyword.all.find? (fun other => other.text.toList.isPrefixOf (k.text.toList ++ rest)) =
      some k := by
    rw [← k.find?_text]
    exact congrArg (List.find? · _) (funext fun other => isPrefixOf_word other.chars_text hrest)
  rw [hfind]
  dsimp only
  rw [List.drop_left, if_pos hrest]

/-! ### Identifiers -/

theorem takeWhile_append {p : Char → Bool} {cs rest : List Char} (hcs : ∀ c ∈ cs, p c = true)
    (hrest : ∀ c ∈ rest.head?, p c = false) : (cs ++ rest).takeWhile p = cs := by
  rw [List.takeWhile_append_of_pos hcs]
  cases rest with
  | nil => exact List.append_nil cs
  | cons c rest => rw [List.takeWhile_cons, hrest c rfl, if_neg Bool.false_ne_true, List.append_nil]

theorem head_of_atWordEnd {rest : List Char} (h : atWordEnd rest = true) :
    ∀ c ∈ rest.head?, isWordChar c = false := by
  cases rest with
  | nil => nofun
  | cons c rest => exact fun d hd => Option.some.inj hd ▸ Bool.not_eq_true' _ ▸ h

theorem IsIdentifier.scan {name : String} (h : IsIdentifier name) {rest : List Char}
    (hrest : atWordEnd rest = true) :
    scanIdentifier (name.toList ++ rest) = some (name, name.toList.length) := by
  have hnone : ∀ k : Keyword, k.text.toList ≠ name.toList := fun k hk =>
    h.noKeyword k (String.toList_inj.1 hk)
  unfold scanIdentifier
  rw [scanAnyKeyword_word h.chars hrest hnone]
  obtain ⟨c, cs, hcs, hstart⟩ := h.exists_cons
  have hword : ∀ d ∈ cs, isWordChar d = true := fun d hd => h.chars d (by simp [hcs, hd])
  have hofList : String.ofList (c :: cs) = name := by rw [← hcs, String.ofList_toList]
  rw [hcs]
  simp only [List.cons_append, hstart, if_true, takeWhile_append hword (head_of_atWordEnd hrest), hofList]

theorem isWordChar_of_isWordStart {c : Char} (h : isWordStart c = true) : isWordChar c = true := by
  simp only [isWordStart, isWordChar, Char.isAlphanum, Bool.or_eq_true] at h ⊢
  exact h.elim (fun h => .inl (.inl h)) .inr

theorem atWordEnd_dropWhile (cs : List Char) : atWordEnd (cs.dropWhile isWordChar) = true := by
  cases h : cs.dropWhile isWordChar with
  | nil => rfl
  | cons c rest =>
    have hne : cs.dropWhile isWordChar ≠ [] := h ▸ List.cons_ne_nil c rest
    have hc := List.head_dropWhile_not isWordChar hne
    simpa only [h, List.head_cons, atWordEnd, Bool.not_eq_true'] using hc

/-- Only identifiers are read as identifiers. -/
theorem IsIdentifier.of_scan {cs : List Char} {name : String} {n : Nat}
    (h : scanIdentifier cs = some (name, n)) : IsIdentifier name := by
  unfold scanIdentifier at h
  cases hk : scanAnyKeyword cs with
  | some k =>
    rw [hk] at h
    cases h
  | none =>
    rw [hk] at h
    cases cs with
    | nil => cases h
    | cons c cs =>
      dsimp only at h
      split at h
      · rename_i hstart
        obtain ⟨rfl, rfl⟩ := Prod.mk.inj (Option.some.inj h)
        have hword : ∀ d ∈ c :: cs.takeWhile isWordChar, isWordChar d = true :=
          List.forall_mem_cons.2 ⟨isWordChar_of_isWordStart hstart, List.all_eq_true.1 List.all_takeWhile⟩
        have hcs : c :: cs = (c :: cs.takeWhile isWordChar) ++ cs.dropWhile isWordChar := by
          rw [List.cons_append, List.takeWhile_append_dropWhile]
        refine ⟨?_, ⟨c, ?_, hstart⟩, fun k hname => ?_⟩
        · rwa [String.toList_ofList]
        · rw [String.toList_ofList]
          rfl
        · have htext : k.text.toList = c :: cs.takeWhile isWordChar := by rw [hname, String.toList_ofList]
          rw [hcs, ← htext, scanAnyKeyword_text k (atWordEnd_dropWhile cs)] at hk
          cases hk
      · cases h

theorem isIdentifier_iff {name : String} :
    IsIdentifier name ↔ scanIdentifier name.toList = some (name, name.toList.length) := by
  refine ⟨fun h => ?_, .of_scan⟩
  have hscan := h.scan (show atWordEnd [] = true from rfl)
  rwa [List.append_nil] at hscan

instance (name : String) : Decidable (IsIdentifier name) := decidable_of_iff _ isIdentifier_iff.symm

namespace Parser
variable {α : Type} {rest : List Char}

theorem Reads.keyword (k : Keyword) (hrest : atWordEnd rest = true) :
    (Parser.keyword k).Reads k.text.toList rest fun _ => True := by
  refine .token (a := ()) ?_ trivial
  rw [scanKeyword_word k.chars_text hrest, if_pos rfl]

theorem Refuses.keyword {word : List Char} (hword : ∀ c ∈ word, isWordChar c = true)
    (hrest : atWordEnd rest = true) {k : Keyword} (hk : k.text.toList ≠ word) :
    (Parser.keyword k).Refuses (word ++ rest) := by
  refine .token ?_
  rw [scanKeyword_word hword hrest, if_neg hk]

theorem Reads.identifier {name : String} (h : IsIdentifier name) (hrest : atWordEnd rest = true) :
    Parser.identifier.Reads name.toList rest (· = name) :=
  .token (h.scan hrest) rfl

end Parser
end TypedRecords
