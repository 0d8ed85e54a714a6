import TypedRecords.Proofs.Reading.Words

/-!
# Whole words

What keywords and identifiers are read wherever reading stands. The word there is the longest run of letters,
digits and underscores, and everything is decided by that word alone (`Parser.reads_whole_words`).
-/

namespace TypedRecords

/-- The longest run of letters, digits and underscores at the head of a text. -/
def wordAt (cs : List Char) : List Char := cs.takeWhile isWordChar

section
variable {cs : List Char}

theorem isWordChar_of_mem_wordAt (cs : List Char) : ∀ c ∈ wordAt cs, isWordChar c = true :=
  List.all_eq_true.1 List.all_takeWhile

theorem wordAt_append_dropWhile (cs : List Char) : wordAt cs ++ cs.dropWhile isWordChar = cs :=
  List.takeWhile_append_dropWhile

theorem wordAt_begins (cs : List Char) : wordAt cs <+: cs := List.takeWhile_prefix isWordChar

/-- No run of such characters is longer. -/
theorem length_le_wordAt {run : List Char} (hbegins : run <+: cs) (hrun : ∀ c ∈ run, isWordChar c = true) :
    run.length ≤ (wordAt cs).length := by
  have hsplit : run <+: wordAt cs ++ cs.dropWhile isWordChar := by rwa [wordAt_append_dropWhile]
  have hword : run.isPrefixOf (wordAt cs ++ cs.dropWhile isWordChar) = run.isPrefixOf (wordAt cs) :=
    isPrefixOf_word hrun (atWordEnd_dropWhile cs)
  rw [List.isPrefixOf_iff_prefix.2 hsplit] at hword
  exact (List.isPrefixOf_iff_prefix.1 hword.symm).length_le

theorem isWordStart_iff {c : Char} : isWordStart c = true ↔ isWordChar c = true ∧ c.isDigit = false := by
  refine ⟨fun h => ⟨isWordChar_of_isWordStart h, isDigit_of_isWordStart h⟩, fun ⟨hchar, hdigit⟩ => ?_⟩
  simpa [isWordChar, isWordStart, Char.isAlphanum, hdigit] using hchar

/-- An identifier, told by its word. -/
theorem isIdentifier_word {name : String} (hname : name.toList = wordAt cs) :
    IsIdentifier name ↔ wordAt cs ≠ [] ∧ (∀ c ∈ (wordAt cs).head?, c.isDigit = false) ∧
      ∀ k : Keyword, k.text ≠ name := by
  constructor
  · intro h
    refine ⟨hname ▸ h.ne_nil, fun c hc => ?_, h.noKeyword⟩
    obtain ⟨d, hd, hstart⟩ := h.start
    rw [hname] at hd
    obtain rfl : d = c := Option.some.inj (hd.symm.trans hc)
    exact isDigit_of_isWordStart hstart
  · rintro ⟨hne, hdigit, hkeyword⟩
    obtain ⟨c, rest, hword⟩ := List.exists_cons_of_ne_nil hne
    have hhead : (wordAt cs).head? = some c := by rw [hword, List.head?_cons]
    have hchar : isWordChar c = true := isWordChar_of_mem_wordAt cs c (hword ▸ List.mem_cons_self ..)
    refine ⟨hname ▸ isWordChar_of_mem_wordAt cs, ⟨c, hname ▸ hhead, ?_⟩, hkeyword⟩
    exact isWordStart_iff.2 ⟨hchar, hdigit c hhead⟩

end

/-! ### What the scanners find -/

section
variable {cs : List Char} {n : Nat}

theorem scanKeyword_eq_some {k : Keyword} {u : Unit} :
    scanKeyword k cs = some (u, n) ↔ k.text.toList = wordAt cs ∧ n = (wordAt cs).length := by
  have hscan := scanKeyword_word (isWordChar_of_mem_wordAt cs) (atWordEnd_dropWhile cs) k
  rw [wordAt_append_dropWhile] at hscan
  rw [hscan]
  by_cases hk : k.text.toList = wordAt cs
  · rw [if_pos hk, Option.some_inj, Prod.mk.injEq]
    exact ⟨fun h => ⟨hk, h.2.symm⟩, fun h => ⟨rfl, h.2.symm⟩⟩
  · rw [if_neg hk]
    exact ⟨nofun, fun h => absurd h.1 hk⟩

/-- The word is a keyword where the first keyword that begins the text ends with the word: a shorter one
in front of it in the list would hide it. -/
theorem scanAnyKeyword_eq_some {k : Keyword} :
    scanAnyKeyword cs = some (k, n) ↔ k.text.toList = wordAt cs ∧ n = (wordAt cs).length := by
  have hfound : ∀ other : Keyword, other.text.toList = wordAt cs →
      scanAnyKeyword cs = some (other, (wordAt cs).length) := by
    intro other hother
    have hscan := scanAnyKeyword_text other (atWordEnd_dropWhile cs)
    rwa [hother, wordAt_append_dropWhile] at hscan
  constructor
  · intro h
    by_cases hword : ∃ other : Keyword, other.text.toList = wordAt cs
    · obtain ⟨other, hother⟩ := hword
      obtain ⟨rfl, rfl⟩ := Prod.mk.inj (Option.some.inj ((hfound other hother).symm.trans h))
      exact ⟨hother, rfl⟩
    · have hnone := scanAnyKeyword_word (isWordChar_of_mem_wordAt cs) (atWordEnd_dropWhile cs)
        fun other hother => hword ⟨other, hother⟩
      rw [wordAt_append_dropWhile] at hnone
      cases hnone.symm.trans h
  · rintro ⟨hk, rfl⟩
    exact hfound k hk

theorem word_of_scanIdentifier {name : String} (h : scanIdentifier cs = some (name, n)) :
    name.toList = wordAt cs ∧ n = (wordAt cs).length := by
  unfold scanIdentifier at h
  split at h
  · cases h
  · split at h
    · cases h
    · rename_i c rest _
      split at h
      · rename_i hstart
        have hword : wordAt (c :: rest) = c :: rest.takeWhile isWordChar :=
          List.takeWhile_cons_of_pos (isWordChar_of_isWordStart hstart)
        obtain ⟨rfl, rfl⟩ := Prod.mk.inj (Option.some.inj h)
        rw [hword]
        exact ⟨String.toList_ofList, rfl⟩
      · cases h

theorem scanIdentifier_eq_some {name : String} : scanIdentifier cs = some (name, n) ↔
    IsIdentifier name ∧ name.toList = wordAt cs ∧ n = (wordAt cs).length := by
  constructor
  · exact fun h => ⟨.of_scan h, word_of_scanIdentifier h⟩
  · rintro ⟨hname, hword, rfl⟩
    have hscan := hname.scan (atWordEnd_dropWhile cs)
    rwa [hword, wordAt_append_dropWhile] at hscan

end

/-! ### What the parsers read -/

namespace Parser

/-- At every place of every text the word there decides: some keyword is found where it is one of the keywords,
each keyword is read where it is just that one, and an identifier where it is neither empty nor a keyword and
does not begin with a digit. What is read is the whole word each time. -/
theorem reads_whole_words (c : Cursor) :
    (wordAt c.rest <+: c.rest ∧ (∀ d ∈ wordAt c.rest, isWordChar d = true) ∧
      ∀ run, run <+: c.rest → (∀ d ∈ run, isWordChar d = true) → run.length ≤ (wordAt c.rest).length) ∧
    (∀ (k : Keyword) (n : Nat), scanAnyKeyword c.rest = some (k, n) ↔
      k.text.toList = wordAt c.rest ∧ n = (wordAt c.rest).length) ∧
    (∀ (k : Keyword) (c' : Cursor), (keyword k c).outcome = some ((), c') ↔
      k.text.toList = wordAt c.rest ∧ c' = c.advance (wordAt c.rest).length) ∧
    ∀ (name : String) (c' : Cursor), (identifier c).outcome = some (name, c') ↔
      name.toList = wordAt c.rest ∧ c' = c.advance (wordAt c.rest).length ∧
      wordAt c.rest ≠ [] ∧ (∀ d ∈ (wordAt c.rest).head?, d.isDigit = false) ∧
      ∀ k : Keyword, k.text ≠ name := by
  refine ⟨⟨wordAt_begins _, isWordChar_of_mem_wordAt _, fun run => length_le_wordAt⟩,
    fun k n => scanAnyKeyword_eq_some, fun k c' => ?keyword, fun name c' => ?identifier⟩
  case keyword =>
    rw [keyword, token_outcome]
    constructor
    · rintro ⟨n, hscan, rfl⟩
      obtain ⟨hk, rfl⟩ := scanKeyword_eq_some.1 hscan
      exact ⟨hk, rfl⟩
    · rintro ⟨hk, rfl⟩
      exact ⟨_, scanKeyword_eq_some.2 ⟨hk, rfl⟩, rfl⟩
  case identifier =>
    rw [identifier, token_outcome]
    constructor
    · rintro ⟨n, hscan, rfl⟩
      obtain ⟨hname, hword, rfl⟩ := scanIdentifier_eq_some.1 hscan
      exact ⟨hword, rfl, (isIdentifier_word hword).1 hname⟩
    · rintro ⟨hword, rfl, hname⟩
      exact ⟨_, scanIdentifier_eq_some.2 ⟨(isIdentifier_word hword).2 hname, hword, rfl⟩, rfl⟩

end Parser
end TypedRecords
