import TypedRecords.Proofs.Reading.Literals
import TypedRecords.Proofs.RuleFile.Matching

/-!
# Tokens of the rule file

The rules that read character by character, and the blanks, match just what the scanners find. No piece is
read in a token, so a scanner is told by how far the cursor moves (`Pattern.Scans`).
-/

namespace TypedRecords

namespace Pattern
variable {α : Type} {p q : Pattern} {c d : Cursor} {r : Option (List Piece × Cursor)}

/-- What stands behind a part without pieces decides. -/
theorem Matches.behind (hp : p.Matches c (some ([], d))) (hq : q.Matches d r) : (p ++ q).Matches c r := by
  rcases r with _ | ⟨qs, e⟩
  · exact .notSecond hp hq
  · exact .seq hp hq

/-! ### Single characters -/

/-- The pattern reads one character, of the class and no other. -/
structure Takes (p : Pattern) (accepts : Char → Bool) : Prop where
  takes {x : Char} (hx : accepts x = true) (xs : List Char) (place : Location) :
    p.Matches ⟨x :: xs, place⟩ (some ([], ⟨xs, place.advance x⟩))
  refuses {c : Cursor} (hc : ∀ x ∈ c.rest.head?, accepts x = false) : p.Matches c none

namespace Takes
variable {accepts accepts' : Char → Bool}

theorem refuses_nil (h : p.Takes accepts) (place : Location) : p.Matches ⟨[], place⟩ none :=
  h.refuses nofun

theorem one (accepts : Char → Bool) : (Pattern.one accepts).Takes accepts :=
  ⟨fun hx _ _ => .one rfl hx, .notOne⟩

theorem text {s : String} {x : Char} (hs : s.toList = [x]) : (Pattern.text s).Takes (· == x) := by
  refine ⟨fun {y} hy ys place => ?_, fun {c} hc => .noText fun hbegins => ?_⟩
  · have hmatch : (Pattern.text s).Matches ⟨y :: ys, place⟩ _ :=
      .text (hs ▸ beq_iff_eq.1 hy ▸ List.prefix_append [y] ys)
    rwa [hs] at hmatch
  · obtain ⟨rest, hrest⟩ := hbegins
    rw [hs] at hrest
    rw [← hrest] at hc
    exact absurd (hc x rfl) (by simp)

theorem choice (hp : p.Takes accepts) (hq : q.Takes accepts') :
    (p <|> q).Takes fun x => accepts x || accepts' x := by
  refine ⟨fun {x} hx xs place => ?_, fun hc => ?_⟩
  · cases haccepts : accepts x with
    | true => exact .choice (hp.takes haccepts xs place)
    | false =>
      rw [haccepts, Bool.false_or] at hx
      exact .otherwise (hp.refuses fun _ hy => Option.some.inj hy ▸ haccepts) (hq.takes hx xs place)
  · have hnone := fun x hx => Bool.or_eq_false_iff.1 (hc x hx)
    exact .otherwise (hp.refuses fun x hx => (hnone x hx).1) (hq.refuses fun x hx => (hnone x hx).2)

theorem congr (h : p.Takes accepts) (heq : ∀ x, accepts x = accepts' x) : p.Takes accepts' :=
  (funext heq : accepts = accepts') ▸ h

/-- Repeated, the pattern reads the longest run of such characters. -/
theorem many (h : p.Takes accepts) (c : Cursor) :
    (Pattern.many p).Matches c (some ([], c.advance (c.rest.takeWhile accepts).length)) := by
  rcases c with ⟨cs, place⟩
  induction cs generalizing place with
  | nil => exact .noMore (h.refuses_nil place)
  | cons x xs ih =>
    dsimp only at ih ⊢
    rw [List.takeWhile_cons]
    cases hx : accepts x with
    | true => exact .more (h.takes hx xs place) (ih (place.advance x))
    | false => exact .noMore (h.refuses fun _ hy => Option.some.inj hy ▸ hx)

/-- A character of a class behind one of another. -/
theorem word (hp : p.Takes accepts) (hq : q.Takes accepts') {x : Char} (hx : accepts x = true)
    (xs : List Char) (place : Location) : (p ++ Pattern.many q).Matches ⟨x :: xs, place⟩
      (some ([], (Cursor.mk (x :: xs) place).advance ((xs.takeWhile accepts').length + 1))) :=
  .behind (hp.takes hx xs place) (hq.many _)

end Takes

theorem wordChar_takes : wordChar.Takes isWordChar := .choice (.one _) (.text rfl)

theorem wordStart_takes : wordStart.Takes isWordStart := .choice (.one _) (.text rfl)

theorem whitespace_takes : whitespace.Takes isBlank :=
  (Takes.choice (.text (x := ' ') rfl) (.choice (.text (x := '\t') rfl)
    (.choice (.text (x := '\r') rfl) (.text (x := '\n') rfl)))).congr
    fun x => by simp only [isBlank, Bool.or_assoc]

/-- No letter, digit or underscore follows where a word ends. -/
theorem matches_wordEnd (h : atWordEnd c.rest = true) : (avoid wordChar).Matches c (some ([], c)) :=
  .avoid (wordChar_takes.refuses (head_of_atWordEnd h))

theorem matches_noWordEnd (h : atWordEnd c.rest = false) : (avoid wordChar).Matches c none := by
  rcases c with ⟨_ | ⟨x, xs⟩, place⟩
  · cases h
  · have hx : isWordChar x = true := by simpa [atWordEnd] using h
    exact .notAvoid (wordChar_takes.takes hx xs place)

theorem Takes.but {accepts : Char → Bool} (h : p.Takes accepts) : (anyBut p).Takes fun x => !accepts x := by
  refine ⟨fun {x} hx xs place => ?_, fun {c} hc => ?_⟩
  · have hrefused : p.Matches ⟨x :: xs, place⟩ none :=
      h.refuses fun y hy => Option.some.inj hy ▸ Bool.not_eq_true' _ ▸ hx
    exact .behind (.avoid hrefused) ((Takes.one _).takes rfl xs place)
  · rcases c with ⟨_ | ⟨x, xs⟩, place⟩
    · exact .behind (.avoid (h.refuses_nil place)) ((Takes.one _).refuses_nil place)
    · have hx : accepts x = true := by simpa using hc x rfl
      exact .notFirst (.notAvoid (h.takes hx xs place))

/-! ### Repetitions with something behind them -/

theorem Matches.again (hp : p.Matches c (some ([], d))) (h : (many p ++ q).Matches d r) :
    (many p ++ q).Matches c r := by
  cases h with
  | seq hmany hq => exact .seq (.more hp hmany) hq
  | notFirst hmany => cases hmany
  | notSecond hmany hq => exact .notSecond (.more hp hmany) hq

theorem Matches.atEnd (hp : p.Matches c none) (hq : q.Matches c r) : (many p ++ q).Matches c r :=
  .behind (.noMore hp) hq

section
variable {s : String} {x : Char} {xs : List Char} {place : Location}

/-- A character in front of which a text does not stand is passed over on the way to that text. -/
theorem Matches.passing (h : ¬s.toList <+: x :: xs)
    (hrest : (many (anyBut (.text s)) ++ q).Matches ⟨xs, place.advance x⟩ r) :
    (many (anyBut (.text s)) ++ q).Matches ⟨x :: xs, place⟩ r :=
  .again (.behind (.avoid (.noText h)) ((Takes.one _).takes rfl xs place)) hrest

theorem Matches.reached (h : s.toList <+: c.rest) (hq : q.Matches c r) :
    (many (anyBut (.text s)) ++ q).Matches c r :=
  .atEnd (.notFirst (.notAvoid (.text h))) hq

theorem Matches.missed (h : s.toList ≠ []) (hq : q.Matches ⟨[], place⟩ r) :
    (many (anyBut (.text s)) ++ q).Matches ⟨[], place⟩ r :=
  .atEnd (.behind (.avoid (.noText (mt List.prefix_nil.1 h))) ((Takes.one _).refuses_nil place)) hq

end

/-! ### Tokens -/

/-- The pattern matches what the scanner finds, without a piece in it. -/
structure Scans (p : Pattern) (s : Scanner α) : Prop where
  found {c : Cursor} {a : α} {n : Nat} (h : s c.rest = some (a, n)) : p.Matches c (some ([], c.advance n))
  refused {c : Cursor} (h : s c.rest = none) : p.Matches c none

theorem Scans.of_map {s : Scanner α}
    (h : ∀ c, p.Matches c ((s c.rest).map fun found => ([], c.advance found.2))) : p.Scans s := by
  refine ⟨fun {c a n} hs => ?_, fun {c} hs => ?_⟩
  · have hc := h c
    rwa [hs] at hc
  · have hc := h c
    rwa [hs] at hc

theorem Scans.map {β : Type} {s : Scanner α} (h : p.Scans s) (f : α × Nat → β) :
    p.Scans fun cs => (s cs).map fun found => (f found, found.2) := by
  refine ⟨fun {c b n} hs => ?_, fun {c} hs => h.refused (Option.map_eq_none_iff.1 hs)⟩
  obtain ⟨⟨a, m⟩, hfound, heq⟩ := Option.map_eq_some_iff.1 hs
  cases heq
  exact h.found hfound

theorem Scans.orElse {s s' : Scanner α} (hp : p.Scans s) (hq : q.Scans s') :
    (p <|> q).Scans fun cs => (s cs).or (s' cs) := by
  refine ⟨fun {c a n} h => ?_, fun {c} h => ?_⟩
  · cases hs : s c.rest with
    | some found =>
      rw [hs] at h
      cases h
      exact .choice (hp.found hs)
    | none =>
      rw [hs] at h
      exact .otherwise (hp.refused hs) (hq.found h)
  · obtain ⟨hs, hs'⟩ := Option.or_eq_none_iff.1 h
    exact .otherwise (hp.refused hs) (hq.refused hs')

theorem text_scans (s : String) : (text s).Scans (scanText s.toList) := by
  refine ⟨fun {c u n} h => ?_, fun {c} h => ?_⟩
  · obtain ⟨hbegins, heq⟩ := Option.ite_none_right_eq_some.1 h
    obtain ⟨rfl, rfl⟩ := Prod.mk.inj (Option.some.inj heq)
    exact .text (List.isPrefixOf_iff_prefix.1 hbegins)
  · exact .noText fun hbegins => by
      rw [scanText, if_pos (List.isPrefixOf_iff_prefix.2 hbegins)] at h
      cases h

theorem keyword_scans (k : Keyword) : (word k.text).Scans (scanKeyword k) := by
  refine ⟨fun {c u n} h => ?_, fun {c} h => ?_⟩
  · obtain ⟨hscan, heq⟩ := Option.ite_none_right_eq_some.1 h
    obtain ⟨hbegins, hend⟩ := Bool.and_eq_true_iff.1 hscan
    obtain ⟨rfl, rfl⟩ := Prod.mk.inj (Option.some.inj heq)
    exact .behind (.text (List.isPrefixOf_iff_prefix.1 hbegins)) (matches_wordEnd hend)
  · by_cases hbegins : k.text.toList <+: c.rest
    · have hend : atWordEnd (c.rest.drop k.text.toList.length) = false := by
        simpa [scanKeyword, List.isPrefixOf_iff_prefix.2 hbegins] using h
      exact .behind (.text hbegins) (matches_noWordEnd hend)
    · exact .notFirst (.noText hbegins)

/-- The first of some words that the text begins with. -/
def firstOf (k : Keyword) : List Keyword → Pattern
  | [] => text k.text
  | k' :: ks => text k.text <|> firstOf k' ks

theorem keyword_eq : keyword = firstOf .kwInclude Keyword.all.tail ++ avoid wordChar := rfl

theorem firstOf_found {k found : Keyword} {ks : List Keyword}
    (h : (k :: ks).find? (fun k => k.text.toList.isPrefixOf c.rest) = some found) :
    (firstOf k ks).Matches c (some ([], c.advance found.text.toList.length)) := by
  induction ks generalizing k with
  | nil =>
    obtain ⟨hbegins, rfl⟩ := by simpa using h
    exact .text hbegins
  | cons k' ks ih =>
    rw [List.find?_cons] at h
    split at h
    · rename_i hbegins
      cases h
      exact .choice (.text (List.isPrefixOf_iff_prefix.1 hbegins))
    · rename_i hbegins
      exact .otherwise (.noText (mt List.isPrefixOf_iff_prefix.2 (Bool.eq_false_iff.1 hbegins))) (ih h)

theorem firstOf_refused {k : Keyword} {ks : List Keyword}
    (h : (k :: ks).find? (fun k => k.text.toList.isPrefixOf c.rest) = none) :
    (firstOf k ks).Matches c none := by
  have hnone : ∀ k' ∈ k :: ks, ¬k'.text.toList <+: c.rest := fun k' hk' => by
    simpa using List.find?_eq_none.1 h k' hk'
  clear h
  induction ks generalizing k with
  | nil => exact .noText (hnone k (List.mem_cons_self ..))
  | cons k' ks ih =>
    obtain ⟨hk, hks⟩ := List.forall_mem_cons.1 hnone
    exact .otherwise (.noText hk) (ih hks)

theorem anyKeyword_scans : keyword.Scans scanAnyKeyword := by
  rw [keyword_eq]
  refine ⟨fun {c k n} h => ?_, fun {c} h => ?_⟩
  · unfold scanAnyKeyword at h
    split at h
    · cases h
    · rename_i found hfound
      obtain ⟨hend, heq⟩ := Option.ite_none_right_eq_some.1 h
      obtain ⟨rfl, rfl⟩ := Prod.mk.inj (Option.some.inj heq)
      exact .behind (firstOf_found hfound) (matches_wordEnd hend)
  · unfold scanAnyKeyword at h
    split at h
    · rename_i hfound
      exact .notFirst (firstOf_refused hfound)
    · rename_i found hfound
      have hend : atWordEnd (c.rest.drop found.text.toList.length) = false := by simpa using h
      exact .behind (firstOf_found hfound) (matches_noWordEnd hend)

theorem identifier_scans : Rule.identifier.pattern.Scans scanIdentifier := by
  refine ⟨fun {c name n} h => ?_, fun {c} h => ?_⟩
  · unfold scanIdentifier at h
    split at h
    · cases h
    · rename_i hkeyword
      refine .behind (.avoid (anyKeyword_scans.refused hkeyword)) ?_
      rcases c with ⟨_ | ⟨x, xs⟩, place⟩
      · cases h
      · obtain ⟨hx, heq⟩ := Option.ite_none_right_eq_some.1 h
        obtain ⟨-, rfl⟩ := Prod.mk.inj (Option.some.inj heq)
        exact wordStart_takes.word wordChar_takes hx xs place
  · unfold scanIdentifier at h
    split at h
    · rename_i hkeyword
      exact .notFirst (.notAvoid (anyKeyword_scans.found hkeyword))
    · rename_i hkeyword
      refine .behind (.avoid (anyKeyword_scans.refused hkeyword)) (.notFirst ?_)
      rcases c with ⟨_ | ⟨x, xs⟩, place⟩
      · exact wordStart_takes.refuses_nil place
      · have hx : isWordStart x = false := by simpa using h
        exact wordStart_takes.refuses fun y hy => Option.some.inj hy ▸ hx

/-- At least one digit, and as many as there are. -/
theorem digits_scans (accepts : Char → Bool) : (digits accepts).Scans fun cs =>
    if (cs.takeWhile accepts).isEmpty then none
    else some (cs.takeWhile accepts, (cs.takeWhile accepts).length) := by
  have hone := Takes.one accepts
  refine ⟨fun {c ds n} h => ?_, fun {c} h => ?_⟩
  · rcases c with ⟨_ | ⟨x, xs⟩, place⟩
    · cases h
    · rw [List.takeWhile_cons] at h
      cases hx : accepts x with
      | false => rw [hx] at h; cases h
      | true =>
        rw [hx] at h
        cases h
        exact hone.word hone hx xs place
  · rcases c with ⟨_ | ⟨x, xs⟩, place⟩
    · exact .notFirst (hone.refuses_nil place)
    · rw [List.takeWhile_cons] at h
      cases hx : accepts x with
      | false => exact .notFirst (hone.refuses fun y hy => Option.some.inj hy ▸ hx)
      | true => rw [hx] at h; cases h

/-! ### Integers -/

theorem marked_scans (radix : Radix) :
    (text radix.mark ++ digits radix.isDigit).Scans (scanDigits radix) := by
  refine ⟨fun {c ds n} h => ?_, fun {c} h => ?_⟩
  · obtain ⟨hbegins, h⟩ := Option.ite_none_right_eq_some.1 h
    obtain ⟨hne, heq⟩ := Option.ite_none_left_eq_some.1 h
    obtain ⟨rfl, rfl⟩ := Prod.mk.inj (Option.some.inj heq)
    refine .behind (.text (List.isPrefixOf_iff_prefix.1 hbegins)) ?_
    rw [← Cursor.advance_advance]
    exact (digits_scans radix.isDigit).found (if_neg hne)
  · by_cases hbegins : radix.mark.toList <+: c.rest
    · refine .behind (.text hbegins) ((digits_scans radix.isDigit).refused ?_)
      simpa [scanDigits, List.isPrefixOf_iff_prefix.2 hbegins, Cursor.advance] using h
    · exact .notFirst (.noText hbegins)

/-- Decimal digits have no mark. -/
theorem unmarked_scans : (digits Char.isDigit).Scans (scanDigits .decimal) := by
  have hdigit : Radix.decimal.isDigit = Char.isDigit := rfl
  have h : ∀ cs, scanDigits .decimal cs = if (cs.takeWhile Char.isDigit).isEmpty then none
      else some (cs.takeWhile Char.isDigit, (cs.takeWhile Char.isDigit).length) := fun cs => by
    simp [scanDigits, Radix.mark, hdigit]
  exact (funext h : scanDigits .decimal = _) ▸ digits_scans Char.isDigit

theorem magnitude_scans : (text "0x" ++ digits isHexDigit <|> text "0b" ++ digits isBinDigit
    <|> digits Char.isDigit).Scans scanMagnitude := by
  have hscan : ∀ cs, scanMagnitude cs =
      ((scanDigits .hex cs).map fun found => ((Radix.hex, found.1), found.2)).or
        (((scanDigits .binary cs).map fun found => ((Radix.binary, found.1), found.2)).or
          ((scanDigits .decimal cs).map fun found => ((Radix.decimal, found.1), found.2))) := fun cs => by
    rw [scanMagnitude, List.findSome?_cons, List.findSome?_cons, List.findSome?_singleton]
    cases scanDigits .hex cs <;> cases scanDigits .binary cs <;> rfl
  rw [funext hscan]
  exact ((marked_scans .hex).map _).orElse (((marked_scans .binary).map _).orElse (unmarked_scans.map _))

theorem decimal_scans : Rule.decimal.pattern.Scans scanDecimal := by
  refine ⟨fun {c a n} h => ?_, fun {c} h => (digits_scans Char.isDigit).refused ?_⟩
  · obtain ⟨hne, heq⟩ := Option.ite_none_left_eq_some.1 h
    obtain ⟨-, rfl⟩ := Prod.mk.inj (Option.some.inj heq)
    exact (digits_scans Char.isDigit).found (if_neg hne)
  · simpa [scanDecimal] using h

theorem integer_scans : Rule.integer.pattern.Scans scanInteger := by
  have hsign : ∀ c : Cursor, (optional (text "-")).Matches c
      (some ([], c.advance (if ['-'].isPrefixOf c.rest then 1 else 0))) := by
    intro c
    split
    · rename_i h
      exact .optional (.text (List.isPrefixOf_iff_prefix.1 h))
    · rename_i h
      exact .missing (.noText (mt List.isPrefixOf_iff_prefix.2 h))
  refine ⟨fun {c l n} h => ?_, fun {c} h => ?_⟩
  · unfold scanInteger at h
    dsimp only at h
    split at h
    · cases h
    · rename_i hmagnitude
      obtain ⟨hend, heq⟩ := Option.ite_none_right_eq_some.1 h
      obtain ⟨-, rfl⟩ := Prod.mk.inj (Option.some.inj heq)
      rw [← Cursor.advance_advance]
      refine .behind (hsign c) (.behind (magnitude_scans.found hmagnitude) (matches_wordEnd ?_))
      rwa [Cursor.advance_advance]
  · unfold scanInteger at h
    dsimp only at h
    split at h
    · rename_i hmagnitude
      exact .behind (hsign c) (.notFirst (magnitude_scans.refused hmagnitude))
    · rename_i hmagnitude
      refine .behind (hsign c) (.behind (magnitude_scans.found hmagnitude) (matches_noWordEnd ?_))
      rw [Cursor.advance_advance]
      simpa [Cursor.advance] using h

/-! ### Strings, code and names -/

/-- A character of a string: one behind a backslash, or one that is none and ends neither string nor line. -/
def quotedChar : Pattern :=
  text "\\" ++ any <|> anyBut (text "\"" <|> text "\\" <|> text "\n")

theorem quotedEnd_takes : (text "\"" <|> text "\\" <|> text "\n").Takes fun x =>
    x == '"' || (x == '\\' || x == '\n') :=
  .choice (.text (x := '"') rfl) (.choice (.text (x := '\\') rfl) (.text (x := '\n') rfl))

theorem quotedChar_escape (x : Char) (xs : List Char) (place : Location) :
    quotedChar.Matches ⟨'\\' :: x :: xs, place⟩ (some ([], (Cursor.mk ('\\' :: x :: xs) place).advance 2)) :=
  .choice (.behind ((Takes.text (x := '\\') rfl).takes rfl _ _) ((Takes.one _).takes rfl xs _))

theorem quotedChar_plain {x : Char} (hquote : x ≠ '"') (hbackslash : x ≠ '\\') (hline : x ≠ '\n')
    (xs : List Char) (place : Location) :
    quotedChar.Matches ⟨x :: xs, place⟩ (some ([], ⟨xs, place.advance x⟩)) :=
  .otherwise
    (.notFirst ((Takes.text (x := '\\') rfl).refuses fun y hy =>
      Option.some.inj hy ▸ by simpa using hbackslash))
    (quotedEnd_takes.but.takes (by simp [hquote, hbackslash, hline]) xs place)

theorem quotedChar_refuses {cs : List Char} (h : ∀ x ∈ cs.head?, x = '"' ∨ x = '\n') (place : Location) :
    quotedChar.Matches ⟨cs, place⟩ none :=
  .otherwise
    (.notFirst ((Takes.text (x := '\\') rfl).refuses fun x hx => by rcases h x hx with rfl | rfl <;> rfl))
    (quotedEnd_takes.but.refuses fun x hx => by rcases h x hx with rfl | rfl <;> rfl)

/-- A backslash with nothing behind it ends the characters of a string and does not close it. -/
theorem quotedChar_backslash (place : Location) : quotedChar.Matches ⟨['\\'], place⟩ none :=
  .otherwise (.behind ((Takes.text (x := '\\') rfl).takes rfl [] place) ((Takes.one _).refuses_nil _))
    (quotedEnd_takes.but.refuses fun _ hx => Option.some.inj hx ▸ rfl)

theorem quoted_matches (cs : List Char) (place : Location) :
    (many quotedChar ++ text "\"").Matches ⟨cs, place⟩
      ((quotedBody cs).map fun body => ([], (Cursor.mk cs place).advance (body.length + 1))) := by
  have hquote : (text "\"").Takes (· == '"') := .text rfl
  induction cs using quotedBody.induct generalizing place with
  | case1 => exact .atEnd (quotedChar_refuses (by simp) place) (hquote.refuses_nil place)
  | case2 cs => exact .atEnd (quotedChar_refuses (by simp) place) (hquote.takes rfl cs place)
  | case3 x cs ih =>
    rw [quotedBody, Option.map_map]
    exact .again (quotedChar_escape x cs place) (ih _)
  | case4 x cs hplain hescape h =>
    have hnone : quotedBody (x :: cs) = none := by
      rw [quotedBody, if_pos h]
      exacts [hplain, hescape]
    rw [hnone]
    rcases Bool.or_eq_true_iff.1 h with hx | hx
    · obtain rfl := of_decide_eq_true hx
      cases cs with
      | nil => exact .atEnd (quotedChar_backslash place) (hquote.refuses (by simp))
      | cons y ys => exact absurd rfl (hescape y ys rfl)
    · obtain rfl := of_decide_eq_true hx
      exact .atEnd (quotedChar_refuses (by simp) place) (hquote.refuses (by simp))
  | case5 x cs hplain hescape h ih =>
    have hx : x ≠ '\\' ∧ x ≠ '\n' := by simpa using h
    rw [quotedBody_cons hplain hx.1 hx.2, Option.map_map]
    exact .again (quotedChar_plain hplain hx.1 hx.2 cs place) (ih _)

/-- No text behind the mark makes up for its missing. -/
theorem Takes.refuses_of_ne {mark : Char} (h : p.Takes (· == mark)) {cs : List Char}
    (hcs : ∀ rest, cs ≠ mark :: rest) (place : Location) : p.Matches ⟨cs, place⟩ none := by
  refine h.refuses fun x hx => beq_eq_false_iff_ne.2 ?_
  rintro rfl
  cases cs with
  | nil => cases hx
  | cons y ys =>
    cases hx
    exact hcs ys rfl

theorem string_scans : Rule.string.pattern.Scans scanString := by
  have hquote : (text "\"").Takes (· == '"') := .text rfl
  refine .of_map fun ⟨cs, place⟩ => ?_
  dsimp only
  unfold scanString
  split
  · rw [Option.map_map]
    exact .behind (hquote.takes rfl _ place) (quoted_matches _ _)
  · rename_i h
    exact .notFirst (hquote.refuses_of_ne h place)

/-- Code goes on to the first closing bracket. -/
theorem open_matches (cs : List Char) (place : Location) :
    (many (anyBut (text "\x7d]")) ++ text "\x7d]").Matches ⟨cs, place⟩
      ((codeBody cs).map fun body => ([], (Cursor.mk cs place).advance (body.length + 2))) := by
  induction cs using codeBody.induct generalizing place with
  | case1 => exact .missed (by decide) (.noText (mt List.prefix_nil.1 (by decide)))
  | case2 cs =>
    have hbegins : "\x7d]".toList <+: '\x7d' :: ']' :: cs := List.prefix_append ['\x7d', ']'] cs
    exact .reached hbegins (.text hbegins)
  | case3 x cs hclosed ih =>
    rw [codeBody, Option.map_map]
    · refine .passing ?_ (ih _)
      rintro ⟨rest, hrest⟩
      obtain ⟨rfl, rfl⟩ := List.cons.inj hrest
      exact hclosed rest rfl rfl
    · exact hclosed

theorem code_scans : Rule.code.pattern.Scans scanCode := by
  refine .of_map fun ⟨cs, place⟩ => ?_
  dsimp only
  unfold scanCode
  split
  · rename_i cs
    rw [Option.map_map]
    exact .behind (.text (List.prefix_append ['[', '\x7b'] cs)) (open_matches _ _)
  · rename_i h
    exact .notFirst (.noText fun ⟨rest, hrest⟩ => h rest hrest.symm)

theorem varName_scans : Rule.varName.pattern.Scans scanVarName := by
  have hmark : (text "$").Takes (· == '$') := .text rfl
  refine .of_map fun ⟨cs, place⟩ => ?_
  dsimp only
  unfold scanVarName
  split
  · rename_i x cs
    refine .behind (hmark.takes rfl _ place) ?_
    split
    · rename_i hx
      exact wordStart_takes.word wordChar_takes hx cs _
    · rename_i hx
      exact .notFirst (wordStart_takes.refuses fun y hy => Option.some.inj hy ▸ Bool.eq_false_iff.2 hx)
  · rename_i h
    by_cases halone : cs = ['$']
    · subst halone
      exact .behind (hmark.takes rfl [] place) (.notFirst (wordStart_takes.refuses_nil _))
    · refine .notFirst (hmark.refuses_of_ne (fun rest hrest => ?_) place)
      cases rest with
      | nil => exact halone hrest
      | cons x xs => exact h x xs hrest

theorem bangName_scans : Rule.bangName.pattern.Scans scanBangName := by
  have hmark : (text "!").Takes (· == '!') := .text rfl
  refine .of_map fun ⟨cs, place⟩ => ?_
  dsimp only
  unfold scanBangName
  split
  · rename_i cs
    refine .behind (hmark.takes rfl _ place) ?_
    dsimp only
    split
    · rename_i hempty
      exact (digits_scans _).refused (if_pos hempty)
    · rename_i hempty
      exact (digits_scans _).found (if_neg hempty)
  · rename_i h
    exact .notFirst (hmark.refuses_of_ne h place)

end Pattern
end TypedRecords
