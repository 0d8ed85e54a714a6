import TypedRecords.Proofs.RuleFile.Tokens

/-!
# Blanks of the rule file

Between the parts of a rule the rule file allows what the parsers skip (`Pattern.blanks_skip`), and nothing
is left to skip behind that.
-/

namespace TypedRecords

/-- The cursor behind the blanks and comments. -/
def Cursor.skipped (c : Cursor) : Cursor := c.advance (blankWidth c.rest)

/-- Behind blanks and comments no more of them follow. -/
theorem blankWidth_drop (cs : List Char) : blankWidth (cs.drop (blankWidth cs)) = 0 := by
  refine (blankWidth.mutual_induct (fun cs => blankWidth (cs.drop (blankWidth cs)) = 0)
    (fun cs => ∀ n, blockCommentWidth cs = some n → blankWidth (cs.drop n) = 0)
    (fun cs => blankWidth (cs.drop (lineCommentWidth cs)) = 0)
    rfl ?line ?block ?unclosed ?blank ?solid nofun ?close ?inBlock rfl ?newline ?inLine).1 cs
  case line =>
    intro cs ih
    rw [blankWidth]
    exact ih
  case block =>
    intro cs n hn ih
    rw [blankWidth, hn]
    exact ih n hn
  case unclosed =>
    intro cs hn _
    have hzero : blankWidth ('/' :: '*' :: cs) = 0 := by rw [blankWidth, hn]
    rw [hzero, List.drop_zero, hzero]
  case blank =>
    intro c cs hline hblock hc ih
    rw [blankWidth, if_pos hc]
    exacts [ih, hline, hblock]
  case solid =>
    intro c cs hline hblock hc
    have hzero : blankWidth (c :: cs) = 0 := by
      rw [blankWidth, if_neg hc]
      exacts [hline, hblock]
    rw [hzero, List.drop_zero, hzero]
  case close =>
    intro cs ih n hn
    cases hn
    exact ih
  case inBlock =>
    intro c cs hclose ih n hn
    rw [blockCommentWidth] at hn
    · obtain ⟨m, hm, rfl⟩ := Option.map_eq_some_iff.1 hn
      exact ih m hm
    · exact hclose
  case newline =>
    intro cs ih
    exact ih
  case inLine =>
    intro c cs hc ih
    rw [lineCommentWidth, if_neg hc]
    exact ih

@[simp] theorem Cursor.skipped_skipped (c : Cursor) : c.skipped.skipped = c.skipped := by
  have h : blankWidth c.skipped.rest = 0 := blankWidth_drop c.rest
  rw [skipped, h]
  rfl

namespace Pattern
variable {p q : Pattern} {c d e : Cursor} {r : Option (List Piece × Cursor)}

theorem blanks_blank {x : Char} (hx : isBlank x = true) {xs : List Char} {place : Location}
    (h : blanks.Matches ⟨xs, place.advance x⟩ r) : blanks.Matches ⟨x :: xs, place⟩ r :=
  .again (whitespace_takes.takes hx xs place) h

theorem blanks_comment (hblank : whitespace.Matches c none) (hcomment : comment.Matches c (some ([], d)))
    (h : blanks.Matches d r) : blanks.Matches c r := by
  cases h with
  | seq hmany hrest => exact .behind (.noMore hblank) (.more (.seq hcomment hmany) hrest)
  | notFirst hmany => cases hmany
  | notSecond hmany hrest => cases hrest

theorem blanks_none (hblank : whitespace.Matches c none) (hcomment : comment.Matches c none) :
    blanks.Matches c (some ([], c)) :=
  .behind (.noMore hblank) (.noMore (.notFirst hcomment))

theorem whitespace_slash (cs : List Char) (place : Location) : whitespace.Matches ⟨'/' :: cs, place⟩ none :=
  whitespace_takes.refuses fun _ hx => Option.some.inj hx ▸ rfl

theorem comment_refuses {cs : List Char} (hline : ∀ after, cs ≠ '/' :: '/' :: after)
    (hblock : ∀ after, cs ≠ '/' :: '*' :: after) (place : Location) : comment.Matches ⟨cs, place⟩ none :=
  .otherwise (.notFirst (.noText fun ⟨after, h⟩ => hline after h.symm))
    (.notFirst (.noText fun ⟨after, h⟩ => hblock after h.symm))

theorem blanks_nil (place : Location) : blanks.Matches ⟨[], place⟩ (some ([], ⟨[], place⟩)) :=
  blanks_none (whitespace_takes.refuses_nil place) (comment_refuses (by simp) (by simp) place)

theorem comment_line {cs : List Char} {place : Location}
    (h : (many (anyBut (text "\n"))).Matches ⟨cs, (place.advance '/').advance '/'⟩ (some ([], d))) :
    comment.Matches ⟨'/' :: '/' :: cs, place⟩ (some ([], d)) :=
  .choice (.behind (.text (List.prefix_append ['/', '/'] cs)) h)

theorem comment_block {cs : List Char} {place : Location}
    (h : (many (anyBut (text "*/")) ++ text "*/").Matches ⟨cs, (place.advance '/').advance '*'⟩ r) :
    comment.Matches ⟨'/' :: '*' :: cs, place⟩ r :=
  .otherwise (.notFirst (.noText fun ⟨_, hrest⟩ => nomatch (List.cons.inj (List.cons.inj hrest).2).1))
    (.behind (.text (List.prefix_append ['/', '*'] cs)) h)

theorem inLine_takes : (anyBut (text "\n")).Takes fun x => !(x == '\n') :=
  (Takes.text (x := '\n') rfl).but

/-- Blanks and comments are read in any order, and a comment that nothing closes is not one. -/
theorem blanks_advance (cs : List Char) : ∀ place : Location,
    blanks.Matches ⟨cs, place⟩ (some ([], (Cursor.mk cs place).advance (blankWidth cs))) := by
  refine (blankWidth.mutual_induct
    (fun cs => ∀ place : Location,
      blanks.Matches ⟨cs, place⟩ (some ([], (Cursor.mk cs place).advance (blankWidth cs))))
    (fun cs => ∀ place : Location,
      (∀ n, blockCommentWidth cs = some n → ∃ d,
        (many (anyBut (text "*/")) ++ text "*/").Matches ⟨cs, place⟩ (some ([], d)) ∧
          blanks.Matches d (some ([], (Cursor.mk cs place).advance n))) ∧
      (blockCommentWidth cs = none →
        (many (anyBut (text "*/")) ++ text "*/").Matches ⟨cs, place⟩ none))
    (fun cs => ∀ place : Location, ∃ d, (many (anyBut (text "\n"))).Matches ⟨cs, place⟩ (some ([], d)) ∧
      blanks.Matches d (some ([], (Cursor.mk cs place).advance (lineCommentWidth cs))))
    ?nil ?line ?block ?unclosed ?blank ?solid ?blockEnd ?close ?inBlock ?lineEnd ?newline ?inLine).1 cs
  case nil => exact blanks_nil
  case line =>
    intro cs ih place
    obtain ⟨d, hd, hblanks⟩ := ih ((place.advance '/').advance '/')
    rw [blankWidth]
    exact blanks_comment (whitespace_slash _ place) (comment_line hd) hblanks
  case block =>
    intro cs n hn ih place
    obtain ⟨d, hd, hblanks⟩ := (ih ((place.advance '/').advance '*')).1 n hn
    rw [blankWidth, hn]
    exact blanks_comment (whitespace_slash _ place) (comment_block hd) hblanks
  case unclosed =>
    intro cs hn ih place
    rw [blankWidth, hn]
    exact blanks_none (whitespace_slash _ place) (comment_block ((ih _).2 hn))
  case blank =>
    intro c cs hline hblock hc ih place
    rw [blankWidth, if_pos hc]
    · exact blanks_blank hc (ih _)
    · exact hline
    · exact hblock
  case solid =>
    intro c cs hline hblock hc place
    rw [blankWidth, if_neg hc]
    · refine blanks_none (whitespace_takes.refuses fun x hx => ?_) (comment_refuses ?_ ?_ place)
      · exact Option.some.inj hx ▸ Bool.eq_false_iff.2 hc
      · exact fun after h => hline after (List.cons.inj h).1 (List.cons.inj h).2
      · exact fun after h => hblock after (List.cons.inj h).1 (List.cons.inj h).2
    · exact hline
    · exact hblock
  case blockEnd =>
    intro place
    refine ⟨fun n hn => ?_, fun _ => .missed (by decide) (.noText (mt List.prefix_nil.1 (by decide)))⟩
    cases hn
  case close =>
    intro cs ih place
    have hbegins : "*/".toList <+: '*' :: '/' :: cs := List.prefix_append ['*', '/'] cs
    refine ⟨fun n hn => ?_, fun hn => ?_⟩
    · cases hn
      exact ⟨_, .reached hbegins (.text hbegins), ih _⟩
    · cases hn
  case inBlock =>
    intro c cs hclose ih place
    have hbegins : ¬"*/".toList <+: c :: cs := by
      rintro ⟨after, h⟩
      exact hclose after (List.cons.inj h).1.symm (List.cons.inj h).2.symm
    obtain ⟨hsome, hnone⟩ := ih (place.advance c)
    rw [blockCommentWidth]
    · refine ⟨fun n hn => ?_, fun hn => .passing hbegins (hnone (Option.map_eq_none_iff.1 hn))⟩
      obtain ⟨m, hm, rfl⟩ := Option.map_eq_some_iff.1 hn
      obtain ⟨d, hd, hblanks⟩ := hsome m hm
      exact ⟨d, .passing hbegins hd, hblanks⟩
    · exact hclose
  case lineEnd => exact fun place => ⟨_, .noMore (inLine_takes.refuses_nil place), blanks_nil place⟩
  case newline =>
    intro cs ih place
    refine ⟨_, .noMore (inLine_takes.refuses fun x hx => ?_), blanks_blank rfl (ih _)⟩
    exact Option.some.inj hx ▸ rfl
  case inLine =>
    intro c cs hc ih place
    obtain ⟨d, hd, hblanks⟩ := ih (place.advance c)
    rw [lineCommentWidth, if_neg hc]
    exact ⟨d, .more (inLine_takes.takes (by simpa using hc) cs place) hd, hblanks⟩

/-- Between the parts of a rule the blanks and comments there are passed, without a piece in them. -/
theorem blanks_skip (c : Cursor) : blanks.Matches c (some ([], c.skipped)) := blanks_advance c.rest c.place

end Pattern
end TypedRecords
