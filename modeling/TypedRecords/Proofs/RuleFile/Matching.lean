import TypedRecords.Syntax.Parser
import TypedRecords.Proofs.RuleFile.Pattern

/-!
# What patterns match

`Pattern.Matches` tells what a pattern makes of the text behind a cursor: the pieces that rules read there,
with the cursor behind them, or nothing. There is one answer at most (`Pattern.Matches.unique`), and what is
matched is text behind the cursor (`Pattern.Matches.advances`).
-/

namespace TypedRecords

/-- A part of a text that a rule reads: where it begins, its characters, and the pieces that rules read
in it. -/
structure Piece where
  rule : Rule
  place : Location
  text : String
  parts : List Piece

namespace Cursor

/-- The text from one cursor to a later one. -/
def textTo (c d : Cursor) : String := String.ofList (c.rest.take (c.rest.length - d.rest.length))

theorem textTo_advance (c : Cursor) (n : Nat) : c.textTo (c.advance n) = String.ofList (c.rest.take n) := by
  rw [textTo, advance, List.length_drop]
  by_cases h : n ≤ c.rest.length
  · rw [Nat.sub_sub_self h]
  · have hall : c.rest.length ≤ n := Nat.le_of_not_le h
    rw [Nat.sub_eq_zero_of_le hall, Nat.sub_zero, List.take_length, List.take_of_length_le hall]

theorem advance_advance (c : Cursor) (m n : Nat) : (c.advance m).advance n = c.advance (m + n) := by
  simp only [advance, List.drop_drop, List.take_add, Location.advanceAll_append]

end Cursor

namespace Pattern

inductive Matches : Pattern → Cursor → Option (List Piece × Cursor) → Prop
  | text {s : String} {c : Cursor} (h : s.toList <+: c.rest) :
      Matches (.text s) c (some ([], c.advance s.toList.length))
  | noText {s : String} {c : Cursor} (h : ¬s.toList <+: c.rest) : Matches (.text s) c none
  | one {accepts : Char → Bool} {c : Cursor} {x : Char} (hx : x ∈ c.rest.head?) (h : accepts x = true) :
      Matches (.one accepts) c (some ([], c.advance 1))
  | notOne {accepts : Char → Bool} {c : Cursor} (h : ∀ x ∈ c.rest.head?, accepts x = false) :
      Matches (.one accepts) c none
  | startOfInput {c : Cursor} (h : c.place = .start c.place.file) : Matches .startOfInput c (some ([], c))
  | notStart {c : Cursor} (h : c.place ≠ .start c.place.file) : Matches .startOfInput c none
  | endOfInput {c : Cursor} (h : c.rest = []) : Matches .endOfInput c (some ([], c))
  | notEnd {c : Cursor} (h : c.rest ≠ []) : Matches .endOfInput c none
  | seq {p q : Pattern} {c c' c'' : Cursor} {ps qs : List Piece} (hp : Matches p c (some (ps, c')))
      (hq : Matches q c' (some (qs, c''))) : Matches (.seq p q) c (some (ps ++ qs, c''))
  | notFirst {p q : Pattern} {c : Cursor} (hp : Matches p c none) : Matches (.seq p q) c none
  | notSecond {p q : Pattern} {c c' : Cursor} {ps : List Piece} (hp : Matches p c (some (ps, c')))
      (hq : Matches q c' none) : Matches (.seq p q) c none
  | choice {p q : Pattern} {c c' : Cursor} {ps : List Piece} (hp : Matches p c (some (ps, c'))) :
      Matches (.choice p q) c (some (ps, c'))
  | otherwise {p q : Pattern} {c : Cursor} {r : Option (List Piece × Cursor)} (hp : Matches p c none)
      (hq : Matches q c r) : Matches (.choice p q) c r
  | optional {p : Pattern} {c c' : Cursor} {ps : List Piece} (hp : Matches p c (some (ps, c'))) :
      Matches (.optional p) c (some (ps, c'))
  | missing {p : Pattern} {c : Cursor} (hp : Matches p c none) : Matches (.optional p) c (some ([], c))
  | more {p : Pattern} {c c' c'' : Cursor} {ps qs : List Piece} (hp : Matches p c (some (ps, c')))
      (hmany : Matches (.many p) c' (some (qs, c''))) : Matches (.many p) c (some (ps ++ qs, c''))
  | noMore {p : Pattern} {c : Cursor} (hp : Matches p c none) : Matches (.many p) c (some ([], c))
  | avoid {p : Pattern} {c : Cursor} (hp : Matches p c none) : Matches (.avoid p) c (some ([], c))
  | notAvoid {p : Pattern} {c c' : Cursor} {ps : List Piece} (hp : Matches p c (some (ps, c'))) :
      Matches (.avoid p) c none
  | rule {r : Rule} {c c' : Cursor} {ps : List Piece} (h : Matches r.pattern c (some (ps, c'))) :
      Matches (.rule r) c (some ([⟨r, c.place, c.textTo c', ps⟩], c'))
  | notRule {r : Rule} {c : Cursor} (h : Matches r.pattern c none) : Matches (.rule r) c none

namespace Matches
variable {p q : Pattern} {c d : Cursor} {ps : List Piece} {r r' : Option (List Piece × Cursor)}

/-- A pattern has one answer at most, since each way of matching excludes the others. -/
theorem unique (h : p.Matches c r) (h' : p.Matches c r') : r = r' := by
  induction h generalizing r' with
  | text h =>
    cases h' with
    | text => rfl
    | noText h' => exact absurd h h'
  | noText h =>
    cases h' with
    | text h' => exact absurd h' h
    | noText => rfl
  | one hx h =>
    cases h' with
    | one => rfl
    | notOne h' => cases (h' _ hx).symm.trans h
  | notOne h =>
    cases h' with
    | one hx h' => cases (h _ hx).symm.trans h'
    | notOne => rfl
  | startOfInput h =>
    cases h' with
    | startOfInput => rfl
    | notStart h' => exact absurd h h'
  | notStart h =>
    cases h' with
    | startOfInput h' => exact absurd h' h
    | notStart => rfl
  | endOfInput h =>
    cases h' with
    | endOfInput => rfl
    | notEnd h' => exact absurd h h'
  | notEnd h =>
    cases h' with
    | endOfInput h' => exact absurd h' h
    | notEnd => rfl
  | seq _ _ ihp ihq =>
    cases h' with
    | seq hp hq => cases ihp hp; cases ihq hq; rfl
    | notFirst hp => cases ihp hp
    | notSecond hp hq => cases ihp hp; cases ihq hq
  | notFirst _ ihp =>
    cases h' with
    | seq hp | notSecond hp => cases ihp hp
    | notFirst => rfl
  | notSecond _ _ ihp ihq =>
    cases h' with
    | seq hp hq => cases ihp hp; cases ihq hq
    | notFirst => rfl
    | notSecond => rfl
  | choice _ ih =>
    cases h' with
    | choice hp => exact ih hp
    | otherwise hp => cases ih hp
  | otherwise _ _ ihp ihq =>
    cases h' with
    | choice hp => cases ihp hp
    | otherwise _ hq => exact ihq hq
  | optional _ ih =>
    cases h' with
    | optional hp => exact ih hp
    | missing hp => cases ih hp
  | missing _ ih =>
    cases h' with
    | optional hp => cases ih hp
    | missing => rfl
  | more _ _ ihp ihmany =>
    cases h' with
    | more hp hmany => cases ihp hp; cases ihmany hmany; rfl
    | noMore hp => cases ihp hp
  | noMore _ ih =>
    cases h' with
    | more hp => cases ih hp
    | noMore => rfl
  | avoid _ ih =>
    cases h' with
    | avoid => rfl
    | notAvoid hp => cases ih hp
  | notAvoid _ ih =>
    cases h' with
    | avoid hp => cases ih hp
    | notAvoid => rfl
  | rule _ ih =>
    cases h' with
    | rule h => cases ih h; rfl
    | notRule h => cases ih h
  | notRule _ ih =>
    cases h' with
    | rule h => cases ih h
    | notRule => rfl

/-- What is matched is text behind the cursor. -/
theorem advances (h : p.Matches c (some (ps, d))) : ∃ n, d = c.advance n := by
  generalize hr : some (ps, d) = r at h
  induction h generalizing ps d with
  | text | one =>
    cases hr
    exact ⟨_, rfl⟩
  | startOfInput | endOfInput | missing | noMore | avoid =>
    cases hr
    exact ⟨0, rfl⟩
  | seq _ _ ihp ihq | more _ _ ihp ihq =>
    cases hr
    obtain ⟨m, rfl⟩ := ihp rfl
    obtain ⟨n, rfl⟩ := ihq rfl
    exact ⟨m + n, Cursor.advance_advance ..⟩
  | choice _ ih | optional _ ih | rule _ ih =>
    cases hr
    exact ih rfl
  | otherwise _ _ _ ih => exact ih hr
  | noText | notOne | notStart | notEnd | notFirst | notSecond | notAvoid | notRule => cases hr

theorem length_le (h : p.Matches c (some (ps, d))) : d.rest.length ≤ c.rest.length := by
  obtain ⟨n, rfl⟩ := h.advances
  rw [Cursor.advance, List.length_drop]
  exact Nat.sub_le ..

end Matches

/-! ### Patterns that take a character -/

/-- The pattern matches no empty text. -/
def Strict (p : Pattern) : Prop :=
  ∀ ⦃c d : Cursor⦄ ⦃ps : List Piece⦄, p.Matches c (some (ps, d)) → d.rest.length < c.rest.length

namespace Strict
variable {p q : Pattern}

theorem text {s : String} (h : s.toList ≠ []) : (Pattern.text s).Strict := by
  intro c d ps hmatch
  cases hmatch with
  | text hbegins =>
    have hpos := List.length_pos_iff.2 h
    have hle := hbegins.length_le
    rw [Cursor.advance, List.length_drop]
    omega

theorem one (accepts : Char → Bool) : (Pattern.one accepts).Strict := by
  intro c d ps hmatch
  cases hmatch with
  | one hx =>
    have hpos : 0 < c.rest.length := List.length_pos_of_mem (List.mem_of_mem_head? hx)
    rw [Cursor.advance, List.length_drop]
    omega

theorem first (h : p.Strict) (q : Pattern) : (p ++ q).Strict := by
  intro c d ps hmatch
  cases hmatch with
  | seq hp hq => exact Nat.lt_of_le_of_lt hq.length_le (h hp)

theorem second (p : Pattern) (h : q.Strict) : (p ++ q).Strict := by
  intro c d ps hmatch
  cases hmatch with
  | seq hp hq => exact Nat.lt_of_lt_of_le (h hq) hp.length_le

theorem choice (hp : p.Strict) (hq : q.Strict) : (p <|> q).Strict := by
  intro c d ps h
  cases h with
  | choice h => exact hp h
  | otherwise _ h => exact hq h

theorem rule {r : Rule} (h : r.pattern.Strict) : (Pattern.rule r).Strict := by
  intro c d ps hmatch
  cases hmatch with
  | rule hr => exact h hr

end Strict
end Pattern
end TypedRecords
