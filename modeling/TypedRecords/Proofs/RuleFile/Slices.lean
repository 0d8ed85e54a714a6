import TypedRecords.Proofs.Reading.WholeWords
import TypedRecords.Proofs.RuleFile.Conversion
import TypedRecords.Proofs.RuleFile.Tokens

/-!
# What is cut from tokens

A string, a code text or an argument name stands between its delimiters, whatever characters it has, and
so it is found by cutting these off. What is found in a string never ends with a backslash that escapes
nothing: the rule of strings reads a backslash together with the character behind it.
-/

namespace TypedRecords
variable {cs body : List Char} {n : Nat}

/-! ### What scanners pass -/

theorem map_ne_error {ε α β : Type} {e : ε} {r : Except ε α} (h : r ≠ .error e) (f : α → β) :
    r.map f ≠ .error e := by
  cases r with
  | ok a => nofun
  | error e' => exact fun heq => h (congrArg _ (Except.error.inj heq))

/-- The closing quote stands behind the text of a string, and no backslash in front of it is left over. -/
theorem quotedBody_closed (h : quotedBody cs = some body) :
    (∃ rest, cs = body ++ '"' :: rest) ∧ unescape body ≠ .error .dangling := by
  induction cs using quotedBody.induct generalizing body with
  | case1 => cases h
  | case2 rest =>
    cases h
    refine ⟨⟨rest, rfl⟩, fun h => ?_⟩
    cases h
  | case3 x cs ih =>
    obtain ⟨body, hbody, rfl⟩ := Option.map_eq_some_iff.1 h
    obtain ⟨⟨rest, rfl⟩, hends⟩ := ih hbody
    refine ⟨⟨rest, rfl⟩, ?_⟩
    rw [unescape]
    cases unescapeChar x with
    | none =>
      intro h
      cases h
    | some d => exact map_ne_error hends _
  | case4 x cs hquote hescape hstop =>
    rw [quotedBody, if_pos hstop] at h
    · cases h
    · exact hquote
    · exact hescape
  | case5 x cs hquote hescape hstop ih =>
    have hx : x ≠ '\\' ∧ x ≠ '\n' := by simpa using hstop
    rw [quotedBody_cons hquote hx.1 hx.2] at h
    obtain ⟨body, hbody, rfl⟩ := Option.map_eq_some_iff.1 h
    obtain ⟨⟨rest, rfl⟩, hends⟩ := ih hbody
    refine ⟨⟨rest, rfl⟩, ?_⟩
    rw [unescape]
    · exact map_ne_error hends _
    · exact fun h _ => hx.1 h
    · exact fun _ _ h => absurd h hx.1

theorem codeBody_split (h : codeBody cs = some body) : ∃ rest, cs = body ++ '\x7d' :: ']' :: rest := by
  induction cs using codeBody.induct generalizing body with
  | case1 => cases h
  | case2 rest =>
    cases h
    exact ⟨rest, rfl⟩
  | case3 x cs hclosed ih =>
    rw [codeBody] at h
    · obtain ⟨body, hbody, rfl⟩ := Option.map_eq_some_iff.1 h
      obtain ⟨rest, rfl⟩ := ih hbody
      exact ⟨rest, rfl⟩
    · exact hclosed

theorem take_scanString (h : scanString cs = some (body, n)) :
    cs.take n = '"' :: (body ++ ['"']) ∧ unescape body ≠ .error .dangling := by
  unfold scanString at h
  split at h
  · obtain ⟨found, hfound, heq⟩ := Option.map_eq_some_iff.1 h
    cases heq
    obtain ⟨⟨rest, rfl⟩, hends⟩ := quotedBody_closed hfound
    rw [List.take_succ_cons, List.append_cons, List.take_left' (by simp)]
    exact ⟨rfl, hends⟩
  · cases h

theorem take_scanCode (h : scanCode cs = some (body, n)) :
    cs.take n = ['[', '\x7b'] ++ (body ++ ['\x7d', ']']) := by
  unfold scanCode at h
  split at h
  · obtain ⟨found, hfound, heq⟩ := Option.map_eq_some_iff.1 h
    cases heq
    obtain ⟨rest, rfl⟩ := codeBody_split hfound
    have hrest : body ++ '\x7d' :: ']' :: rest = body ++ ['\x7d', ']'] ++ rest := by simp
    rw [List.take_succ_cons, List.take_succ_cons, hrest, List.take_left' (by simp)]
    rfl
  · cases h

theorem take_scanVarName {name : String} (h : scanVarName cs = some (name, n)) :
    cs.take n = '$' :: name.toList := by
  unfold scanVarName at h
  split at h
  · rename_i x cs
    obtain ⟨-, heq⟩ := Option.ite_none_right_eq_some.1 h
    obtain ⟨rfl, rfl⟩ := Prod.mk.inj (Option.some.inj heq)
    have hprefix : x :: cs.takeWhile isWordChar <+: x :: cs :=
      (List.prefix_cons_inj x).2 (List.takeWhile_prefix isWordChar)
    rw [List.take_succ_cons, ← List.prefix_iff_eq_take.1 hprefix, String.toList_ofList]
  · cases h

theorem take_scanIdentifier {name : String} (h : scanIdentifier cs = some (name, n)) :
    cs.take n = name.toList := by
  obtain ⟨hname, rfl⟩ := word_of_scanIdentifier h
  rw [hname, ← List.prefix_iff_eq_take.1 (wordAt_begins cs)]

theorem take_scanBangName {name : String} (h : scanBangName cs = some (name, n)) :
    cs.take n = name.toList := by
  unfold scanBangName at h
  split at h
  · rename_i cs
    obtain ⟨-, heq⟩ := Option.ite_none_left_eq_some.1 h
    obtain ⟨rfl, rfl⟩ := Prod.mk.inj (Option.some.inj heq)
    rw [List.take_succ_cons, ← List.prefix_iff_eq_take.1 (List.takeWhile_prefix _), String.toList_ofList]
  · cases h

/-! ### Cutting -/

namespace Piece
variable {t : Piece}

theorem between_eq (front back : List Char) (h : t.text = String.ofList (front ++ (body ++ back))) :
    t.between (String.ofList front).utf8ByteSize (String.ofList back).utf8ByteSize = .ok body := by
  rw [String.ofList_append, String.ofList_append] at h
  rw [between, h, String.utf8ByteSize_append, String.utf8ByteSize_append, ← Nat.add_assoc,
    Nat.add_sub_cancel, cut?_append]
  dsimp only
  rw [String.toList_ofList]

theorem stringBody_eq (h : t.text = String.ofList ('"' :: (body ++ ['"']))) : t.stringBody = .ok body :=
  between_eq ['"'] ['"'] h

theorem codeBody_eq (h : t.text = String.ofList (['[', '\x7b'] ++ (body ++ ['\x7d', ']']))) :
    t.codeBody = .ok body :=
  between_eq ['[', '\x7b'] ['\x7d', ']'] h

theorem varName_eq {name : String} (h : t.text = String.ofList ('$' :: name.toList)) :
    t.varName = .ok name := by
  have hcut : t.between 1 0 = .ok name.toList :=
    between_eq ['$'] [] (by rw [h, List.append_nil]; rfl)
  rw [varName, hcut]
  exact congrArg Except.ok String.ofList_toList

/-- What is cut from the piece can be cut from it, and where that is a string, no backslash at its end escapes
nothing. -/
structure WellCut (t : Piece) : Prop where
  string : t.rule = .string → ∃ body, t.stringBody = .ok body ∧ unescape body ≠ .error .dangling
  code : t.rule = .code → ∃ body, t.codeBody = .ok body
  varName : t.rule = .varName → ∃ name, t.varName = .ok name

/-! ### Pieces in pieces -/

/-- A piece that was read in another one, at any depth, or that one itself. -/
inductive Within (t : Piece) : Piece → Prop
  | self : Within t t
  | part {u whole : Piece} (hu : u ∈ whole.parts) (h : Within t u) : Within t whole

end Piece

namespace Pattern
variable {p : Pattern} {c d : Cursor} {ps : List Piece} {t u : Piece}

/-- Each piece is what its rule reads where it begins. -/
theorem Matches.within (h : p.Matches c (some (ps, d))) (ht : t ∈ ps) (hu : u.Within t) :
    ∃ c' d', (Pattern.rule u.rule).Matches c' (some ([u], d')) := by
  -- Only a rule makes a piece; all other patterns hand on those of their parts.
  generalize hr : some (ps, d) = r at h
  induction h generalizing ps d t with
  | text | one | startOfInput | endOfInput | missing | noMore | avoid =>
    cases hr
    cases ht
  | seq _ _ ihp ihq | more _ _ ihp ihq =>
    cases hr
    rcases List.mem_append.1 ht with ht | ht
    · exact ihp ht hu rfl
    · exact ihq ht hu rfl
  | choice _ ih | optional _ ih =>
    cases hr
    exact ih ht hu rfl
  | otherwise _ _ _ ih => exact ih ht hu hr
  | rule h ih =>
    cases hr
    cases List.mem_singleton.1 ht
    cases hu with
    | self => exact ⟨_, _, .rule h⟩
    | part hpart hu => exact ih hpart hu rfl
  | noText | notOne | notStart | notEnd | notFirst | notSecond | notAvoid | notRule => cases hr

/-- What the rule of a token reads is what its scanner passes. -/
theorem Scans.piece {α : Type} {s : Scanner α} {r : Rule} (hs : r.pattern.Scans s)
    (h : (Pattern.rule r).Matches c (some ([t], d))) :
    ∃ a n, s c.rest = some (a, n) ∧ t.text = String.ofList (c.rest.take n) := by
  cases h with
  | rule h =>
    cases hscan : s c.rest with
    | none => cases h.unique (hs.refused hscan)
    | some found =>
      cases h.unique (hs.found hscan)
      exact ⟨_, _, rfl, c.textTo_advance _⟩

theorem wellCut_of_matches (h : (Pattern.rule t.rule).Matches c (some ([t], d))) : t.WellCut where
  string hrule := by
    rw [hrule] at h
    obtain ⟨body, n, hscan, htext⟩ := string_scans.piece h
    obtain ⟨htake, hends⟩ := take_scanString hscan
    rw [htake] at htext
    exact ⟨body, Piece.stringBody_eq htext, hends⟩
  code hrule := by
    rw [hrule] at h
    obtain ⟨body, n, hscan, htext⟩ := code_scans.piece h
    rw [take_scanCode hscan] at htext
    exact ⟨body, Piece.codeBody_eq htext⟩
  varName hrule := by
    rw [hrule] at h
    obtain ⟨name, n, hscan, htext⟩ := varName_scans.piece h
    rw [take_scanVarName hscan] at htext
    exact ⟨name, Piece.varName_eq htext⟩

end Pattern
end TypedRecords
