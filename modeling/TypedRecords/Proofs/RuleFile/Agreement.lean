import Mathlib.Data.List.Forall2
import TypedRecords.Proofs.RuleFile.Blanks

/-!
# Parsers and patterns

A parser agrees with a pattern at a cursor (`Pattern.Agrees`) where both refuse the text there, or both read
it and what was read is what the pieces say. They stop at the same place up to blanks: a pattern that looks
for one part more has passed the blanks in front of it, a parser goes back. There is one lemma for each way of
putting parsers together.
-/

namespace TypedRecords

theorem Cursor.length_skipped_le (c : Cursor) : c.skipped.rest.length ≤ c.rest.length := by
  rw [skipped, advance, List.length_drop]
  exact Nat.sub_le ..

/-! ### What parsers answer -/

namespace Parser
variable {α β : Type}

theorem bind_outcome (q : Parser α) (k : α → Parser β) (c : Cursor) :
    ((q >>= k) c).outcome = (q c).outcome.bind fun found => (k found.1 found.2).outcome := by
  show (Parser.bind q k c).outcome = _
  unfold Parser.bind
  dsimp only
  cases (q c).outcome <;> rfl

theorem skip_outcome (q : Parser α) (c : Cursor) :
    ((skip >>= fun _ => q) c).outcome = (q c.skipped).outcome := rfl

theorem orElse_outcome (q q' : Parser α) (c : Cursor) :
    ((q <|> q') c).outcome = (q c).outcome.or (q' c).outcome := by
  show (Parser.orElse q (fun _ => q') c).outcome = _
  unfold Parser.orElse
  dsimp only
  cases h : (q c).outcome with
  | none => rfl
  | some found => exact h

theorem optional_outcome (q : Parser α) (c : Cursor) : (optional q c).outcome =
    some (((q c).outcome.map fun found => (some found.1, found.2)).getD (none, c)) := by
  unfold optional
  dsimp only
  cases (q c).outcome <;> rfl

theorem named_outcome (rule : Rule) (q : Parser α) (c : Cursor) :
    (named rule q c).outcome = (q c).outcome := by
  unfold named
  dsimp only
  cases h : (q c).outcome with
  | none => rfl
  | some found => exact h

theorem scan_outcome (s : Scanner α) (c : Cursor) :
    (scan s c).outcome = (s c.rest).map fun found => (found.1, c.advance found.2) := by
  unfold scan
  cases s c.rest <;> rfl

theorem manyUpTo_outcome (q : Parser α) (limit : Nat) (c : Cursor) : (manyUpTo q (limit + 1) c).outcome =
    match (q c.skipped).outcome with
    | none => some ([], c)
    | some (a, d) => (manyUpTo q limit d).outcome.map fun found => (a :: found.1, found.2) := by
  rw [manyUpTo]
  dsimp only
  rw [skip_outcome]
  cases (q c.skipped).outcome <;> rfl

end Parser

namespace Pattern
variable {α β : Type} {p p' f : Pattern} {c d : Cursor} {q q' : Parser α}

/-! ### Parts with blanks between -/

theorem Matches.next {r : Option (List Piece × Cursor)} {ps : List Piece}
    (hp : p.Matches c (some (ps, d))) (hf : f.Matches d.skipped r) :
    (p >> f).Matches c (r.map fun found => (ps ++ found.1, found.2)) := by
  rcases r with _ | ⟨qs, e⟩
  · exact .notSecond hp (.behind (blanks_skip d) hf)
  · exact .seq hp (.behind (blanks_skip d) hf)

/-- Whatever the first matches, the second does. -/
def Refines (p p' : Pattern) : Prop := ∀ c r, p.Matches c r → p'.Matches c r

/-- It does not matter how parts are grouped. -/
theorem Refines.flat (p p' f : Pattern) : Refines ((p >> p') >> f) (p >> (p' >> f)) := by
  intro c r h
  cases h with
  | seq h hf =>
    cases h with
    | seq hp h =>
      cases h with
      | seq hb hp' =>
        simp only [List.append_assoc]
        exact .seq hp (.seq hb (.seq hp' hf))
  | notFirst h =>
    cases h with
    | notFirst hp => exact .notFirst hp
    | notSecond hp h =>
      cases h with
      | notFirst hb => exact .notSecond hp (.notFirst hb)
      | notSecond hb hp' => exact .notSecond hp (.notSecond hb (.notFirst hp'))
  | notSecond h hf =>
    cases h with
    | seq hp h =>
      cases h with
      | seq hb hp' => exact .notSecond hp (.notSecond hb (.notSecond hp' hf))

theorem Refines.next (h : Refines p' f) (p : Pattern) : Refines (p >> p') (p >> f) := by
  intro c r hr
  cases hr with
  | seq hp hr =>
    cases hr with
    | seq hb hr => exact .seq hp (.seq hb (h _ _ hr))
  | notFirst hp => exact .notFirst hp
  | notSecond hp hr =>
    cases hr with
    | notFirst hb => exact .notSecond hp (.notFirst hb)
    | notSecond hb hr => exact .notSecond hp (.notSecond hb (h _ _ hr))

/-! ### Agreement -/

/-- A parser that answers `r` at `c` refuses what `p` does not match, and else what it reads and the pieces
of `p` satisfy `B`. -/
inductive Agrees (p : Pattern) (B : List Piece → α → Prop) (c : Cursor) : Option (α × Cursor) → Prop
  | read {ps : List Piece} {a : α} {d c' : Cursor} (h : p.Matches c (some (ps, d))) (ha : B ps a)
      (hd : d.skipped = c'.skipped) : Agrees p B c (some (a, c'))
  | refused (h : p.Matches c none) : Agrees p B c none

/-- There is one piece, and it is related to what was read. -/
def One (R : Piece → α → Prop) (ps : List Piece) (a : α) : Prop := ∃ t, ps = [t] ∧ R t a

/-- There may be nothing. -/
inductive Maybe (B : List Piece → α → Prop) : List Piece → Option α → Prop
  | some {ps : List Piece} {a : α} (h : B ps a) : Maybe B ps (some a)
  | none : Maybe B [] none

namespace Agrees
variable {A B B' : List Piece → α → Prop} {C : List Piece → β → Prop} {R : Piece → α → Prop} {k : α → β}

theorem imp {r : Option (α × Cursor)} (h : Agrees p B c r) (hB : ∀ ps a, B ps a → B' ps a) :
    Agrees p B' c r := by
  cases h with
  | read h ha hd => exact .read h (hB _ _ ha) hd
  | refused h => exact .refused h

theorem refines {r : Option (α × Cursor)} (hp : Refines p p') (h : Agrees p B c r) : Agrees p' B c r := by
  cases h with
  | read h ha hd => exact .read (hp _ _ h) ha hd
  | refused h => exact .refused (hp _ _ h)

theorem here {k : Location → Parser α} (h : Agrees p B c (k c.place c).outcome) :
    Agrees p B c ((Parser.here >>= k) c).outcome := h

theorem choice (h : Agrees p B c (q c).outcome) (h' : Agrees p' B c (q' c).outcome) :
    Agrees (p <|> p') B c ((q <|> q') c).outcome := by
  rw [Parser.orElse_outcome]
  generalize (q c).outcome = r at h
  cases h with
  | read h ha hd => exact .read (.choice h) ha hd
  | refused h =>
    rw [Option.none_or]
    generalize (q' c).outcome = r at h'
    cases h' with
    | read h' ha hd => exact .read (.otherwise h h') ha hd
    | refused h' => exact .refused (.otherwise h h')

theorem optional (h : Agrees p B c (q c).outcome) :
    Agrees (.optional p) (Maybe B) c (Parser.optional q c).outcome := by
  rw [Parser.optional_outcome]
  generalize (q c).outcome = r at h
  cases h with
  | read h ha hd => exact .read (.optional h) (.some ha) hd
  | refused h => exact .read (.missing h) .none rfl

/-- What a rule reads is one piece around the pieces in it. -/
theorem rule {r : Rule}
    (h : Agrees r.pattern (fun ps a => ∀ text, B [⟨r, c.place, text, ps⟩] a) c (q c).outcome) :
    Agrees (.rule r) B c (Parser.named r q c).outcome := by
  rw [Parser.named_outcome]
  generalize (q c).outcome = o at h
  cases h with
  | read h ha hd => exact .read (.rule h) (ha _) hd
  | refused h => exact .refused (.notRule h)

/-- A rule that only names another one has the same text. -/
theorem wrap {r r' : Rule} (hr : r.pattern = .rule r') (h : Agrees (.rule r') (One R) c (q c).outcome)
    (hB : ∀ t a, R t a → B [⟨r, c.place, t.text, [t]⟩] a) :
    Agrees (.rule r) B c (Parser.named r q c).outcome := by
  rw [Parser.named_outcome]
  generalize (q c).outcome = o at h
  cases h with
  | read h ha hd =>
    obtain ⟨t, rfl, ht⟩ := ha
    have hmatch : r.pattern.Matches c _ := hr ▸ h
    cases h with
    | rule h => exact .read (.rule hmatch) (hB _ _ ht) hd
  | refused h => exact .refused (.notRule (hr ▸ h))

theorem scan {s : Scanner α} (hs : p.Scans s) (hB : ∀ a n, s c.rest = some (a, n) → B [] a) :
    Agrees p B c (Parser.scan s c).outcome := by
  rw [Parser.scan_outcome]
  cases hscan : s c.rest with
  | none => exact .refused (hs.refused hscan)
  | some found => exact .read (hs.found hscan) (hB _ _ hscan) rfl

/-- The piece of a token is what its scanner passed. -/
theorem token {r : Rule} {s : Scanner α} (hs : r.pattern.Scans s) (hR : ∀ a n, s c.rest = some (a, n) →
    R ⟨r, c.place, String.ofList (c.rest.take n), []⟩ a) :
    Agrees (.rule r) (One R) c (Parser.token r s c).outcome := by
  rw [Parser.token, Parser.named_outcome, Parser.scan_outcome]
  cases hscan : s c.rest with
  | none => exact .refused (.notRule (hs.refused hscan))
  | some found =>
    refine .read (.rule (hs.found hscan)) ⟨_, rfl, ?_⟩ rfl
    rw [Cursor.textTo_advance]
    exact hR _ _ hscan

/-! ### One part behind the other -/

theorem map (h : Agrees p A c (q d).outcome) (hC : ∀ ps a, A ps a → C ps (k a)) :
    Agrees p C c ((q >>= fun a => pure (k a)) d).outcome := by
  rw [Parser.bind_outcome]
  generalize (q d).outcome = r at h
  cases h with
  | read h ha hd => exact .read h (hC _ _ ha) hd
  | refused h => exact .refused h

theorem after {r : Option (β × Cursor)} {ps : List Piece} (hp : p.Matches c (some (ps, d)))
    (h : Agrees f (fun qs b => C (ps ++ qs) b) d.skipped r) : Agrees (p >> f) C c r := by
  cases h with
  | read hf hb he => exact .read (hp.next hf) hb he
  | refused hf => exact .refused (hp.next hf)

theorem next {k : α → Parser β} (h : Agrees p A c (q c).outcome)
    (hk : ∀ ps a d, p.Matches c (some (ps, d)) → A ps a →
      Agrees f (fun qs b => C (ps ++ qs) b) d.skipped (k a d.skipped).outcome) :
    Agrees (p >> f) C c ((q >>= fun a => Parser.skip >>= fun _ => k a) c).outcome := by
  rw [Parser.bind_outcome]
  generalize (q c).outcome = r at h
  cases h with
  | @read ps a d c' h ha hd =>
    rw [Option.bind_some, Parser.skip_outcome, ← hd]
    exact after h (hk ps a d h ha)
  | refused h => exact .refused (.notFirst h)

/-- The cursor never goes back. -/
theorem behind {k : α → Parser β} (h : Agrees p A c (q c).outcome)
    (hk : ∀ ps a d, A ps a → d.rest.length ≤ c.rest.length →
      Agrees f (fun qs b => C (ps ++ qs) b) d (k a d).outcome) :
    Agrees (p >> f) C c ((q >>= fun a => Parser.skip >>= fun _ => k a) c).outcome :=
  h.next fun ps a d hd ha => hk ps a _ ha (Nat.le_trans d.length_skipped_le hd.length_le)

theorem part {k : α → Parser β} (h : Agrees p (One R) c (q c).outcome)
    (hk : ∀ t a d, R t a → d.rest.length ≤ c.rest.length →
      Agrees f (fun ts b => C (t :: ts) b) d (k a d).outcome) :
    Agrees (p >> f) C c ((q >>= fun a => Parser.skip >>= fun _ => k a) c).outcome := by
  refine h.behind fun ps a d ha hd => ?_
  obtain ⟨t, rfl, ht⟩ := ha
  exact hk t a d ht hd

/-- Behind a sign no blank is left, and less of the text than before. -/
theorem sign {s : String} (hs : s.toList ≠ []) (hq : ∀ d, d.skipped = d → d.rest.length < c.rest.length →
    Agrees f B d (q d).outcome) :
    Agrees (.text s >> f) B c ((Parser.symbol s >>= fun _ => Parser.skip >>= fun _ => q) c).outcome := by
  refine next (A := fun ps _ => ps = []) (.scan (text_scans s) fun _ _ _ => rfl) fun ps _ d hd hps => ?_
  subst hps
  exact hq _ d.skipped_skipped (Nat.lt_of_le_of_lt d.length_skipped_le (Strict.text hs hd))

theorem lastSign {s : String} {a : α} (hB : B [] a) :
    Agrees (.text s) B c ((Parser.symbol s >>= fun _ => pure a) c).outcome :=
  map (A := fun ps _ => ps = []) (.scan (text_scans s) fun _ _ _ => rfl) fun _ _ hps => hps ▸ hB

end Agrees

/-! ### Repetition -/

/-- In front of the first part there is no blank. -/
theorem Matches.each {r : Option (List Piece × Cursor)} (hc : c.skipped = c)
    (h : (many (blanks ++ p)).Matches c r) : (each p).Matches c r := by
  cases h with
  | more h hmany =>
    cases h with
    | seq hb hp =>
      cases hb.unique (blanks_skip c)
      exact .optional (.seq (hc ▸ hp) hmany)
  | noMore h =>
    cases h with
    | notFirst hb => cases hb.unique (blanks_skip c)
    | notSecond hb hp =>
      cases hb.unique (blanks_skip c)
      exact .missing (.notFirst (hc ▸ hp))

namespace Agrees
variable {R : Piece → α → Prop} {N : Nat}

/-- Part by part, wherever in the blanks in front of the next one each of them stands. -/
theorem manyUpTo (hp : p.Strict) (hq : ∀ e, e.rest.length ≤ N → Agrees p (One R) e (q e).outcome)
    {limit : Nat} (hcd : d.skipped = c.skipped) (hN : d.rest.length ≤ N) (hlimit : d.rest.length < limit) :
    Agrees (.many (blanks ++ p)) (List.Forall₂ R) d (Parser.manyUpTo q limit c).outcome := by
  -- The limit is measured where the pattern stands: the parser may be back in front of blanks.
  induction limit generalizing c d with
  | zero => cases hlimit
  | succ limit ih =>
    have hle := d.length_skipped_le
    have hpart := hq c.skipped (hcd ▸ Nat.le_trans hle hN)
    rw [Parser.manyUpTo_outcome]
    generalize (q c.skipped).outcome = r at hpart
    cases hpart with
    | refused h => exact .read (.noMore (.behind (blanks_skip d) (hcd ▸ h))) .nil hcd
    | @read _ a d' c' h ha hd' =>
      obtain ⟨t, rfl, ht⟩ := ha
      rw [← hcd] at h
      have hlt : d'.rest.length < d.skipped.rest.length := hp h
      have hmany := ih hd' (by omega) (by omega)
      dsimp only
      generalize (Parser.manyUpTo q limit c').outcome = r at hmany
      cases hmany with
      | read hmany has he => exact .read (.more (.behind (blanks_skip d) h) hmany) (.cons ht has) he
      | refused hmany => cases hmany

theorem each (hp : p.Strict) (hq : ∀ e, e.rest.length ≤ N → Agrees p (One R) e (q e).outcome)
    (hd : d = c.skipped) (hN : d.rest.length ≤ N) :
    Agrees (.each p) (List.Forall₂ R) d (Parser.many q c).outcome := by
  subst hd
  have hmany := manyUpTo hp hq c.skipped_skipped hN (Nat.lt_succ_of_le c.length_skipped_le)
  unfold Parser.many
  generalize (Parser.manyUpTo q (c.rest.length + 1) c).outcome = r at hmany
  cases hmany with
  | read h has he => exact .read (h.each c.skipped_skipped) has he
  | refused h => cases h

theorem separated (hq : ∀ e, e.rest.length ≤ c.rest.length → Agrees p (One R) e (q e).outcome) :
    Agrees (p >> .each (.text "," >> p)) (List.Forall₂ R) c (Parser.separated q c).outcome := by
  have hfirst := hq c (Nat.le_refl _)
  unfold Parser.separated
  rw [Parser.bind_outcome]
  generalize (q c).outcome = r at hfirst
  cases hfirst with
  | refused h => exact .refused (.notFirst h)
  | @read _ a d c' h ha hd =>
    obtain ⟨t, rfl, ht⟩ := ha
    have hle : d.skipped.rest.length ≤ c.rest.length := Nat.le_trans d.length_skipped_le h.length_le
    have hmore := each (q := do Parser.symbol ","; Parser.skip; q) (Strict.first (Strict.text (by decide)) _)
      (fun e he => sign (by decide) fun e' _ hlt => hq e' (by omega)) hd hle
    exact after h (map hmore fun _ _ has => .cons ht has)

theorem separatedOrNone (hq : ∀ e, e.rest.length ≤ c.rest.length → Agrees p (One R) e (q e).outcome) :
    Agrees (.optional (p >> .each (.text "," >> p))) (List.Forall₂ R) c
      (Parser.separatedOrNone q c).outcome := by
  refine map (separated hq).optional fun ps found h => ?_
  cases h with
  | some h => exact h
  | none => exact .nil

end Agrees
end Pattern
end TypedRecords
