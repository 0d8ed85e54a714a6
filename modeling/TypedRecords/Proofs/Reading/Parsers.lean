import Mathlib.Data.List.Forall2
import TypedRecords.Syntax.Parser

/-!
# What parsers read

`Parser.Reads` says what a parser makes of a text that something follows, and `Parser.Refuses` that it
reads nothing there. Both go along the ways of putting parsers together, whatever the place. What fails
on the way serves the report of syntax errors alone and is not looked at.
-/

namespace TypedRecords

/-! ### Blanks -/

theorem blankWidth_cons {c : Char} (hslash : c ≠ '/') (cs : List Char) :
    blankWidth (c :: cs) = if isBlank c then blankWidth cs + 1 else 0 := by
  rw [blankWidth]
  · exact fun _ h => absurd h hslash
  · exact fun _ h => absurd h hslash

theorem blankWidth_blank {c : Char} (h : isBlank c = true) (cs : List Char) :
    blankWidth (c :: cs) = blankWidth cs + 1 := by
  rw [blankWidth_cons (by rintro rfl; cases h), if_pos h]

theorem blankWidth_blanks {blanks : List Char} (h : ∀ c ∈ blanks, isBlank c = true)
    (rest : List Char) : blankWidth (blanks ++ rest) = blanks.length + blankWidth rest := by
  induction blanks with
  | nil => exact (Nat.zero_add _).symm
  | cons c cs ih =>
    obtain ⟨hc, hcs⟩ := List.forall_mem_cons.1 h
    rw [List.cons_append, blankWidth_blank hc, ih hcs, List.length_cons]
    omega

/-- A comment of one line goes on to the end of the line. -/
theorem lineCommentWidth_line {cs : List Char} (h : '\n' ∉ cs) (rest : List Char) :
    lineCommentWidth (cs ++ '\n' :: rest) = cs.length + 1 + blankWidth rest := by
  induction cs with
  | nil =>
    rw [List.nil_append, lineCommentWidth, if_pos rfl, List.length_nil]
    omega
  | cons c cs ih =>
    have hc : c ≠ '\n' := fun hc => h (hc ▸ List.mem_cons_self ..)
    rw [List.cons_append, lineCommentWidth, if_neg hc, ih (fun hcs => h (List.mem_cons_of_mem _ hcs)),
      List.length_cons]
    omega

/-- The text begins with neither a blank nor a comment. -/
def Solid (text : List Char) : Prop := ∀ c ∈ text.head?, isBlank c = false ∧ c ≠ '/'

namespace Solid

theorem cons {c : Char} (hblank : isBlank c = false) (hslash : c ≠ '/') (cs : List Char) :
    Solid (c :: cs) := fun _ h => Option.some.inj h ▸ ⟨hblank, hslash⟩

theorem blankWidth {text : List Char} (h : Solid text) : blankWidth text = 0 := by
  cases text with
  | nil => rfl
  | cons c cs =>
    obtain ⟨hblank, hslash⟩ := h c rfl
    rw [blankWidth_cons hslash, hblank]
    rfl

end Solid

namespace Parser

/-- The parser reads `text` and stops in front of `rest`, and what it answers satisfies `Q`. -/
def Reads {α : Type} (p : Parser α) (text rest : List Char) (Q : α → Prop) : Prop :=
  ∀ place : Location, ∃ a,
    (p ⟨text ++ rest, place⟩).outcome = some (a, ⟨rest, place.advanceAll text⟩) ∧ Q a

/-- The parser reads nothing where `text` is left. -/
def Refuses {α : Type} (p : Parser α) (text : List Char) : Prop :=
  ∀ place : Location, (p ⟨text, place⟩).outcome = none

variable {α β : Type} {p q : Parser α} {text text' rest : List Char} {Q : α → Prop}

/-- A token is what its scanner finds at the cursor. -/
theorem token_outcome {rule : Rule} {s : Scanner α} {c c' : Cursor} {a : α} :
    (token rule s c).outcome = some (a, c') ↔ ∃ n, s c.rest = some (a, n) ∧ c' = c.advance n := by
  have houtcome : (token rule s c).outcome = (scan s c).outcome := by
    unfold token named
    cases h : (scan s c).outcome <;> simp only [h]
  rw [houtcome, scan]
  cases s c.rest with
  | none => exact ⟨nofun, fun ⟨_, h, _⟩ => nomatch h⟩
  | some r =>
    obtain ⟨b, m⟩ := r
    constructor
    · intro h
      obtain ⟨rfl, rfl⟩ := Prod.mk.inj (Option.some.inj h)
      exact ⟨m, rfl, rfl⟩
    · rintro ⟨n, h, rfl⟩
      obtain ⟨rfl, rfl⟩ := Prod.mk.inj (Option.some.inj h)
      rfl

namespace Reads

theorem mono {R : α → Prop} (h : p.Reads text rest Q) (hQR : ∀ a, Q a → R a) :
    p.Reads text rest R := by
  intro place
  obtain ⟨a, ha, hQ⟩ := h place
  exact ⟨a, ha, hQR a hQ⟩

theorem pure {a : α} (h : Q a) : (Pure.pure a : Parser α).Reads [] rest Q := fun _ => ⟨a, rfl, h⟩

theorem bind {f : α → Parser β} {R : β → Prop} (h : p.Reads text (text' ++ rest) Q)
    (hf : ∀ a, Q a → (f a).Reads text' rest R) : (p >>= f).Reads (text ++ text') rest R := by
  intro place
  obtain ⟨a, ha, hQ⟩ := h place
  obtain ⟨b, hb, hR⟩ := hf a hQ (place.advanceAll text)
  refine ⟨b, ?_, hR⟩
  show (Parser.bind p f _).outcome = _
  simp only [Parser.bind, List.append_assoc, ha, hb, Location.advanceAll_append]

theorem here : Parser.here.Reads [] rest fun _ => True := fun _ => ⟨_, rfl, trivial⟩

theorem named {rule : Rule} (h : p.Reads text rest Q) : (Parser.named rule p).Reads text rest Q := by
  intro place
  obtain ⟨a, ha, hQ⟩ := h place
  exact ⟨a, by simp only [Parser.named, ha], hQ⟩

theorem orElse (h : p.Reads text rest Q) : (p <|> q).Reads text rest Q := by
  intro place
  obtain ⟨a, ha, hQ⟩ := h place
  refine ⟨a, ?_, hQ⟩
  show (Parser.orElse p _ _).outcome = _
  simp only [Parser.orElse, ha]

theorem orElse_right (hp : p.Refuses (text ++ rest)) (h : q.Reads text rest Q) :
    (p <|> q).Reads text rest Q := by
  intro place
  obtain ⟨a, ha, hQ⟩ := h place
  refine ⟨a, ?_, hQ⟩
  show (Parser.orElse p _ _).outcome = _
  simp only [Parser.orElse, hp place, ha]

theorem optional (h : p.Reads text rest Q) :
    (Parser.optional p).Reads text rest fun a => ∃ b, a = some b ∧ Q b := by
  intro place
  obtain ⟨a, ha, hQ⟩ := h place
  exact ⟨some a, by simp only [Parser.optional, ha], a, rfl, hQ⟩

theorem optional_none (h : p.Refuses rest) : (Parser.optional p).Reads [] rest (· = none) := by
  intro place
  exact ⟨none, by simp only [Parser.optional, List.nil_append, h place, Location.advanceAll_nil], rfl⟩

theorem scan {s : Scanner α} {a : α} (h : s (text ++ rest) = some (a, text.length)) (hQ : Q a) :
    (Parser.scan s).Reads text rest Q := by
  intro place
  refine ⟨a, ?_, hQ⟩
  simp only [Parser.scan, h, Cursor.advance, List.drop_left, List.take_left]

theorem token {rule : Rule} {s : Scanner α} {a : α} (h : s (text ++ rest) = some (a, text.length))
    (hQ : Q a) : (Parser.token rule s).Reads text rest Q :=
  named (scan h hQ)

theorem symbol (text : String) : (Parser.symbol text).Reads text.toList rest fun _ => True := by
  refine scan (a := ()) ?_ trivial
  rw [scanText, if_pos (List.isPrefixOf_iff_prefix.2 (List.prefix_append ..))]

theorem skip_of_blankWidth (h : blankWidth (text ++ rest) = text.length) :
    Parser.skip.Reads text rest fun _ => True := by
  intro place
  refine ⟨(), ?_, trivial⟩
  simp only [Parser.skip, h, Cursor.advance, List.drop_left, List.take_left]

theorem skip (hblanks : ∀ c ∈ text, isBlank c = true) (hrest : Solid rest) :
    Parser.skip.Reads text rest fun _ => True := by
  refine skip_of_blankWidth ?_
  rw [blankWidth_blanks hblanks, hrest.blankWidth, Nat.add_zero]

theorem noBlank (hrest : Solid rest) : Parser.skip.Reads [] rest fun _ => True :=
  skip (List.forall_mem_nil _) hrest

theorem space (hrest : Solid rest) : Parser.skip.Reads [' '] rest fun _ => True :=
  skip (List.forall_mem_singleton.2 rfl) hrest

theorem bind_nil {f : α → Parser β} {R : β → Prop} (h : p.Reads [] (text ++ rest) Q)
    (hf : ∀ a, Q a → (f a).Reads text rest R) : (p >>= f).Reads text rest R :=
  .bind h hf

theorem bind_here {f : Location → Parser β} {R : β → Prop}
    (hf : ∀ place, (f place).Reads text rest R) : (Parser.here >>= f).Reads text rest R :=
  .bind_nil .here fun place _ => hf place

theorem bind_noBlank {f : Unit → Parser β} {R : β → Prop} (h : Solid (text ++ rest))
    (hf : (f ()).Reads text rest R) : (Parser.skip >>= f).Reads text rest R :=
  .bind_nil (.noBlank h) fun _ _ => hf

theorem bind_space {f : Unit → Parser β} {R : β → Prop} (h : Solid (text ++ rest))
    (hf : (f ()).Reads text rest R) : (Parser.skip >>= f).Reads (' ' :: text) rest R :=
  .bind (.space h) fun _ _ => hf

theorem bind_pure {f : α → β} {R : β → Prop} (h : p.Reads text rest Q) (hf : ∀ a, Q a → R (f a)) :
    (p >>= fun a => Pure.pure (f a)).Reads text rest R := by
  rw [← List.append_nil text]
  exact .bind h fun a ha => .pure (hf a ha)

end Reads

namespace Refuses

theorem scan {s : Scanner α} (h : s text = none) : (Parser.scan s).Refuses text := by
  intro place
  simp only [Parser.scan, h]

theorem named {rule : Rule} (h : p.Refuses text) : (Parser.named rule p).Refuses text := by
  intro place
  simp only [Parser.named, h place]

theorem token {rule : Rule} {s : Scanner α} (h : s text = none) : (Parser.token rule s).Refuses text :=
  named (scan h)

theorem symbol {symbol : String} (h : symbol.toList.isPrefixOf text = false) :
    (Parser.symbol symbol).Refuses text := by
  refine scan ?_
  rw [scanText, h]
  rfl

theorem bind {f : α → Parser β} (h : p.Refuses text) : (p >>= f).Refuses text := by
  intro place
  show (Parser.bind p f _).outcome = none
  simp only [Parser.bind, h place]

theorem bind_right {f : α → Parser β} (h : p.Reads text rest Q)
    (hf : ∀ a, Q a → (f a).Refuses rest) : (p >>= f).Refuses (text ++ rest) := by
  intro place
  obtain ⟨a, ha, hQ⟩ := h place
  show (Parser.bind p f _).outcome = none
  simp only [Parser.bind, ha, hf a hQ _]

theorem bind_here {f : Location → Parser β} (hf : ∀ place, (f place).Refuses text) :
    (Parser.here >>= f).Refuses text :=
  .bind_right .here fun place _ => hf place

theorem orElse (hp : p.Refuses text) (hq : q.Refuses text) : (p <|> q).Refuses text := by
  intro place
  show (Parser.orElse p _ _).outcome = none
  simp only [Parser.orElse, hp place, hq place]

end Refuses

theorem Refuses.skip {f : Unit → Parser α} (h : (f ()).Refuses (text.drop (blankWidth text))) :
    (Parser.skip >>= f).Refuses text := by
  intro place
  show (Parser.bind Parser.skip f _).outcome = none
  simp only [Parser.bind, Parser.skip, Cursor.advance, h _]

/-! ### Repetition -/

theorem Reads.manyUpTo_none (hend : (Parser.skip >>= fun _ => p).Refuses rest) (limit : Nat) :
    (Parser.manyUpTo p limit).Reads [] rest (· = []) := by
  intro place
  cases limit with
  | zero => exact ⟨[], rfl, rfl⟩
  | succ limit =>
    refine ⟨[], ?_, rfl⟩
    simp only [Parser.manyUpTo, List.nil_append, hend place, Location.advanceAll_nil]

/-- Parts are read one after the other, with the blanks before each, up to a text where no further one
begins. What follows a part always satisfies `F`. -/
theorem Reads.manyUpTo {R : β → α → Prop} {F : List Char → Prop} {t : β → List Char} {xs : List β}
    (hstart : ∀ x ∈ xs, ∀ after, F (t x ++ after))
    (hpart : ∀ x ∈ xs, ∀ after, F after → (Parser.skip >>= fun _ => p).Reads (t x) after (R x))
    (hrest : F rest) (hend : (Parser.skip >>= fun _ => p).Refuses rest) {limit : Nat}
    (hlimit : xs.length < limit) :
    (Parser.manyUpTo p limit).Reads (xs.flatMap t) rest fun as => List.Forall₂ R xs as := by
  induction xs generalizing limit with
  | nil => exact (manyUpTo_none hend limit).mono fun _ has => has ▸ .nil
  | cons x xs ih =>
    obtain ⟨limit, rfl⟩ := Nat.exists_eq_succ_of_ne_zero (Nat.ne_of_gt (Nat.zero_lt_of_lt hlimit))
    obtain ⟨hx, hxs⟩ := List.forall_mem_cons.1 hstart
    obtain ⟨hp, hps⟩ := List.forall_mem_cons.1 hpart
    have hfollow : F (xs.flatMap t ++ rest) := by
      cases xs with
      | nil => exact hrest
      | cons y ys =>
        rw [List.flatMap_cons, List.append_assoc]
        exact hxs y (List.mem_cons_self ..) _
    intro place
    obtain ⟨a, ha, hR⟩ := hp _ hfollow place
    obtain ⟨as, has, hall⟩ := ih hxs hps (Nat.lt_of_succ_lt_succ hlimit) (place.advanceAll (t x))
    refine ⟨a :: as, ?_, .cons hR hall⟩
    rw [List.flatMap_cons, List.append_assoc, Parser.manyUpTo]
    simp only [ha, has, Location.advanceAll_append, Option.map_some]

theorem length_le_flatMap {t : β → List Char} {xs : List β} (hne : ∀ x ∈ xs, t x ≠ []) :
    xs.length ≤ (xs.flatMap t).length := by
  induction xs with
  | nil => exact Nat.le_refl _
  | cons x xs ih =>
    obtain ⟨hx, hxs⟩ := List.forall_mem_cons.1 hne
    have hpos := List.length_pos_iff.2 hx
    have := ih hxs
    rw [List.flatMap_cons, List.length_append, List.length_cons]
    omega

theorem Reads.many {R : β → α → Prop} {F : List Char → Prop} {t : β → List Char} {xs : List β}
    (hstart : ∀ x ∈ xs, ∀ after, F (t x ++ after))
    (hpart : ∀ x ∈ xs, ∀ after, F after → (Parser.skip >>= fun _ => p).Reads (t x) after (R x))
    (hrest : F rest) (hend : (Parser.skip >>= fun _ => p).Refuses rest)
    (hne : ∀ x ∈ xs, t x ≠ []) :
    (Parser.many p).Reads (xs.flatMap t) rest fun as => List.Forall₂ R xs as := by
  intro place
  refine Reads.manyUpTo hstart hpart hrest hend (Nat.lt_succ_of_le ?_) place
  show xs.length ≤ (xs.flatMap t ++ rest).length
  rw [List.length_append]
  exact Nat.le_add_right_of_le (length_le_flatMap hne)

theorem Reads.many_none (hend : (Parser.skip >>= fun _ => p).Refuses rest) :
    (Parser.many p).Reads [] rest (· = []) := fun place => manyUpTo_none hend _ place

theorem Reads.many_one (h : p.Reads text rest Q) (hsolid : Solid (text ++ rest))
    (hend : (Parser.skip >>= fun _ => p).Refuses rest) :
    (Parser.many p).Reads text rest fun as => ∃ a, as = [a] ∧ Q a := by
  intro place
  obtain ⟨a, ha, hQ⟩ := Reads.bind_noBlank (f := fun _ => p) hsolid h place
  obtain ⟨_, has, rfl⟩ := manyUpTo_none hend (text ++ rest).length (place.advanceAll text)
  refine ⟨[a], ?_, a, rfl, hQ⟩
  rw [List.nil_append] at has
  simp only [Parser.many, Parser.manyUpTo, ha, has, Option.map_some, Location.advanceAll_nil]

/-- Parts are read with the same blanks in front of each but the first. -/
theorem Reads.many_blanks {R : β → α → Prop} {t : β → List Char} {x : β} {xs : List β}
    {blanks : List Char} (hblanks : ∀ c ∈ blanks, isBlank c = true)
    (hpart : ∀ y ∈ x :: xs, ∀ after, p.Reads (t y) after (R y))
    (hsolid : ∀ y ∈ x :: xs, ∀ after, Solid (t y ++ after)) (hne : ∀ y ∈ x :: xs, t y ≠ [])
    (hend : (Parser.skip >>= fun _ => p).Refuses rest) :
    (Parser.many p).Reads (t x ++ xs.flatMap fun y => blanks ++ t y) rest
      fun as => List.Forall₂ R (x :: xs) as := by
  -- a part together with the blanks in front of it
  let parts : List (List Char × β) := ([], x) :: xs.map (blanks, ·)
  have hparts : ∀ b ∈ parts, (∀ c ∈ b.1, isBlank c = true) ∧ b.2 ∈ x :: xs := by
    refine List.forall_mem_cons.2 ⟨⟨List.forall_mem_nil _, List.mem_cons_self ..⟩, fun b hb => ?_⟩
    obtain ⟨y, hy, rfl⟩ := List.mem_map.1 hb
    exact ⟨hblanks, List.mem_cons_of_mem _ hy⟩
  have hreads : (Parser.many p).Reads (parts.flatMap fun b => b.1 ++ t b.2) rest
      fun as => List.Forall₂ (fun b a => R b.2 a) parts as := by
    refine Reads.many (F := fun _ => True) (fun _ _ _ => trivial) (fun b hb after _ => ?_) trivial hend
      fun b hb hnil => hne _ (hparts b hb).2 (List.append_eq_nil_iff.1 hnil).2
    obtain ⟨hb, hmem⟩ := hparts b hb
    exact .bind (.skip hb (hsolid _ hmem after)) fun _ _ => hpart _ hmem after
  have htext : (parts.flatMap fun b => b.1 ++ t b.2) = t x ++ xs.flatMap fun y => blanks ++ t y := by
    simp only [parts, List.flatMap_cons, List.flatMap_map, List.nil_append]
  have hresult : ∀ as, List.Forall₂ (fun b a => R b.2 a) parts as ↔ List.Forall₂ R (x :: xs) as := by
    intro as
    rw [← List.forall₂_map_left_iff (f := Prod.snd)]
    simp only [parts, List.map_cons, List.map_map, Function.comp_def, List.map_id']
  rw [← htext]
  exact hreads.mono fun as => (hresult as).1

/-- Parts are read with a comma and a blank in front of each but the first, where what follows a part
satisfies `F`, as a comma does. -/
theorem Reads.separated {R : β → α → Prop} {F : List Char → Prop} {t : β → List Char} {x : β}
    {xs : List β} (hpart : ∀ y ∈ x :: xs, ∀ after, F after → p.Reads (t y) after (R y))
    (hsolid : ∀ y ∈ x :: xs, ∀ after, Solid (t y ++ after)) (hcomma : ∀ after, F (',' :: after))
    (hrest : F rest) (hend : (rest.drop (blankWidth rest)).head? ≠ some ',') :
    (Parser.separated p).Reads (t x ++ xs.flatMap fun y => ',' :: ' ' :: t y) rest
      fun as => List.Forall₂ R (x :: xs) as := by
  obtain ⟨hx, hxs⟩ := List.forall_mem_cons.1 hpart
  obtain ⟨-, hsolids⟩ := List.forall_mem_cons.1 hsolid
  have hcommaRefused : (Parser.symbol ",").Refuses (rest.drop (blankWidth rest)) := by
    refine .symbol ?_
    cases hhead : rest.drop (blankWidth rest) with
    | nil => rfl
    | cons c cs =>
      rw [hhead] at hend
      have hc : ',' ≠ c := fun hc => hend (hc ▸ rfl)
      simp [List.isPrefixOf, hc]
  have hmany : (Parser.many (do Parser.symbol ","; Parser.skip; p)).Reads
      (xs.flatMap fun y => ',' :: ' ' :: t y) rest fun as => List.Forall₂ R xs as := by
    refine Reads.many (fun y _ after => hcomma _) (fun y hy after hafter => ?_) hrest
      (.skip (.bind hcommaRefused)) fun y _ => nofun
    have hskip : Parser.skip.Reads [] (',' :: ' ' :: t y ++ after) fun _ => True :=
      .noBlank (.cons rfl (by decide) _)
    have hspace : Parser.skip.Reads [' '] (t y ++ after) fun _ => True := .space (hsolids y hy after)
    exact .bind hskip fun _ _ => .bind (.symbol ",") fun _ _ => .bind hspace fun _ _ => hxs y hy after hafter
  have hfirst : F ((xs.flatMap fun y => ',' :: ' ' :: t y) ++ rest) := by
    cases xs with
    | nil => exact hrest
    | cons y ys => exact hcomma _
  refine .bind (hx _ hfirst) fun a ha => ?_
  rw [← List.append_nil (xs.flatMap _)]
  exact .bind hmany fun as has => .pure (.cons ha has)

end Parser
end TypedRecords
