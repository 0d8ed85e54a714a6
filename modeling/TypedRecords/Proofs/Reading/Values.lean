import TypedRecords.Proofs.Outcome
import TypedRecords.Proofs.Reading.Types
import TypedRecords.Proofs.Value.Conforms

/-!
# Reading values

The text of a value reads as an expression that writes the value down, as `Ty.Writes` says: bits most
significant first, integers for single bits, names for records. Each rule for values begins with
characters of its own, so the rules in front of the right one refuse the text. The exception is a list
of bit vectors, which begins as code does.
-/

namespace TypedRecords

/-- What follows a value in a declaration or in a list. -/
def AfterValue (rest : List Char) : Prop := ∃ c ∈ rest.head?, c = ';' ∨ c = ',' ∨ c = ']'

namespace AfterValue
variable {rest : List Char}

theorem exists_cons (h : AfterValue rest) :
    ∃ c cs, rest = c :: cs ∧ (c = ';' ∨ c = ',' ∨ c = ']') := by
  obtain ⟨c, hc, h⟩ := h
  obtain ⟨cs, rfl⟩ := List.head?_eq_some_iff.1 hc
  exact ⟨c, cs, rfl, h⟩

theorem atWordEnd (h : AfterValue rest) : atWordEnd rest = true := by
  obtain ⟨c, cs, rfl, rfl | rfl | rfl⟩ := h.exists_cons <;> rfl

theorem solid (h : AfterValue rest) : Solid rest := by
  obtain ⟨c, cs, rfl, rfl | rfl | rfl⟩ := h.exists_cons <;> exact .cons rfl (by decide) _

end AfterValue

/-! ### Rules that refuse -/

namespace Parser.Refuses
variable {c d : Char} {cs : List Char}

theorem symbol_cons {symbol : String} (hsymbol : symbol.toList = [d]) (h : d ≠ c) :
    (Parser.symbol symbol).Refuses (c :: cs) := by
  refine .symbol ?_
  rw [hsymbol, List.isPrefixOf, beq_eq_false_iff_ne.2 h, Bool.false_and]

theorem keyword_cons {k : Keyword} {ds : List Char} (hk : k.text.toList = d :: ds) (h : d ≠ c) :
    (Parser.keyword k).Refuses (c :: cs) := by
  refine .token ?_
  unfold scanKeyword
  dsimp only
  rw [hk, List.isPrefixOf, beq_eq_false_iff_ne.2 h, Bool.false_and, Bool.false_and,
    if_neg Bool.false_ne_true]

theorem unset (h : c ≠ '?') : Parser.unset.Refuses (c :: cs) := .named (.bind (.symbol_cons rfl h.symm))

theorem boolean (ht : c ≠ 't') (hf : c ≠ 'f') : Parser.boolean.Refuses (c :: cs) :=
  .named (.orElse (.bind (.keyword_cons rfl ht.symm)) (.bind (.keyword_cons rfl hf.symm)))

theorem integer (hsign : c ≠ '-') (hdigit : c.isDigit = false) : Parser.integer.Refuses (c :: cs) := by
  have hzero : '0' ≠ c := by
    rintro rfl
    cases hdigit
  have hmagnitude : scanMagnitude (c :: cs) = none := by
    refine List.findSome?_eq_none_iff.2 fun radix _ => ?_
    refine congrArg (Option.map _) (show scanDigits radix (c :: cs) = none from ?_)
    unfold scanDigits
    cases radix with
    | decimal =>
      have hbegins : Radix.decimal.mark.toList.isPrefixOf (c :: cs) = true := rfl
      dsimp only
      rw [hbegins, if_pos rfl]
      show (if ((c :: cs).takeWhile Char.isDigit).isEmpty then none else _) = none
      rw [List.takeWhile_cons, hdigit]
      rfl
    | hex =>
      have hbegins : Radix.hex.mark.toList.isPrefixOf (c :: cs) = false := by
        show ('0' == c && _) = false
        rw [beq_eq_false_iff_ne.2 hzero, Bool.false_and]
      dsimp only
      rw [hbegins, if_neg Bool.false_ne_true]
    | binary =>
      have hbegins : Radix.binary.mark.toList.isPrefixOf (c :: cs) = false := by
        show ('0' == c && _) = false
        rw [beq_eq_false_iff_ne.2 hzero, Bool.false_and]
      dsimp only
      rw [hbegins, if_neg Bool.false_ne_true]
  refine .bind_here fun place => .bind (.token ?_)
  have hminus : ['-'].isPrefixOf (c :: cs) = false := by
    rw [List.isPrefixOf, beq_eq_false_iff_ne.2 hsign.symm, Bool.false_and]
  unfold scanInteger
  rw [hminus]
  simp only [Bool.false_eq_true, if_false, List.drop_zero, hmagnitude]

theorem string (h : c ≠ '"') : Parser.string.Refuses (c :: cs) := by
  refine .bind_here fun place => .bind (.token ?_)
  rw [scanString]
  exact fun _ h' => h (List.cons.inj h').1

theorem code (h : c ≠ '[' ∨ cs.head? ≠ some '\x7b') : Parser.code.Refuses (c :: cs) := by
  refine .bind (.token ?_)
  rw [scanCode]
  rintro after h'
  obtain ⟨rfl, rfl⟩ := List.cons.inj h'
  exact h.elim (· rfl) (· rfl)

theorem bitsInit (h : c ≠ '\x7b') (value : Parser ValueSyntax) :
    (Parser.bitsInit value).Refuses (c :: cs) :=
  .named (.bind_here fun _ => .bind (.symbol_cons rfl h.symm))

theorem listInit (h : c ≠ '[') (value : Parser ValueSyntax) : (Parser.listInit value).Refuses (c :: cs) :=
  .named (.bind_here fun _ => .bind (.symbol_cons rfl h.symm))

theorem dagInit (h : c ≠ '(') (value : Parser ValueSyntax) : (Parser.dagInit value).Refuses (c :: cs) :=
  .named (.bind_here fun _ => .bind (.symbol_cons rfl h.symm))

theorem bangOp (h : c ≠ '!') (value : Parser ValueSyntax) : (Parser.bangOp value).Refuses (c :: cs) := by
  refine .named (.bind_here fun _ => .bind (.token ?_))
  rw [scanBangName]
  exact fun _ h' => h (List.cons.inj h').1

/-- No value begins with a closing bracket. -/
theorem valueTo (hc : c = ']' ∨ c = '\x7d') (depth : Nat) : (Parser.valueTo depth).Refuses (c :: cs) := by
  cases depth with
  | zero => exact fun _ => rfl
  | succ depth =>
    have hident : scanIdentifier (c :: cs) = none := by rcases hc with rfl | rfl <;> rfl
    have hmarks : c ≠ '?' ∧ c ≠ 't' ∧ c ≠ 'f' ∧ c ≠ '-' ∧ c.isDigit = false ∧ c ≠ '"' ∧ c ≠ '[' ∧
        c ≠ '\x7b' ∧ c ≠ '(' ∧ c ≠ '!' := by rcases hc with rfl | rfl <;> decide
    obtain ⟨hunset, ht, hf, hsign, hdigit, hquote, hlist, hbits, hdag, hbang⟩ := hmarks
    refine .orElse (.unset hunset) (.orElse (.boolean ht hf) (.orElse (.integer hsign hdigit) ?_))
    refine .orElse (.string hquote) (.orElse (.code (.inl hlist)) (.orElse (.bitsInit hbits _) ?_))
    refine .orElse (.listInit hlist _) (.orElse (.dagInit hdag _) (.orElse (.bangOp hbang _) ?_))
    exact .bind_here fun _ => .bind (.named (.token hident))

end Parser.Refuses

/-! ### Sequences -/

theorem toList_commaSeparated (s : String) (ss : List String) :
    (commaSeparated (s :: ss)).toList = s.toList ++ ss.flatMap fun t => ',' :: ' ' :: t.toList := by
  simp [commaSeparated, List.flatMap_map]

theorem length_le_commaSeparated {s : String} {ss : List String} (hs : s ∈ ss) :
    s.toList.length ≤ (commaSeparated ss).toList.length := by
  cases ss with
  | nil => cases hs
  | cons t ts =>
    rw [toList_commaSeparated, List.length_append]
    rcases List.mem_cons.1 hs with rfl | hs
    · exact Nat.le_add_right ..
    · obtain ⟨before, after, rfl⟩ := List.append_of_mem hs
      rw [List.flatMap_append, List.flatMap_cons, List.length_append, List.length_append,
        List.length_cons, List.length_cons]
      omega

namespace Parser.Reads
variable {β : Type} {rest : List Char}

theorem separatedOrNone_nil {p : Parser α} (hnone : p.Refuses rest) :
    (Parser.separatedOrNone p).Reads [] rest (· = []) := by
  refine .bind_pure (.optional_none (.bind hnone)) ?_
  rintro _ rfl
  rfl

theorem separatedOrNone_cons {p : Parser α} {R : β → α → Prop} {F : List Char → Prop} {t : β → String}
    {x : β} {xs : List β} (hpart : ∀ y ∈ x :: xs, ∀ after, F after → p.Reads (t y).toList after (R y))
    (hsolid : ∀ y ∈ x :: xs, ∀ after, Solid ((t y).toList ++ after)) (hcomma : ∀ after, F (',' :: after))
    (hrest : F rest) (hend : (rest.drop (blankWidth rest)).head? ≠ some ',') :
    (Parser.separatedOrNone p).Reads (commaSeparated ((x :: xs).map t)).toList rest
      fun as => List.Forall₂ R (x :: xs) as := by
  rw [List.map_cons, toList_commaSeparated, List.flatMap_map]
  refine .bind_pure (.optional (.separated hpart hsolid hcomma hrest hend)) ?_
  rintro _ ⟨as, rfl, has⟩
  exact has

end Parser.Reads

theorem toList_bitsText (lsbFirst : List (Option Bool)) : (bitsText lsbFirst).toList =
    '\x7b' :: ' ' :: ((commaSeparated (lsbFirst.reverse.map bitText)).toList ++ [' ', '\x7d']) := by
  simp [bitsText]

theorem toList_list (element : Ty) (items : List Value) : (Value.list element items).text.toList =
    '[' :: ((commaSeparated (items.map Value.text)).toList ++ [']']) := by
  simp [Value.text, Value.itemTexts_eq_map]

theorem length_lt_list {element : Ty} {items : List Value} {v : Value} (hv : v ∈ items) :
    v.text.toList.length < (Value.list element items).text.toList.length := by
  have hle := length_le_commaSeparated (List.mem_map_of_mem (f := Value.text) hv)
  rw [toList_list, List.length_cons, List.length_append]
  omega

/-! ### What a value is written as -/

/-- One bit as it is written. -/
def bitExpr : Option Bool → Expr
  | some b => .int (if b then 1 else 0)
  | none => .unset

namespace Ty

/-- The expression writes the value of the type down. -/
def Writes : Ty → Value → Expr → Prop
  | .bit, .bit b, e => e = bitExpr (some b)
  | .bits _, .bits lsbFirst, .bits items _ => items = lsbFirst.reverse.map bitExpr
  | .int, .int number, e => e = .int number
  | .string, .string text, e => e = .string text
  | .code, .code text, e => e = .code text
  | .list element, .list _ items, .list es none _ => List.Forall₂ element.Writes items es
  | .record _, .record ref, .reference name _ => name = ref.name
  | _, _, _ => False

end Ty

theorem toExprs_eq_ok {declared : String → Bool} {vs : List ValueSyntax} {es : List Expr} :
    ValueSyntax.toExprs declared vs = .ok es ↔
      List.Forall₂ (fun v e => v.toExpr declared = .ok e) vs es := by
  induction vs generalizing es with
  | nil =>
    rw [ValueSyntax.toExprs, List.forall₂_nil_left_iff]
    exact ⟨fun h => (Except.ok.inj h).symm, fun h => h ▸ rfl⟩
  | cons v vs ih =>
    rw [ValueSyntax.toExprs, bind_eq_ok, List.forall₂_cons_left_iff]
    refine exists_congr fun e => ?_
    rw [bind_eq_ok]
    constructor
    · rintro ⟨he, es', hes', h⟩
      exact ⟨es', he, ih.1 hes', (pure_eq_ok.1 h).symm⟩
    · rintro ⟨es', he, hes', rfl⟩
      exact ⟨he, es', ih.2 hes', rfl⟩

theorem exists_forall₂ {α β γ : Type} {R : β → γ → Prop} {S : α → γ → Prop} {as : List α} {bs : List β}
    (h : List.Forall₂ (fun a b => ∃ c, R b c ∧ S a c) as bs) :
    ∃ cs, List.Forall₂ R bs cs ∧ List.Forall₂ S as cs := by
  induction h with
  | nil => exact ⟨[], .nil, .nil⟩
  | cons hab _ ih =>
    obtain ⟨c, hR, hS⟩ := hab
    obtain ⟨cs, hRs, hSs⟩ := ih
    exact ⟨c :: cs, .cons hR hRs, .cons hS hSs⟩

/-! ### Values without parts -/

namespace Parser.Reads
variable {declared : String → Bool} {rest : List Char}

theorem integer (number : Int64) (hrest : atWordEnd rest = true) :
    Parser.integer.Reads (toString number.toInt).toList rest
      fun v => v.toExpr declared = .ok (.int number) := by
  refine .bind_here fun place => .bind_pure (.token (scanInteger_toString number.toInt hrest) rfl) ?_
  rintro _ rfl
  rw [ValueSyntax.toExpr, integerValue, value?_intLiteral]
  rfl

theorem string (text : String) :
    Parser.string.Reads (quoted text).toList rest fun v => v.toExpr declared = .ok (.string text) := by
  refine .bind_here fun place => .bind_pure (.token (scanString_quoted text) rfl) ?_
  rintro _ rfl
  rw [ValueSyntax.toExpr, stringText, escape, String.toList_ofList, unescape_escape]
  exact congrArg (fun s => Except.ok (Expr.string s)) String.ofList_toList

theorem code {text : String} (h : ¬['}', ']'] <:+: text.toList) :
    Parser.code.Reads (Value.code text).text.toList rest
      fun v => v.toExpr declared = .ok (.code text) := by
  refine .bind_pure (.token (scanCode_open h rest) rfl) ?_
  rintro _ rfl
  rw [ValueSyntax.toExpr, String.ofList_toList]

theorem reference {name : String} (h : IsIdentifier name) (hrest : atWordEnd rest = true) :
    Parser.reference.Reads name.toList rest
      fun v => ∃ place, v.toExpr declared = .ok (.reference name place) := by
  refine .bind_here fun place => .bind_pure (.named (.identifier h hrest)) ?_
  rintro _ rfl
  exact ⟨place, rfl⟩

end Parser.Reads

/-! ### Values -/

theorem head_toString (number : Int) :
    ∃ c cs, (toString number).toList = c :: cs ∧ (c = '-' ∨ c.isDigit = true) := by
  cases number with
  | ofNat n =>
    obtain ⟨c, cs, hcs⟩ := List.exists_cons_of_ne_nil (toString_ne_nil n)
    exact ⟨c, cs, hcs, .inr (isDigit_toString n c (hcs ▸ List.mem_cons_self ..))⟩
  | negSucc n => exact ⟨'-', _, toList_toString_negSucc n, .inl rfl⟩

/-- The value can be read back: no code text in it closes its own brackets, no list of bit vectors in
it has items, and the records it refers to can be named. -/
structure Value.Readable (v : Value) : Prop where
  code : ∀ text, Within (.code text) v → ¬['}', ']'] <:+: text.toList
  bits : ∀ width items, Within (.list (.bits width) items) v → items = []
  reference : ∀ ref, Within (.record ref) v → IsIdentifier ref.name

theorem Value.Readable.list {element : Ty} {items : List Value} (h : ∀ v ∈ items, v.Readable)
    (hbits : ∀ width, element = .bits width → items = []) : (Value.list element items).Readable where
  code text hw := by cases hw with | item hv hw => exact (h _ hv).code text hw
  bits width vs hw := by
    cases hw with
    | refl => exact hbits width rfl
    | item hv hw => exact (h _ hv).bits width vs hw
  reference ref hw := by cases hw with | item hv hw => exact (h _ hv).reference ref hw

theorem Value.Readable.item {element : Ty} {items : List Value} (h : (Value.list element items).Readable)
    {v : Value} (hv : v ∈ items) : v.Readable where
  code text hw := h.code text (.item hv hw)
  bits width vs hw := h.bits width vs (.item hv hw)
  reference ref hw := h.reference ref (.item hv hw)

namespace Parser.Reads
variable {declared : String → Bool} {rest : List Char} {depth : Nat}

theorem valueTo_integer (number : Int64) (hrest : atWordEnd rest = true) :
    (Parser.valueTo (depth + 1)).Reads (toString number.toInt).toList rest
      fun v => v.toExpr declared = .ok (.int number) := by
  obtain ⟨c, cs, hcs, hc⟩ := head_toString number.toInt
  have hmarks : c ≠ '?' ∧ c ≠ 't' ∧ c ≠ 'f' := by
    refine ⟨?_, ?_, ?_⟩ <;> rintro rfl <;> revert hc <;> decide
  obtain ⟨hunset, ht, hf⟩ := hmarks
  refine .orElse_right ?_ (.orElse_right ?_ (.orElse (.integer number hrest)))
  · exact hcs ▸ .unset hunset
  · exact hcs ▸ .boolean ht hf

theorem valueTo_string (text : String) :
    (Parser.valueTo (depth + 1)).Reads (quoted text).toList rest
      fun v => v.toExpr declared = .ok (.string text) := by
  have hhead : ∃ cs, (quoted text).toList ++ rest = '"' :: cs := ⟨_, by rw [toList_quoted]; rfl⟩
  obtain ⟨cs, hcs⟩ := hhead
  refine .orElse_right (hcs ▸ .unset (by decide)) (.orElse_right (hcs ▸ .boolean (by decide) (by decide)) ?_)
  exact .orElse_right (hcs ▸ .integer (by decide) (by decide)) (.orElse (.string text))

theorem valueTo_code {text : String} (h : ¬['}', ']'] <:+: text.toList) :
    (Parser.valueTo (depth + 1)).Reads (Value.code text).text.toList rest
      fun v => v.toExpr declared = .ok (.code text) := by
  have hhead : ∃ cs, (Value.code text).text.toList ++ rest = '[' :: cs := ⟨_, by rw [toList_code]; rfl⟩
  obtain ⟨cs, hcs⟩ := hhead
  refine .orElse_right (hcs ▸ .unset (by decide)) (.orElse_right (hcs ▸ .boolean (by decide) (by decide)) ?_)
  refine .orElse_right (hcs ▸ .integer (by decide) (by decide)) ?_
  exact .orElse_right (hcs ▸ .string (by decide)) (.orElse (.code h))

theorem valueTo_reference {name : String} (h : IsIdentifier name) (hrest : atWordEnd rest = true) :
    (Parser.valueTo (depth + 1)).Reads name.toList rest
      fun v => ∃ place, v.toExpr declared = .ok (.reference name place) := by
  obtain ⟨c, cs, hcs, hstart⟩ := h.exists_cons
  have hname : ∀ k : Keyword, k.text.toList ≠ name.toList := fun k hk =>
    h.noKeyword k (String.toList_inj.1 hk)
  have hmarks : c ≠ '?' ∧ c ≠ '-' ∧ c ≠ '"' ∧ c ≠ '[' ∧ c ≠ '\x7b' ∧ c ≠ '(' ∧ c ≠ '!' := by
    refine ⟨?_, ?_, ?_, ?_, ?_, ?_, ?_⟩ <;> rintro rfl <;> revert hstart <;> decide
  obtain ⟨hunset, hsign, hquote, hlist, hbits, hdag, hbang⟩ := hmarks
  have hboolean : Parser.boolean.Refuses (name.toList ++ rest) :=
    .named (.orElse (.bind (.keyword h.chars hrest (hname _))) (.bind (.keyword h.chars hrest (hname _))))
  refine .orElse_right (hcs ▸ .unset hunset) (.orElse_right hboolean ?_)
  refine .orElse_right (hcs ▸ .integer hsign (isDigit_of_isWordStart hstart)) ?_
  refine .orElse_right (hcs ▸ .string hquote) (.orElse_right (hcs ▸ .code (.inl hlist)) ?_)
  refine .orElse_right (hcs ▸ .bitsInit hbits _) (.orElse_right (hcs ▸ .listInit hlist _) ?_)
  refine .orElse_right (hcs ▸ .dagInit hdag _) (.orElse_right (hcs ▸ .bangOp hbang _) ?_)
  exact .reference h hrest

theorem valueTo_bit (b : Option Bool) (hrest : atWordEnd rest = true) :
    (Parser.valueTo (depth + 1)).Reads (bitText b).toList rest
      fun v => v.toExpr declared = .ok (bitExpr b) := by
  rcases b with _ | _ | _
  · exact .orElse (.named (.bind_pure (.symbol "?") fun _ _ => rfl))
  · exact valueTo_integer 0 hrest
  · exact valueTo_integer 1 hrest

theorem bitText_solid (b : Option Bool) (after : List Char) : Solid ((bitText b).toList ++ after) := by
  rcases b with _ | _ | _ <;> exact .cons rfl (by decide) _

/-- The blank behind the opening brace and the one before the closing brace are next to each other
where there are no bits. -/
theorem bits {value : Parser ValueSyntax} (lsbFirst : List (Option Bool))
    (hvalue : ∀ b : Option Bool, ∀ after, atWordEnd after = true →
      value.Reads (bitText b).toList after fun v => v.toExpr declared = .ok (bitExpr b))
    (hnone : ∀ after, value.Refuses ('\x7d' :: after)) :
    (Parser.bitsInit value).Reads (bitsText lsbFirst).toList rest fun v =>
      ∃ place, v.toExpr declared = .ok (.bits (lsbFirst.reverse.map bitExpr) place) := by
  have hclose : Solid (['\x7d'] ++ rest) := .cons rfl (by decide) _
  have hexpr : ∀ {vs : List ValueSyntax} (place : Location),
      List.Forall₂ (fun b v => v.toExpr declared = .ok (bitExpr b)) lsbFirst.reverse vs →
      (ValueSyntax.bits vs place).toExpr declared = .ok (.bits (lsbFirst.reverse.map bitExpr) place) := by
    intro vs place h
    have hitems : ValueSyntax.toExprs declared vs = .ok (lsbFirst.reverse.map bitExpr) := by
      rw [toExprs_eq_ok, List.forall₂_map_right_iff]
      exact h.flip
    rw [ValueSyntax.toExpr, hitems]
    rfl
  have htext : (bitsText lsbFirst).toList = ['\x7b'] ++ (' ' ::
      ((commaSeparated (lsbFirst.reverse.map bitText)).toList ++ [' ', '\x7d'])) := toList_bitsText lsbFirst
  rw [htext]
  refine .named (.bind_here fun place => .bind (.symbol "\x7b") fun _ _ => ?_)
  cases hmsb : lsbFirst.reverse with
  | nil =>
    have hblanks : Parser.skip.Reads [' ', ' '] (['\x7d'] ++ rest) fun _ => True :=
      .skip (List.all_eq_true.1 rfl) hclose
    have hitems : (Parser.separatedOrNone value).Reads [] (['\x7d'] ++ rest) (· = []) :=
      .separatedOrNone_nil (hnone rest)
    refine .bind hblanks fun _ _ => .bind hitems fun vs hvs => .bind_noBlank hclose ?_
    exact .bind_pure (.symbol "\x7d") fun _ _ => ⟨place, hmsb ▸ hexpr place (hmsb ▸ hvs ▸ .nil)⟩
  | cons b bs =>
    have hitems : (Parser.separatedOrNone value).Reads (commaSeparated ((b :: bs).map bitText)).toList
        ([' ', '\x7d'] ++ rest)
        fun vs => List.Forall₂ (fun b v => v.toExpr declared = .ok (bitExpr b)) (b :: bs) vs := by
      refine .separatedOrNone_cons (fun x _ after h => hvalue x after h)
        (fun x _ after => bitText_solid x after) (fun _ => rfl) rfl ?_
      have hwidth : blankWidth ([' ', '\x7d'] ++ rest) = 1 := by
        rw [List.cons_append, blankWidth_blank rfl, hclose.blankWidth]
      rw [hwidth]
      show some '\x7d' ≠ some ','
      decide
    have hsolid : Solid ((commaSeparated ((b :: bs).map bitText)).toList ++ [' ', '\x7d'] ++ rest) := by
      rw [List.map_cons, toList_commaSeparated, List.append_assoc, List.append_assoc]
      exact bitText_solid b _
    refine .bind_space hsolid (.bind hitems fun vs hvs => .bind_space hclose ?_)
    exact .bind_pure (.symbol "\x7d") fun _ _ => ⟨place, hmsb ▸ hexpr place (hmsb ▸ hvs)⟩

theorem list {value : Parser ValueSyntax} {element : Ty} {items : List Value} {W : Value → Expr → Prop}
    (hvalue : ∀ v ∈ items, ∀ after, AfterValue after →
      value.Reads v.text.toList after fun s => ∃ e, s.toExpr declared = .ok e ∧ W v e)
    (hsolid : ∀ v ∈ items, ∀ after, Solid (v.text.toList ++ after))
    (hnone : ∀ after, value.Refuses (']' :: after)) (hrest : AfterValue rest) :
    (Parser.listInit value).Reads (Value.list element items).text.toList rest fun s =>
      ∃ es place, s.toExpr declared = .ok (.list es none place) ∧ List.Forall₂ W items es := by
  have hclose : Solid ([']'] ++ rest) := .cons rfl (by decide) _
  have hfollow : AfterValue ([']'] ++ rest) := ⟨']', rfl, .inr (.inr rfl)⟩
  have htext : (Value.list element items).text.toList =
      ['['] ++ ((commaSeparated (items.map Value.text)).toList ++ ([']'] ++ [])) :=
    toList_list element items
  have hitems : Solid ((commaSeparated (items.map Value.text)).toList ++ ([']'] ++ []) ++ rest) ∧
      (Parser.separatedOrNone value).Reads (commaSeparated (items.map Value.text)).toList
        ([']'] ++ rest) fun ss =>
          List.Forall₂ (fun v s => ∃ e, s.toExpr declared = .ok e ∧ W v e) items ss := by
    cases items with
    | nil => exact ⟨hclose, (separatedOrNone_nil (hnone rest)).mono fun _ h => h ▸ .nil⟩
    | cons v vs =>
      refine ⟨?_, .separatedOrNone_cons hvalue hsolid (fun _ => ⟨',', rfl, .inr (.inl rfl)⟩) hfollow ?_⟩
      · rw [List.map_cons, toList_commaSeparated, List.append_assoc, List.append_assoc]
        exact hsolid v (List.mem_cons_self ..) _
      · rw [hclose.blankWidth]
        show some ']' ≠ some ','
        decide
  have hsuffix : Parser.listSuffix.Refuses rest := by
    obtain ⟨c, cs, rfl, hc⟩ := hrest.exists_cons
    refine .named (.bind (.symbol_cons rfl ?_))
    rcases hc with rfl | rfl | rfl <;> decide
  rw [htext]
  refine .named (.bind_here fun place => .bind (.symbol "[") fun _ _ => .bind_noBlank hitems.1 ?_)
  refine .bind hitems.2 fun ss hss => .bind_noBlank hclose (.bind (.symbol "]") fun _ _ => ?_)
  refine .bind_noBlank hrest.solid (.bind_pure (.optional_none hsuffix) ?_)
  rintro _ rfl
  obtain ⟨es, hes, hw⟩ := exists_forall₂ hss
  refine ⟨es, place, ?_, hw⟩
  rw [ValueSyntax.toExpr, toExprs_eq_ok.2 hes]
  rfl

theorem valueTo_bits (lsbFirst : List (Option Bool)) (hdepth : (bitsText lsbFirst).toList.length < depth) :
    (Parser.valueTo depth).Reads (bitsText lsbFirst).toList rest fun v =>
      ∃ place, v.toExpr declared = .ok (.bits (lsbFirst.reverse.map bitExpr) place) := by
  have hcs := toList_bitsText lsbFirst
  obtain ⟨depth, rfl⟩ : ∃ n, depth = n + 2 := by
    rw [hcs, List.length_cons, List.length_cons] at hdepth
    exact ⟨depth - 2, by omega⟩
  refine .orElse_right (hcs ▸ .unset (by decide)) (.orElse_right (hcs ▸ .boolean (by decide) (by decide)) ?_)
  refine .orElse_right (hcs ▸ .integer (by decide) (by decide)) (.orElse_right (hcs ▸ .string (by decide)) ?_)
  refine .orElse_right (hcs ▸ .code (.inl (by decide))) (.orElse ?_)
  exact .bits lsbFirst (fun b _ h => valueTo_bit b h) fun _ => .valueTo (.inr rfl) _

/-- Behind its bracket a list goes on with an item that is no bit vector, so it is not read as code. -/
theorem valueTo_list {element : Ty} {items : List Value} {W : Value → Expr → Prop}
    (hvalue : ∀ v ∈ items, ∀ after, AfterValue after → (Parser.valueTo depth).Reads v.text.toList after
      fun s => ∃ e, s.toExpr declared = .ok e ∧ W v e)
    (hhead : ∀ v ∈ items, ∃ c cs, v.text.toList = c :: cs ∧ (∀ after, Solid (c :: after)) ∧ c ≠ '\x7b')
    (hrest : AfterValue rest) :
    (Parser.valueTo (depth + 1)).Reads (Value.list element items).text.toList rest fun s =>
      ∃ es place, s.toExpr declared = .ok (.list es none place) ∧ List.Forall₂ W items es := by
  have hsolid : ∀ v ∈ items, ∀ after, Solid (v.text.toList ++ after) := by
    intro v hv after
    obtain ⟨c, cs, hcs, hsolid, -⟩ := hhead v hv
    exact hcs ▸ hsolid _
  have hcode : Parser.code.Refuses ((Value.list element items).text.toList ++ rest) := by
    rw [toList_list]
    refine .code (.inr ?_)
    cases items with
    | nil => exact fun hc => absurd (Option.some.inj hc) (by decide)
    | cons v vs =>
      obtain ⟨c, cs, hcs, -, hne⟩ := hhead v (List.mem_cons_self ..)
      rw [List.map_cons, toList_commaSeparated, hcs]
      exact fun hc => hne (Option.some.inj hc)
  refine .orElse_right (toList_list _ _ ▸ .unset (by decide)) ?_
  refine .orElse_right (toList_list _ _ ▸ .boolean (by decide) (by decide)) ?_
  refine .orElse_right (toList_list _ _ ▸ .integer (by decide) (by decide)) ?_
  refine .orElse_right (toList_list _ _ ▸ .string (by decide)) (.orElse_right hcode ?_)
  refine .orElse_right (toList_list _ _ ▸ .bitsInit (by decide) _) (.orElse ?_)
  exact .list hvalue hsolid (fun _ => .valueTo (.inl rfl) _) hrest

end Parser.Reads

namespace Ty.Writable
variable {declared : String → Bool} {store : Store} {type : Ty} {v : Value}

/-- What a value begins with: no blank, no comment, and an opening brace only where it is a bit
vector. -/
theorem head_text (h : type.Writable declared) (hv : Conforms store type v) (hread : v.Readable) :
    ∃ c cs, v.text.toList = c :: cs ∧ (∀ after, Solid (c :: after)) ∧
      (c = '\x7b' → ∃ width, type = .bits width) := by
  have hword : ∀ {c}, isWordChar c = true → c ≠ '\x7b' := by rintro _ hc rfl; cases hc
  cases type with
  | bit =>
    cases v with
    | bit b => cases b <;> exact ⟨_, _, rfl, .cons rfl (by decide), fun hc => absurd hc (by decide)⟩
    | _ => exact hv.elim
  | bits width =>
    cases v with
    | bits lsbFirst =>
      exact ⟨'\x7b', _, toList_bitsText lsbFirst, .cons rfl (by decide), fun _ => ⟨width, rfl⟩⟩
    | _ => exact hv.elim
  | int =>
    cases v with
    | int number =>
      obtain ⟨c, cs, hcs, rfl | hdigit⟩ := head_toString number.toInt
      · exact ⟨'-', cs, hcs, .cons rfl (by decide), fun hc => absurd hc (by decide)⟩
      · have hc := isWordChar_of_isDigit hdigit
        exact ⟨c, cs, hcs, .of_isWordChar hc, fun h => absurd h (hword hc)⟩
    | _ => exact hv.elim
  | string =>
    cases v with
    | string text =>
      exact ⟨'"', _, toList_quoted text, .cons rfl (by decide), fun hc => absurd hc (by decide)⟩
    | _ => exact hv.elim
  | code =>
    cases v with
    | code text => exact ⟨'[', _, toList_code text, .cons rfl (by decide), fun hc => absurd hc (by decide)⟩
    | _ => exact hv.elim
  | list element =>
    cases v with
    | list recorded items =>
      exact ⟨'[', _, toList_list recorded items, .cons rfl (by decide), fun hc => absurd hc (by decide)⟩
    | _ => exact hv.elim
  | record name =>
    cases v with
    | record ref =>
      have hname := hread.reference ref .refl
      obtain ⟨c, cs, hcs, -⟩ := hname.exists_cons
      have hc : isWordChar c = true := hname.chars c (hcs ▸ List.mem_cons_self ..)
      exact ⟨c, cs, hcs, .of_isWordChar hc, fun h => absurd h (hword hc)⟩
    | _ => exact hv.elim
  | dag => exact h.elim
  | anyRecord => exact h.elim

/-- The text of a value that conforms to its type reads as an expression that writes it. -/
theorem reads_value (h : type.Writable declared) (hv : Conforms store type v) (hread : v.Readable)
    {depth : Nat} (hdepth : v.text.toList.length < depth) {rest : List Char} (hrest : AfterValue rest) :
    (Parser.valueTo depth).Reads v.text.toList rest fun s =>
      ∃ e, s.toExpr declared = .ok e ∧ type.Writes v e := by
  obtain ⟨depth, rfl⟩ := Nat.exists_eq_succ_of_ne_zero (Nat.ne_of_gt (Nat.zero_lt_of_lt hdepth))
  induction type generalizing v depth rest with
  | bit =>
    cases v with
    | bit b =>
      have htext : (Value.bit b).text = bitText (some b) := by cases b <;> rfl
      rw [htext]
      exact (Parser.Reads.valueTo_bit (some b) hrest.atWordEnd).mono fun s hs => ⟨_, hs, rfl⟩
    | _ => exact hv.elim
  | bits width =>
    cases v with
    | bits lsbFirst =>
      exact (Parser.Reads.valueTo_bits lsbFirst hdepth).mono fun s ⟨_, hs⟩ => ⟨_, hs, rfl⟩
    | _ => exact hv.elim
  | int =>
    cases v with
    | int number =>
      exact (Parser.Reads.valueTo_integer number hrest.atWordEnd).mono fun s hs => ⟨_, hs, rfl⟩
    | _ => exact hv.elim
  | string =>
    cases v with
    | string text => exact (Parser.Reads.valueTo_string text).mono fun s hs => ⟨_, hs, rfl⟩
    | _ => exact hv.elim
  | code =>
    cases v with
    | code text =>
      exact (Parser.Reads.valueTo_code (hread.code text .refl)).mono fun s hs => ⟨_, hs, rfl⟩
    | _ => exact hv.elim
  | list element ih =>
    cases v with
    | list recorded items =>
      obtain ⟨rfl, hitems⟩ := hv
      have hrecorded : recorded.Writable declared := h
      have hitem : ∀ v ∈ items, ∀ after, AfterValue after →
          (Parser.valueTo depth).Reads v.text.toList after fun s =>
            ∃ e, s.toExpr declared = .ok e ∧ recorded.Writes v e := by
        intro v hmem after hafter
        have hlt : v.text.toList.length < depth :=
          Nat.lt_of_lt_of_le (length_lt_list hmem) (Nat.le_of_lt_succ hdepth)
        obtain ⟨k, rfl⟩ := Nat.exists_eq_succ_of_ne_zero (Nat.ne_of_gt (Nat.zero_lt_of_lt hlt))
        exact ih hrecorded (hitems v hmem) (hread.item hmem) hafter k hlt
      have hhead : ∀ v ∈ items, ∃ c cs, v.text.toList = c :: cs ∧ (∀ after, Solid (c :: after)) ∧
          c ≠ '\x7b' := by
        intro v hmem
        obtain ⟨c, cs, hcs, hsolid, hbits⟩ := hrecorded.head_text (hitems v hmem) (hread.item hmem)
        refine ⟨c, cs, hcs, hsolid, fun hc => ?_⟩
        obtain ⟨width, rfl⟩ := hbits hc
        exact List.ne_nil_of_mem hmem (hread.bits width _ .refl)
      refine (Parser.Reads.valueTo_list hitem hhead hrest).mono ?_
      exact fun s ⟨es, place, hs, hes⟩ => ⟨_, hs, hes⟩
    | _ => exact hv.elim
  | record name =>
    cases v with
    | record ref =>
      have hname := hread.reference ref .refl
      exact (Parser.Reads.valueTo_reference hname hrest.atWordEnd).mono fun s ⟨_, hs⟩ => ⟨_, hs, rfl⟩
    | _ => exact hv.elim
  | dag => exact h.elim
  | anyRecord => exact h.elim

end Ty.Writable
end TypedRecords
