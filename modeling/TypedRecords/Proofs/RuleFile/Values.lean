import TypedRecords.Proofs.RuleFile.Agreement
import TypedRecords.Proofs.RuleFile.Slices

/-!
# Types and values of the rule file

The parsers of types and values agree with the rules for them: what is read is what the pieces say.
-/

namespace TypedRecords

/-- The rules of values. All others are unexpected where a value should stand. -/
def Rule.isValue : Rule → Bool
  | unset | boolean | integer | string | code | bitsInit | listInit | dagInit | bangOp | reference => true
  | _ => false

/-! ### What pieces say -/

namespace Piece

/-- A piece that the rule `r` read, and what it says. -/
structure Says {α : Type} (r : Rule) (f : Piece → Except Misfit α) (t : Piece) (a : α) : Prop where
  rule : t.rule = r
  eq : f t = .ok a

/-- A piece that is the word of a name. -/
structure IsName (place : Location) (t : Piece) (name : String) : Prop where
  rule : t.rule = .identifier
  place : t.place = place
  text : t.text = name
  isIdentifier : IsIdentifier name

/-- The piece says the type as the rule that read it. -/
def SaysTypeOf (t : Piece) (type : TypeSyntax) : Prop := t.toTypeOf = .ok type

abbrev SaysType (t : Piece) (type : TypeSyntax) : Prop := Says .fieldType toType t type

/-- The piece says the value, and so its rule is one of values. -/
def SaysValue (t : Piece) (v : ValueSyntax) : Prop := t.toValue = .ok v

theorem toValue_of_not_value {t : Piece} (h : t.rule.isValue = false) :
    t.toValue = .error (.unexpected t.rule t.place) := by
  rcases t with ⟨rule, place, text, parts⟩
  rw [toValue]
  all_goals
    rintro rfl
    cases h

theorem SaysValue.rule_ne {t : Piece} {v : ValueSyntax} (h : SaysValue t v) {r : Rule}
    (hr : r.isValue = false) : t.rule ≠ r := by
  rintro rfl
  cases (toValue_of_not_value hr).symm.trans h

theorem toValues_eq {ps : List Piece} {vs : List ValueSyntax} (h : List.Forall₂ SaysValue ps vs) :
    toValues ps = .ok vs := by
  induction h with
  | nil => rfl
  | cons ht _ ih => rw [toValues, ht, ih]; rfl

theorem listOf_append {place : Location} {ps qs : List Piece} {items vs : List ValueSyntax}
    {element : Option TypeSyntax} (h : List.Forall₂ SaysValue ps vs) :
    listOf place items element (ps ++ qs) = listOf place (items ++ vs) element qs := by
  induction h generalizing items with
  | nil => rw [List.nil_append, List.append_nil]
  | @cons t v ps vs ht _ ih =>
    rw [List.cons_append, listOf, if_neg (ht.rule_ne rfl), ht, List.append_cons]
    exact ih

abbrev SaysArg (t : Piece) (arg : DagArg ValueSyntax) : Prop := Says .dagArg toDagArg t arg

theorem dagOf_eq {place : Location} {name : String} {operatorPlace : Location} {ps : List Piece}
    {args as : List (DagArg ValueSyntax)} (h : List.Forall₂ SaysArg ps as) :
    dagOf place (some (name, operatorPlace)) args ps = .ok (.dag name operatorPlace (args ++ as) place) := by
  induction h generalizing args with
  | nil => rw [List.append_nil]; rfl
  | @cons t a ps as ht _ ih =>
    have hrule : t.rule ≠ .dagOperator := ht.rule ▸ by decide
    rw [dagOf, if_neg hrule, ht.eq, List.append_cons]
    exact ih

end Piece

namespace Pattern
open Piece

/-! ### Tokens -/

theorem keyword_agrees (k : Keyword) (c : Cursor) :
    Agrees (.rule k.rule) (One fun t _ => t.rule = k.rule) c (Parser.keyword k c).outcome := by
  refine .token ?_ fun _ _ _ => rfl
  rw [k.pattern_rule]
  exact keyword_scans k

theorem keyword_strict (k : Keyword) : (rule k.rule).Strict := by
  refine .rule ?_
  rw [k.pattern_rule]
  exact .first (.text (by cases k <;> decide)) _

theorem identifier_agrees (c : Cursor) :
    Agrees (.rule .identifier) (One (IsName c.place)) c (Parser.identifier c).outcome := by
  refine .token identifier_scans fun name n h => ⟨rfl, rfl, ?_, .of_scan h⟩
  rw [take_scanIdentifier h, String.ofList_toList]

theorem identifier_strict : (rule .identifier).Strict :=
  .rule (.second _ (.first (.choice (.one _) (.text (by decide))) _))

/-! ### Types -/

theorem decimal_agrees (c : Cursor) : Agrees (.rule .decimal)
    (One fun t width => t.rule = .decimal ∧ digitsValue 10 t.text.toList = width) c
    (Parser.token .decimal scanDecimal c).outcome := by
  refine .token decimal_scans fun a n hscan => ⟨rfl, ?_⟩
  obtain ⟨-, heq⟩ := Option.ite_none_left_eq_some.1 hscan
  obtain ⟨rfl, rfl⟩ := Prod.mk.inj (Option.some.inj heq)
  rw [String.toList_ofList, ← List.prefix_iff_eq_take.1 (List.takeWhile_prefix _)]

theorem bitsType_agrees (c : Cursor) :
    Agrees (.rule .bitsType) (One SaysTypeOf) c (Parser.bitsType c).outcome := by
  refine .rule (.here ?_)
  refine .part (keyword_agrees .kwBits c) fun t₁ _ d h₁ _ => ?_
  refine .sign (by decide) fun d _ _ => ?_
  refine .part (decimal_agrees d) fun t₂ width d h₂ _ => ?_
  refine .lastSign fun text => ⟨_, rfl, ?_⟩
  simp [SaysTypeOf, toTypeOf, h₁, h₂, Keyword.rule]

theorem listType_agrees {c : Cursor} {q : Parser TypeSyntax} (hq : ∀ d, d.rest.length < c.rest.length →
    Agrees (.rule .fieldType) (One SaysType) d (q d).outcome) :
    Agrees (.rule .listType) (One SaysTypeOf) c (Parser.listType q c).outcome := by
  refine .rule (.part (keyword_agrees .kwList c) fun t₁ _ d h₁ hd => ?_)
  refine .sign (by decide) fun e _ he => ?_
  refine .part (hq e (Nat.lt_of_lt_of_le he hd)) fun t₂ type e h₂ _ => ?_
  refine .lastSign fun text => ⟨_, rfl, ?_⟩
  simp [SaysTypeOf, toTypeOf, elementOf, h₁, h₂.rule, h₂.eq, Keyword.rule]

theorem plainType_agrees {r : Rule} {k : Keyword} {type : TypeSyntax} (hr : r.pattern = .rule k.rule)
    (htype : ∀ place text parts, SaysTypeOf ⟨r, place, text, parts⟩ type) (c : Cursor) :
    Agrees (.rule r) (One SaysTypeOf) c (Parser.plainType r k type c).outcome := by
  refine .rule (hr ▸ .map (keyword_agrees k c) fun ps _ _ text => ⟨_, rfl, htype _ _ _⟩)

theorem classType_agrees (c : Cursor) :
    Agrees (.rule .classType) (One SaysTypeOf) c (Parser.classType c).outcome := by
  have hname : Agrees (.rule .identifier) (One fun t type => type = .named t.text c.place) c
      ((Parser.identifier >>= fun name => pure (TypeSyntax.named name c.place)) c).outcome :=
    .map (identifier_agrees c) fun ps name ⟨t, hps, ht⟩ => ⟨t, hps, ht.text ▸ rfl⟩
  exact .wrap rfl (.here hname) fun t type ht => ⟨_, rfl, ht ▸ rfl⟩

theorem fieldTypeTo_agrees {depth : Nat} {c : Cursor} (hdepth : c.rest.length < depth) :
    Agrees (.rule .fieldType) (One SaysType) c (Parser.fieldTypeTo depth c).outcome := by
  induction depth generalizing c with
  | zero => cases hdepth
  | succ depth ih =>
    have htype : ∀ ps type, One SaysTypeOf ps type →
        ∀ text, One SaysType [⟨.fieldType, c.place, text, ps⟩] type := by
      rintro ps type ⟨t, rfl, ht⟩ text
      exact ⟨_, rfl, rfl, ht⟩
    refine .rule (.imp ?_ htype)
    refine .choice (bitsType_agrees c) (.choice (listType_agrees fun d hd => ih (by omega)) ?_)
    refine .choice ?bit (.choice ?int (.choice ?string (.choice ?code (.choice ?dag (classType_agrees c)))))
    all_goals
      refine plainType_agrees rfl ?_ c
      exact fun _ _ _ => rfl

theorem fieldType_agrees (c : Cursor) :
    Agrees (.rule .fieldType) (One SaysType) c (Parser.fieldType c).outcome :=
  fieldTypeTo_agrees (Nat.lt_succ_self _)

/-! ### Values -/

theorem unset_agrees (c : Cursor) :
    Agrees (.rule .unset) (One SaysValue) c (Parser.unset c).outcome :=
  .rule (.lastSign fun _ => ⟨_, rfl, rfl⟩)

theorem boolean_agrees (c : Cursor) :
    Agrees (.rule .boolean) (One SaysValue) c (Parser.boolean c).outcome := by
  refine .rule (.choice (.map (keyword_agrees .kwTrue c) ?_) (.map (keyword_agrees .kwFalse c) ?_))
  · rintro ps - ⟨t, rfl, ht⟩ text
    refine ⟨_, rfl, ?_⟩
    simp [SaysValue, toValue, ht, Keyword.rule]
  · rintro ps - ⟨t, rfl, ht⟩ text
    refine ⟨_, rfl, ?_⟩
    simp [SaysValue, toValue, ht, Keyword.rule]

theorem integer_agrees (c : Cursor) :
    Agrees (.rule .integer) (One SaysValue) c (Parser.integer c).outcome := by
  have htoken : Agrees (.rule .integer) (One fun t l => SaysValue t (.integer l c.place)) c
      (Parser.token .integer scanInteger c).outcome := by
    refine .token integer_scans fun l n h => ?_
    obtain ⟨hspelled, rfl, rest, hrest, -⟩ := scanInteger_eq_some.1 h
    rw [hrest, List.take_left, String.ofList_toList, SaysValue, toValue, IntLiteral.ofText_text hspelled]
  exact .here (.map htoken fun _ _ h => h)

/-- A quoted text, as a value and as the name of a file. -/
theorem quoted_agrees (c : Cursor) : Agrees (.rule .string)
    (One fun t body => t.place = c.place ∧ Says .string stringBody t body) c
    (Parser.token .string scanString c).outcome := by
  refine .token string_scans fun body n h => ⟨rfl, rfl, stringBody_eq ?_⟩
  rw [(take_scanString h).1]

theorem string_agrees (c : Cursor) :
    Agrees (.rule .string) (One SaysValue) c (Parser.string c).outcome := by
  refine .here (.map (quoted_agrees c) ?_)
  rintro ps body ⟨⟨rule, place, text, parts⟩, rfl, rfl, rfl, hbody⟩
  refine ⟨_, rfl, ?_⟩
  rw [SaysValue, toValue, hbody]
  rfl

theorem code_agrees (c : Cursor) :
    Agrees (.rule .code) (One SaysValue) c (Parser.code c).outcome := by
  have htoken : Agrees (.rule .code) (One fun t body => SaysValue t (.code body)) c
      (Parser.token .code scanCode c).outcome := by
    refine .token code_scans fun body n h => ?_
    rw [take_scanCode h, SaysValue, toValue, codeBody_eq rfl]
    rfl
  exact .map htoken fun _ _ h => h

/-- A name alone refers to what has it, as a value and as the operator of a dag. -/
theorem name_agrees (c : Cursor) :
    Agrees (.rule .reference) (One fun t name => SaysValue t (.reference name c.place)) c
      (Parser.named .reference Parser.identifier c).outcome := by
  refine .wrap rfl (identifier_agrees c) fun t name ht => ⟨_, rfl, ?_⟩
  show toValue _ = _
  rw [toValue, ht.text, trim_word ht.isIdentifier.chars]

theorem reference_agrees (c : Cursor) :
    Agrees (.rule .reference) (One SaysValue) c (Parser.reference c).outcome :=
  .here (.map (name_agrees c) fun _ _ h => h)

theorem varName_agrees (c : Cursor) : Agrees (.rule .varName)
    (One (Says .varName Piece.varName)) c (Parser.varName c).outcome := by
  refine .token varName_scans fun name n h => ⟨rfl, varName_eq ?_⟩
  rw [take_scanVarName h]

section
variable {c : Cursor} {q : Parser ValueSyntax}

theorem dagArg_agrees (hq : Agrees value (One SaysValue) c (q c).outcome) :
    Agrees (.rule .dagArg) (One SaysArg) c (Parser.dagArg q c).outcome := by
  refine .rule (.choice (.map (varName_agrees c) ?_) (.part hq fun t v d ht _ => ?_))
  · rintro ps name ⟨t, rfl, hrule, hname⟩ text
    refine ⟨_, rfl, rfl, ?_⟩
    rw [toDagArg, dagArgOf, if_pos hrule, hname]
    rfl
  · have hvalue : t.rule ≠ .varName := ht.rule_ne rfl
    refine .map (.optional (.sign (by decide) fun d _ _ => varName_agrees d)) fun ps name h text => ?_
    refine ⟨_, rfl, rfl, ?_⟩
    rw [toDagArg, dagArgOf, if_neg hvalue, ht]
    cases h with
    | none => rfl
    | some h =>
      obtain ⟨u, rfl, hrule, hname⟩ := h
      show dagArgOf _ [u] = _
      rw [dagArgOf, if_pos hrule, hname]
      rfl

theorem listSuffix_agrees (c : Cursor) : Agrees (.rule .listSuffix)
    (One fun t type => t.rule = .listSuffix ∧ ∃ u, t.parts = [u] ∧ u.toType = .ok type)
    c (Parser.listSuffix c).outcome := by
  refine .rule (.sign (by decide) fun d _ _ => .part (fieldType_agrees d) fun u type d hu _ => ?_)
  exact .lastSign fun text => ⟨_, rfl, rfl, u, rfl, hu.eq⟩

variable (hq : ∀ d, d.rest.length < c.rest.length → Agrees value (One SaysValue) d (q d).outcome)
include hq

theorem bitsInit_agrees : Agrees (.rule .bitsInit) (One SaysValue) c (Parser.bitsInit q c).outcome := by
  refine .rule (.here (.sign (by decide) fun d _ hd => ?_))
  refine .behind (.separatedOrNone fun e he => hq e (by omega)) fun ps vs e hps _ => ?_
  refine .lastSign fun text => ⟨_, rfl, ?_⟩
  rw [List.append_nil, SaysValue, toValue, toValues_eq hps]
  rfl

theorem listInit_agrees : Agrees (.rule .listInit) (One SaysValue) c (Parser.listInit q c).outcome := by
  refine .rule (.here (.sign (by decide) fun d _ hd => ?_))
  refine .behind (.separatedOrNone fun e he => hq e (by omega)) fun ps vs e hps _ => ?_
  refine .sign (by decide) fun e _ _ => .map (.optional (listSuffix_agrees e)) fun qs type h text => ?_
  refine ⟨_, rfl, ?_⟩
  rw [SaysValue, toValue, listOf_append hps, List.nil_append]
  cases h with
  | none => rfl
  | some h =>
    obtain ⟨t, rfl, hrule, u, hparts, hu⟩ := h
    rw [listOf, if_pos hrule, hparts]
    dsimp only
    rw [hu]
    rfl

theorem dagInit_agrees : Agrees (.rule .dagInit) (One SaysValue) c (Parser.dagInit q c).outcome := by
  refine .rule (.here (.sign (by decide) fun d _ hd => .here ?_))
  have hoperator : Agrees (.rule .dagOperator) (One fun t name => t.rule = .dagOperator ∧
      ∀ before, t.operatorOr before = .ok (some (name, d.place))) d
      (Parser.named .dagOperator (Parser.named .reference Parser.identifier) d).outcome := by
    refine .wrap rfl (name_agrees d) fun t name ht => ⟨_, rfl, rfl, fun before => ?_⟩
    rw [operatorOr, ht]
    rfl
  refine .part hoperator fun t name e ht he => ?_
  refine .behind (.separatedOrNone fun e' he' => dagArg_agrees (hq e' (by omega))) fun ps args e hps _ => ?_
  refine .lastSign fun text => ⟨_, rfl, ?_⟩
  rw [List.append_nil, SaysValue, toValue, dagOf, if_pos ht.1, ht.2]
  exact dagOf_eq hps

theorem bangOp_agrees : Agrees (.rule .bangOp) (One SaysValue) c (Parser.bangOp q c).outcome := by
  have hname : Agrees (.rule .bangName) (One fun t name => t.text = name) c
      (Parser.token .bangName scanBangName c).outcome := by
    refine .token bangName_scans fun name n h => ?_
    rw [take_scanBangName h, String.ofList_toList]
  refine .rule (.here (.part hname fun t name d ht hd => .sign (by decide) fun e _ he => ?_))
  refine .behind (.separatedOrNone fun e' he' => hq e' (by omega)) fun ps vs e hps _ => ?_
  refine .lastSign fun text => ⟨_, rfl, ?_⟩
  rw [List.append_nil, SaysValue, toValue, toValues_eq hps, ht]
  rfl

end

theorem valueTo_agrees {depth : Nat} {c : Cursor} (hdepth : c.rest.length < depth) :
    Agrees value (One SaysValue) c (Parser.valueTo depth c).outcome := by
  induction depth generalizing c with
  | zero => cases hdepth
  | succ depth ih =>
    have hq : ∀ d, d.rest.length < c.rest.length →
        Agrees value (One SaysValue) d (Parser.valueTo depth d).outcome := fun d hd => ih (by omega)
    refine .choice (unset_agrees c) (.choice (boolean_agrees c) (.choice (integer_agrees c) ?_))
    refine .choice (string_agrees c) (.choice (code_agrees c) (.choice (bitsInit_agrees hq) ?_))
    refine .choice (listInit_agrees hq) (.choice (dagInit_agrees hq) (.choice (bangOp_agrees hq) ?_))
    exact reference_agrees c

theorem value_agrees (c : Cursor) : Agrees value (One SaysValue) c (Parser.value c).outcome :=
  valueTo_agrees (Nat.lt_succ_self _)

end Pattern
end TypedRecords
