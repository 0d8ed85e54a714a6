import TypedRecords.Expr.OfSyntax
import TypedRecords.Syntax.Grammar
import TypedRecords.Proofs.Reading.Literals

/-!
# Reading types

The text of a type that can be written reads as that type. It begins with a whole word, so no rule in
front of the right one takes it.
-/

namespace TypedRecords

/-- The type can be written where classes are declared: all classes it names are, and every width fits
64 bits. There is no way to write the type of records of no particular class; dags are left out. -/
def Ty.Writable (declared : String → Bool) : Ty → Prop
  | .bit | .int | .string | .code => True
  | .bits width => width < 2 ^ 64
  | .list element => element.Writable declared
  | .record name => IsIdentifier name ∧ declared name = true
  | .dag | .anyRecord => False

namespace Parser
variable {word rest : List Char}

section
variable (hword : ∀ c ∈ word, isWordChar c = true) (hrest : atWordEnd rest = true)
include hword hrest

theorem Refuses.bitsType (h : Keyword.kwBits.text.toList ≠ word) :
    Parser.bitsType.Refuses (word ++ rest) :=
  .named (.bind_here fun _ => .bind (.keyword hword hrest h))

theorem Refuses.listType (h : Keyword.kwList.text.toList ≠ word) (element : Parser TypeSyntax) :
    (Parser.listType element).Refuses (word ++ rest) :=
  .named (.bind (.keyword hword hrest h))

theorem Refuses.plainType {rule : Rule} {k : Keyword} {type : TypeSyntax}
    (h : k.text.toList ≠ word) : (Parser.plainType rule k type).Refuses (word ++ rest) :=
  .named (.bind (.keyword hword hrest h))

end

theorem Reads.plainType {rule : Rule} {k : Keyword} {type : TypeSyntax} {Q : TypeSyntax → Prop}
    (hQ : Q type) (hrest : atWordEnd rest = true) :
    (Parser.plainType rule k type).Reads k.text.toList rest Q :=
  .named (.bind_pure (.keyword k hrest) fun _ _ => hQ)

theorem Reads.bitsType (width : Nat) :
    Parser.bitsType.Reads (Ty.bits width).text.toList rest fun t => ∃ place, t = .bits width place := by
  have htext : (Ty.bits width).text.toList =
      Keyword.kwBits.text.toList ++ (['<'] ++ ((toString width).toList ++ ['>'])) := by
    simp [Ty.text, Keyword.text]
  rw [htext]
  have hdigits : Solid ((toString width).toList ++ ['>'] ++ rest) :=
    List.append_assoc .. ▸ .of_word (toString_ne_nil width) (isWordChar_toString width)
  have hwidth : scanDecimal ((toString width).toList ++ (['>'] ++ rest)) = _ :=
    scanDecimal_toString width (isDigit_of_atWordEnd rfl)
  refine .named (.bind_here fun place => .bind (.keyword .kwBits rfl) fun _ _ => ?_)
  refine .bind_noBlank (.cons rfl (by decide) _) (.bind (.symbol "<") fun _ _ => ?_)
  refine .bind_noBlank hdigits (.bind (.token hwidth rfl) fun w hw => ?_)
  refine .bind_noBlank (.cons rfl (by decide) _) (.bind_pure (.symbol ">") fun _ _ => ?_)
  exact ⟨place, congrArg (TypeSyntax.bits · place) hw.symm⟩

theorem Reads.listType {element : Parser TypeSyntax} {type : Ty} {Q : TypeSyntax → Prop}
    (hsolid : Solid (type.text.toList ++ ['>'] ++ rest))
    (h : element.Reads type.text.toList ('>' :: rest) Q) :
    (Parser.listType element).Reads (Ty.list type).text.toList rest
      fun t => ∃ inner, t = .list inner ∧ Q inner := by
  have htext : (Ty.list type).text.toList =
      Keyword.kwList.text.toList ++ (['<'] ++ (type.text.toList ++ ['>'])) := by
    simp [Ty.text, Keyword.text]
  rw [htext]
  refine .named (.bind (.keyword .kwList rfl) fun _ _ => ?_)
  refine .bind_noBlank (.cons rfl (by decide) _) (.bind (.symbol "<") fun _ _ => ?_)
  refine .bind_noBlank hsolid (.bind h fun inner hinner => ?_)
  exact .bind_noBlank (.cons rfl (by decide) _) (.bind_pure (.symbol ">") fun _ _ => ⟨inner, rfl, hinner⟩)

/-- A type that is one word is read by the rules behind those of the types that have an argument. -/
theorem Reads.fieldTypeTo {depth : Nat} {Q : TypeSyntax → Prop}
    (hword : ∀ c ∈ word, isWordChar c = true) (hrest : atWordEnd rest = true)
    (hbits : Keyword.kwBits.text.toList ≠ word) (hlist : Keyword.kwList.text.toList ≠ word)
    (hdepth : word.length < depth)
    (h : (Parser.plainType .bitType .kwBit .bit <|> Parser.plainType .intType .kwInt .int
      <|> Parser.plainType .stringType .kwString .string <|> Parser.plainType .codeType .kwCode .code
      <|> Parser.plainType .dagType .kwDag .dag <|> Parser.classType).Reads word rest Q) :
    (Parser.fieldTypeTo depth).Reads word rest Q := by
  obtain ⟨depth, rfl⟩ := Nat.exists_eq_succ_of_ne_zero (Nat.ne_of_gt (Nat.zero_lt_of_lt hdepth))
  refine .named (.orElse_right (.bitsType hword hrest hbits) ?_)
  exact .orElse_right (.listType hword hrest hlist _) h

end Parser

namespace Ty.Writable
variable {declared : String → Bool} {type : Ty}

/-- The text of a type begins with a word, which is none of the keywords that begin other items. -/
theorem exists_word (h : type.Writable declared) :
    ∃ word more, type.text.toList = word ++ more ∧ word ≠ [] ∧ (∀ c ∈ word, isWordChar c = true) ∧
      (more = [] ∨ more.head? = some '<') ∧ Keyword.kwLet.text.toList ≠ word ∧
      Keyword.kwField.text.toList ≠ word := by
  cases type with
  | bit => exact ⟨"bit".toList, [], rfl, by decide, List.all_eq_true.1 rfl, .inl rfl, by decide, by decide⟩
  | int => exact ⟨"int".toList, [], rfl, by decide, List.all_eq_true.1 rfl, .inl rfl, by decide, by decide⟩
  | string => exact ⟨"string".toList, [], rfl, by decide, List.all_eq_true.1 rfl, .inl rfl, by decide, by decide⟩
  | code => exact ⟨"code".toList, [], rfl, by decide, List.all_eq_true.1 rfl, .inl rfl, by decide, by decide⟩
  | bits width =>
    exact ⟨"bits".toList, '<' :: ((toString width).toList ++ ['>']), by simp [text], by decide,
      List.all_eq_true.1 rfl, .inr rfl, by decide, by decide⟩
  | list element =>
    exact ⟨"list".toList, '<' :: (element.text.toList ++ ['>']), by simp [text], by decide,
      List.all_eq_true.1 rfl, .inr rfl, by decide, by decide⟩
  | record name =>
    refine ⟨name.toList, [], (List.append_nil _).symm, h.1.ne_nil, h.1.chars, .inl rfl, ?_, ?_⟩ <;>
      exact fun hk => h.1.noKeyword _ (String.toList_inj.1 hk)
  | dag => exact h.elim
  | anyRecord => exact h.elim

theorem solid (h : type.Writable declared) (rest : List Char) : Solid (type.text.toList ++ rest) := by
  obtain ⟨word, more, htext, hne, hword, -⟩ := h.exists_word
  rw [htext, List.append_assoc]
  exact .of_word hne hword

theorem reads (h : type.Writable declared) {depth : Nat} (hdepth : type.text.toList.length < depth)
    {rest : List Char} (hrest : atWordEnd rest = true) :
    (Parser.fieldTypeTo depth).Reads type.text.toList rest fun t => t.toTy declared = .ok type := by
  induction type generalizing depth rest with
  | bits width =>
    obtain ⟨depth, rfl⟩ := Nat.exists_eq_succ_of_ne_zero (Nat.ne_of_gt (Nat.zero_lt_of_lt hdepth))
    refine .named (.orElse ((Parser.Reads.bitsType width).mono ?_))
    rintro t ⟨place, rfl⟩
    exact if_pos h
  | list element ih =>
    obtain ⟨depth, rfl⟩ := Nat.exists_eq_succ_of_ne_zero (Nat.ne_of_gt (Nat.zero_lt_of_lt hdepth))
    have htext : (Ty.list element).text.toList =
        "list".toList ++ '<' :: (element.text.toList ++ ['>']) := by simp [text]
    have hinner : element.text.toList.length < depth := by
      rw [htext, List.length_append, List.length_cons, List.length_append] at hdepth
      omega
    have helement : element.Writable declared := h
    have hsolid : Solid (element.text.toList ++ ['>'] ++ rest) :=
      List.append_assoc .. ▸ helement.solid _
    refine .named (.orElse_right ?_ (.orElse ((Parser.Reads.listType hsolid (ih h hinner rfl)).mono ?_)))
    · rw [htext, List.append_assoc]
      exact .bitsType (List.all_eq_true.1 rfl) rfl (by decide)
    · rintro t ⟨inner, rfl, hty⟩
      rw [TypeSyntax.toTy, hty]
      rfl
  | bit =>
    refine .fieldTypeTo (List.all_eq_true.1 rfl) hrest (by decide) (by decide) hdepth ?_
    exact .orElse (.plainType rfl hrest)
  | int =>
    have hword : ∀ c ∈ "int".toList, isWordChar c = true := List.all_eq_true.1 rfl
    refine .fieldTypeTo hword hrest (by decide) (by decide) hdepth ?_
    refine .orElse_right (.plainType hword hrest (by decide)) ?_
    exact .orElse (.plainType rfl hrest)
  | string =>
    have hword : ∀ c ∈ "string".toList, isWordChar c = true := List.all_eq_true.1 rfl
    refine .fieldTypeTo hword hrest (by decide) (by decide) hdepth ?_
    refine .orElse_right (.plainType hword hrest (by decide)) ?_
    refine .orElse_right (.plainType hword hrest (by decide)) ?_
    exact .orElse (.plainType rfl hrest)
  | code =>
    have hword : ∀ c ∈ "code".toList, isWordChar c = true := List.all_eq_true.1 rfl
    refine .fieldTypeTo hword hrest (by decide) (by decide) hdepth ?_
    refine .orElse_right (.plainType hword hrest (by decide)) ?_
    refine .orElse_right (.plainType hword hrest (by decide)) ?_
    refine .orElse_right (.plainType hword hrest (by decide)) ?_
    exact .orElse (.plainType rfl hrest)
  | record name =>
    have hname : ∀ k : Keyword, k.text.toList ≠ name.toList := fun k hk =>
      h.1.noKeyword k (String.toList_inj.1 hk)
    refine .fieldTypeTo h.1.chars hrest (hname _) (hname _) hdepth ?_
    refine .orElse_right (.plainType h.1.chars hrest (hname _)) ?_
    refine .orElse_right (.plainType h.1.chars hrest (hname _)) ?_
    refine .orElse_right (.plainType h.1.chars hrest (hname _)) ?_
    refine .orElse_right (.plainType h.1.chars hrest (hname _)) ?_
    refine .orElse_right (.plainType h.1.chars hrest (hname _)) ?_
    refine .named (.bind_here fun place => .bind_pure (.identifier h.1 hrest) ?_)
    rintro _ rfl
    exact if_pos h.2
  | dag => exact h.elim
  | anyRecord => exact h.elim

end Ty.Writable
end TypedRecords
