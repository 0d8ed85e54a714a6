import TypedRecords.Template.Basic
import TypedRecords.Proofs.Reading.Values

/-!
# Reading declarations

The text of a def reads as one statement, a def of that name with one item for each field. The classes
behind its opening brace are a comment, which ends with its line.
-/

namespace TypedRecords

/-! ### Fields -/

namespace Field

/-- The field can be read back where classes are declared and references point into the store. -/
structure Readable (declared : String → Bool) (store : Store) (f : Field) : Prop where
  name : IsIdentifier f.name
  type : f.type.Writable declared
  conforms : ∀ v ∈ f.value, Conforms store f.type v
  value : ∀ v ∈ f.value, v.Readable

/-- The expression writes the value of the field down, and nothing where it has none. -/
def Writes (f : Field) (e : Expr) : Prop :=
  match f.value with
  | some v => f.type.Writes v e
  | none => e = .unset

/-- The item declares the field with an expression that writes its value down. -/
def Declared (f : Field) (item : BodyItem) : Prop :=
  ∃ e place, item = .field f.name f.type (some e) place ∧ f.Writes e

end Field

namespace Parser.Reads
variable {text rest : List Char}

theorem fieldType {Q : TypeSyntax → Prop}
    (h : ∀ depth, text.length < depth → (Parser.fieldTypeTo depth).Reads text rest Q) :
    Parser.fieldType.Reads text rest Q := fun place =>
  h _ (Nat.lt_succ_of_le (List.length_append ▸ Nat.le_add_right ..)) place

theorem value {Q : ValueSyntax → Prop}
    (h : ∀ depth, text.length < depth → (Parser.valueTo depth).Reads text rest Q) :
    Parser.value.Reads text rest Q := fun place =>
  h _ (Nat.lt_succ_of_le (List.length_append ▸ Nat.le_add_right ..)) place

end Parser.Reads

namespace Field.Readable
variable {declared : String → Bool} {store : Store} {f : Field} {rest : List Char}

theorem of_value {name : String} {type : Ty} {v : Value} (hname : IsIdentifier name)
    (htype : type.Writable declared) (hconforms : Conforms store type v) (hvalue : v.Readable) :
    Readable declared store ⟨name, type, some v⟩ where
  name := hname
  type := htype
  conforms _ hw := Option.some.inj hw ▸ hconforms
  value _ hw := Option.some.inj hw ▸ hvalue

theorem reads_value (h : f.Readable declared store) (hrest : AfterValue rest) :
    Parser.value.Reads (Value.textOrUnset f.value).toList rest fun s =>
      ∃ e, s.toExpr declared = .ok e ∧ f.Writes e := by
  have hconforms := h.conforms
  have hvalue := h.value
  unfold Writes
  refine .value fun depth hdepth => ?_
  cases hf : f.value with
  | none =>
    obtain ⟨depth, rfl⟩ := Nat.exists_eq_succ_of_ne_zero (Nat.ne_of_gt (Nat.zero_lt_of_lt hdepth))
    exact (Parser.Reads.valueTo_bit none hrest.atWordEnd).mono fun s hs => ⟨_, hs, rfl⟩
  | some v =>
    rw [hf] at hdepth
    exact h.type.reads_value (hconforms v hf) (hvalue v hf) hdepth hrest

theorem solid_value (h : f.Readable declared store) (after : List Char) :
    Solid ((Value.textOrUnset f.value).toList ++ after) := by
  have hconforms := h.conforms
  have hvalue := h.value
  cases hf : f.value with
  | none => exact .cons rfl (by decide) _
  | some v =>
    obtain ⟨c, cs, hcs, hsolid, -⟩ := h.type.head_text (hconforms v hf) (hvalue v hf)
    show Solid (v.text.toList ++ after)
    rw [hcs]
    exact hsolid _

theorem reads_initializer (h : f.Readable declared store) :
    Parser.initializer.Reads (['='] ++ ' ' :: (Value.textOrUnset f.value).toList) (';' :: rest) fun o =>
      ∃ s, o = some s ∧ ∃ e, s.toExpr declared = .ok e ∧ f.Writes e := by
  refine .optional (.bind (.symbol "=") fun _ _ => .bind_space (h.solid_value _) ?_)
  exact h.reads_value ⟨';', rfl, .inl rfl⟩

theorem solid (h : f.Readable declared store) (after : List Char) :
    Solid ((f.text ++ ";").toList ++ after) := by
  have htext : ∃ more, (f.text ++ ";").toList = f.type.text.toList ++ more := ⟨_, by
    simp only [Field.text, String.toList_append, List.append_assoc]
    rfl⟩
  obtain ⟨more, htext⟩ := htext
  rw [htext, List.append_assoc]
  exact h.type.solid _

/-- The text of a field and a semicolon read as an item that declares the field. -/
theorem reads (h : f.Readable declared store) :
    (Parser.fieldLet <|> Parser.fieldDecl).Reads (f.text ++ ";").toList rest fun item =>
      ∃ b, item.toBodyItem declared = .ok b ∧ f.Declared b := by
  obtain ⟨word, more, hword, hne, hchars, hmore, hlet, hfield⟩ := h.type.exists_word
  have htext : (f.text ++ ";").toList = f.type.text.toList ++ (' ' :: (f.name.toList ++ (' ' ::
      ((['='] ++ ' ' :: (Value.textOrUnset f.value).toList) ++ ([';'] ++ []))))) := by
    simp [Field.text]
  have hend : ∀ after, atWordEnd (more ++ ' ' :: after) = true := by
    rcases hmore with rfl | hhead
    · exact fun _ => rfl
    · obtain ⟨cs, rfl⟩ := List.head?_eq_some_iff.1 hhead
      exact fun _ => rfl
  have hrefused : ∀ {k : Keyword}, k.text.toList ≠ word → (Parser.keyword k).Refuses
      ((f.text ++ ";").toList ++ rest) := by
    intro k hk
    rw [htext, hword, List.append_assoc, List.append_assoc, List.cons_append]
    exact .keyword hchars (hend _) hk
  have hoptional : (Parser.optional (Parser.keyword .kwField)).Reads []
      ((f.text ++ ";").toList ++ rest) (· = none) := .optional_none (hrefused hfield)
  have hletRefused : Parser.fieldLet.Refuses ((f.text ++ ";").toList ++ rest) :=
    .named (.bind_here fun _ => .bind (hrefused hlet))
  refine .orElse_right hletRefused (.named (.bind_here fun place => .bind_nil hoptional fun _ _ => ?_))
  rw [htext]
  refine .bind_noBlank ?_ ?_
  · rw [List.append_assoc]
    exact h.type.solid _
  refine .bind (.fieldType fun depth hdepth => h.type.reads hdepth rfl) fun type htype => ?_
  refine .bind_space ?_ (.bind (.identifier h.name rfl) ?_)
  · rw [List.append_assoc]
    exact .of_word h.name.ne_nil h.name.chars
  rintro _ rfl
  refine .bind_space (.cons rfl (by decide) _) (.bind h.reads_initializer ?_)
  rintro _ ⟨s, rfl, e, he, hwrites⟩
  refine .bind_noBlank (.cons rfl (by decide) _) (.bind_pure (.symbol ";") fun _ _ => ?_)
  refine ⟨.field f.name f.type (some e) place, ?_, e, place, rfl, hwrites⟩
  rw [ItemSyntax.toBodyItem, htype, optionalExpr, he]
  rfl

end Field.Readable

/-! ### Defs -/

namespace Record

theorem blankWidth_lineageText {names : List String} (h : ∀ name ∈ names, '\n' ∉ name.toList)
    (rest : List Char) : blankWidth ((lineageText names).toList ++ '\n' :: rest) =
      (lineageText names).toList.length + 1 + blankWidth rest := by
  cases names with
  | nil =>
    show blankWidth ('\n' :: rest) = 0 + 1 + blankWidth rest
    rw [blankWidth_blank rfl]
    omega
  | cons name names =>
    have htext : (lineageText (name :: names)).toList =
        '\t' :: '/' :: '/' :: (name :: names).flatMap fun name => ' ' :: name.toList := by
      simp [lineageText, List.flatMap_map]
    have hline : '\n' ∉ (name :: names).flatMap fun name => ' ' :: name.toList := by
      intro hmem
      obtain ⟨other, hother, hmem⟩ := List.mem_flatMap.1 hmem
      exact h other hother (by simpa using hmem)
    rw [htext, List.cons_append, blankWidth_blank rfl, List.cons_append, List.cons_append, blankWidth,
      lineCommentWidth_line hline]
    simp only [List.length_cons]
    omega

/-- The record can be read back where classes are declared and references point into the store: it is
a def, and names in it are names that can be written. -/
structure Readable (declared : String → Bool) (store : Store) (r : Record) : Prop where
  isDef : r.isClass = false
  name : IsIdentifier r.name
  lines : ∀ name ∈ r.superclasses, '\n' ∉ name.toList
  fields : ∀ f ∈ r.fields, f.Readable declared store

/-- The lines behind that of the opening brace, one for each field. -/
def fieldLines (fields : List Field) : List Char :=
  '\n' :: fields.flatMap fun f => ' ' :: ' ' :: ((f.text ++ ";").toList ++ ['\n'])

/-- The blanks between two fields are the end of a line and the beginning of the next. -/
theorem fieldLines_eq (fields : List Field) : fieldLines fields =
    (fields.flatMap fun f => ['\n', ' ', ' '] ++ (f.text ++ ";").toList) ++ ['\n'] := by
  unfold fieldLines
  induction fields with
  | nil => rfl
  | cons f fs ih =>
    rw [List.flatMap_cons, List.flatMap_cons, List.append_assoc, ← ih]
    simp

/-- The statement declares a def of the record's name with the record's fields and no parents. -/
def Stated (declared : String → Bool) (r : Record) (d : DefSyntax) : Prop :=
  d.name = some r.name ∧ ∃ body, List.Forall₂ Field.Declared r.fields body ∧
    ∀ lets name, d.toTemplate declared lets name = .ok ⟨name, [], [], lets, body⟩

namespace Readable
variable {declared : String → Bool} {store : Store} {r : Record} {rest : List Char}

theorem refuses_brace (rest : List Char) :
    (Parser.fieldLet <|> Parser.fieldDecl).Refuses ('\x7d' :: rest) := by
  have hoptional : (Parser.optional (Parser.keyword .kwField)).Reads [] ('\x7d' :: rest) (· = none) :=
    .optional_none (.keyword_cons rfl (by decide))
  have htype : Parser.fieldType.Refuses ('\x7d' :: rest) := fun _ => rfl
  refine .orElse (.named (.bind_here fun _ => .bind (.keyword_cons rfl (by decide)))) ?_
  refine .named (.bind_here fun _ => .bind_right hoptional fun _ _ => .skip ?_)
  exact .bind htype

theorem many_fields {f : Field} {fs : List Field} (h : ∀ g ∈ f :: fs, g.Readable declared store) :
    (Parser.many (Parser.fieldLet <|> Parser.fieldDecl)).Reads
      ((f.text ++ ";").toList ++ fs.flatMap fun g => ['\n', ' ', ' '] ++ (g.text ++ ";").toList)
      (['\n'] ++ (['\x7d'] ++ rest)) fun items => List.Forall₂
        (fun (f : Field) item => ∃ b, item.toBodyItem declared = .ok b ∧ f.Declared b) (f :: fs) items := by
  have hblanks : ∀ c ∈ ['\n', ' ', ' '], isBlank c = true := List.all_eq_true.1 rfl
  have hpart : ∀ g ∈ f :: fs, ∀ after, (Parser.fieldLet <|> Parser.fieldDecl).Reads
      (g.text ++ ";").toList after fun item => ∃ b, item.toBodyItem declared = .ok b ∧ g.Declared b :=
    fun g hg after => (h g hg).reads
  have hne : ∀ g ∈ f :: fs, (g.text ++ ";").toList ≠ [] := fun g _ hnil => by simp at hnil
  have hend : (Parser.skip >>= fun _ => Parser.fieldLet <|> Parser.fieldDecl).Refuses
      (['\n'] ++ (['\x7d'] ++ rest)) := by
    have hclose : Solid (['\x7d'] ++ rest) := .cons rfl (by decide) _
    refine .skip ?_
    rw [List.cons_append, blankWidth_blank rfl, List.nil_append, hclose.blankWidth]
    exact refuses_brace rest
  exact .many_blanks (t := fun g : Field => (g.text ++ ";").toList) hblanks hpart
    (fun g hg => (h g hg).solid) hne hend

theorem skip_lineageText (h : r.Readable declared store) {blanks : List Char}
    (hblanks : ∀ c ∈ blanks, isBlank c = true) (hrest : Solid rest) :
    Parser.skip.Reads ((lineageText r.superclasses).toList ++ '\n' :: blanks) rest fun _ => True := by
  refine .skip_of_blankWidth ?_
  rw [List.append_assoc, List.cons_append, blankWidth_lineageText h.lines, blankWidth_blanks hblanks,
    hrest.blankWidth, List.length_append, List.length_cons]
  omega

theorem reads_body (h : r.Readable declared store) :
    Parser.body.Reads (['\x7b'] ++ ((lineageText r.superclasses).toList ++ (fieldLines r.fields ++ ['\x7d'])))
      rest fun items => List.Forall₂
        (fun (f : Field) item => ∃ b, item.toBodyItem declared = .ok b ∧ f.Declared b) r.fields items := by
  have hclose : Solid (['\x7d'] ++ rest) := .cons rfl (by decide) _
  refine .named (.orElse_right (.bind (.symbol_cons rfl (by decide))) (.bind (.symbol "\x7b") fun _ _ => ?_))
  have hfields := h.fields
  cases hr : r.fields with
  | nil =>
    have htext : (lineageText r.superclasses).toList ++ (fieldLines [] ++ ['\x7d']) =
        ((lineageText r.superclasses).toList ++ '\n' :: []) ++ ['\x7d'] := by simp [fieldLines]
    have hend : (Parser.skip >>= fun _ => Parser.fieldLet <|> Parser.fieldDecl).Refuses (['\x7d'] ++ rest) :=
      .skip (hclose.blankWidth ▸ refuses_brace rest)
    rw [htext]
    refine .bind (h.skip_lineageText (List.forall_mem_nil _) hclose) fun _ _ => ?_
    refine .bind_nil (.many_none hend) fun items hitems => ?_
    exact .bind_noBlank hclose (.bind_pure (.symbol "\x7d") fun _ _ => hitems ▸ .nil)
  | cons f fs =>
    rw [hr] at hfields
    have htext : (lineageText r.superclasses).toList ++ (fieldLines (f :: fs) ++ ['\x7d']) =
        ((lineageText r.superclasses).toList ++ '\n' :: [' ', ' ']) ++ (((f.text ++ ";").toList ++
          fs.flatMap fun g => ['\n', ' ', ' '] ++ (g.text ++ ";").toList) ++ (['\n'] ++ ['\x7d'])) := by
      simp [fieldLines_eq]
    have hsolid : Solid (((f.text ++ ";").toList ++
        fs.flatMap fun g => ['\n', ' ', ' '] ++ (g.text ++ ";").toList) ++ (['\n'] ++ ['\x7d']) ++ rest) := by
      rw [List.append_assoc, List.append_assoc]
      exact (hfields f (List.mem_cons_self ..)).solid _
    have hline : Parser.skip.Reads ['\n'] (['\x7d'] ++ rest) fun _ => True := .skip (List.all_eq_true.1 rfl) hclose
    rw [htext]
    refine .bind (h.skip_lineageText (List.all_eq_true.1 rfl) hsolid) fun _ _ => ?_
    refine .bind (many_fields hfields) fun items hitems => .bind hline fun _ _ => ?_
    exact .bind_pure (.symbol "\x7d") fun _ _ => hitems

theorem reads (h : r.Readable declared store) :
    Parser.defDecl.Reads ("def".toList ++ (' ' :: (r.name.toList ++ (' ' :: (['\x7b'] ++
      ((lineageText r.superclasses).toList ++ (fieldLines r.fields ++ ['\x7d']))))))) rest
      fun s => ∃ d, s = .defDecl d ∧ r.Stated declared d := by
  have hparents : ∀ after, Parser.parentList.Refuses ('\x7b' :: after) := fun after =>
    .named (.bind (.symbol_cons rfl (by decide)))
  refine .named (.bind_here fun place => .bind (.keyword .kwDef rfl) fun _ _ => ?_)
  refine .bind_space ?_ (.bind (.optional (.identifier h.name rfl)) ?_)
  · rw [List.append_assoc]
    exact .of_word h.name.ne_nil h.name.chars
  rintro _ ⟨_, rfl, rfl⟩
  refine .bind_space (.cons rfl (by decide) _) (.bind_nil (.optional_none (hparents _)) ?_)
  rintro _ rfl
  refine .bind_noBlank (.cons rfl (by decide) _) (.bind_pure h.reads_body fun items hitems => ?_)
  obtain ⟨body, hbody, hdeclared⟩ := exists_forall₂ hitems
  refine ⟨_, rfl, rfl, body, hdeclared, fun lets name => ?_⟩
  unfold DefSyntax.toTemplate
  refine bind_eq_ok.2 ⟨[], mapM_eq_ok.2 .nil, bind_eq_ok.2 ⟨body, mapM_eq_ok.2 hbody, rfl⟩⟩

theorem reads_statement (h : r.Readable declared store) :
    Parser.statement.Reads ("def".toList ++ (' ' :: (r.name.toList ++ (' ' :: (['\x7b'] ++
      ((lineageText r.superclasses).toList ++ (fieldLines r.fields ++ ['\x7d']))))))) rest
      fun s => ∃ d, s = .defDecl d ∧ r.Stated declared d := by
  intro place
  have hword : ∀ c ∈ "def".toList, isWordChar c = true := List.all_eq_true.1 rfl
  refine Parser.Reads.orElse_right ?_ (.orElse_right ?_ (.orElse h.reads)) place
  · rw [List.append_assoc]
    exact .named (.bind_here fun _ => .bind (.keyword hword rfl (by decide)))
  · rw [List.append_assoc]
    exact .named (.bind_here fun _ => .bind (.keyword hword rfl (by decide)))

/-- The text of the record reads as one def, which states it. -/
theorem readStatements (h : r.Readable declared store) (file : String) :
    ∃ d, readStatements file r.text = .ok [.defDecl d] ∧ r.Stated declared d := by
  have htext : r.text.toList = ("def".toList ++ (' ' :: (r.name.toList ++ (' ' :: (['\x7b'] ++
      ((lineageText r.superclasses).toList ++ (fieldLines r.fields ++ ['\x7d']))))))) ++ ['\n'] := by
    simp [text, h.isDef, fieldLines, List.flatMap_map]
  have hsolid : ∀ after, Solid (("def".toList ++ (' ' :: (r.name.toList ++ (' ' :: (['\x7b'] ++
      ((lineageText r.superclasses).toList ++ (fieldLines r.fields ++ ['\x7d']))))))) ++ after) :=
    fun after => .cons rfl (by decide) _
  have hend : (Parser.skip >>= fun _ => Parser.statement).Refuses (['\n'] ++ []) := .skip fun _ => rfl
  have hfile : Parser.file.Reads r.text.toList [] fun ss =>
      ∃ d, ss = [.defDecl d] ∧ r.Stated declared d := by
    have hline : Parser.skip.Reads ['\n'] [] fun _ => True := .skip (List.all_eq_true.1 rfl) nofun
    have hinput : Parser.endOfInput.Reads [] [] fun _ => True := fun _ => ⟨(), rfl, trivial⟩
    rw [htext]
    refine .named (.bind_noBlank ?_ ?_)
    · rw [List.append_assoc]
      exact hsolid _
    refine .bind (.many_one h.reads_statement (hsolid _) hend) ?_
    rintro _ ⟨_, rfl, d, rfl, hd⟩
    refine .bind hline fun _ _ => .bind_pure hinput fun _ _ => ?_
    exact ⟨d, rfl, hd⟩
  obtain ⟨_, hparse, d, rfl, hd⟩ := hfile (.start file)
  refine ⟨d, ?_, hd⟩
  rw [List.append_nil] at hparse
  unfold TypedRecords.readStatements Cursor.start
  simp only [hparse]

end Readable
end Record
end TypedRecords
