import TypedRecords.Syntax.Grammar
import TypedRecords.Proofs.RuleFile.Declarations

/-!
# Files of the rule file

The parser of files agrees with the rule for them. So a text is a file of the rule file just where it is read
(`exists_matches_file`), and what is read is what its pieces say: none of them is a misfit
(`toStatements_of_matches`).
-/

namespace TypedRecords

/-! ### What pieces say -/

namespace Piece

/-- The piece says the statement. -/
inductive SaysStatement (t : Piece) : Statement → Prop
  | includeFile {i : IncludeSyntax} (h : Says .inclusion toInclude t i) : SaysStatement t (.includeFile i)
  | classDecl {c : ClassSyntax} (h : Says .classDecl toClass t c) : SaysStatement t (.classDecl c)
  | defDecl {d : DefSyntax} (h : Says .defDecl toDef t d) : SaysStatement t (.defDecl d)
  | scope {s : Statement} (h : Says .letBlock toScope t s) : SaysStatement t s

theorem statementsOf_append {ps qs : List Piece} {ss : List Statement}
    (h : List.Forall₂ SaysStatement ps ss) (hqs : statementsOf qs = .ok []) :
    statementsOf (ps ++ qs) = .ok ss := by
  induction h with
  | nil => exact hqs
  | cons ht _ ih =>
    rw [List.cons_append]
    cases ht with
    | includeFile h | classDecl h | defDecl h | scope h =>
      rw [statementsOf, h.rule]
      dsimp only
      rw [h.eq, ih]
      rfl

theorem scopeOf_append {ps qs : List Piece} (h : ∀ t ∈ ps, t.rule ≠ .letScope) :
    scopeOf (ps ++ qs) = scopeOf qs := by
  induction ps with
  | nil => rfl
  | cons t ps ih =>
    obtain ⟨ht, hps⟩ := List.forall_mem_cons.1 h
    rw [List.cons_append, scopeOf, if_neg (by simp [ht]), ih hps]

/-- The bindings are the parts of that rule, and the statements are those of the one part that is a scope. -/
theorem toScope_eq {k t u : Piece} {ps : List Piece} {bindings : List LetSyntax} {ss : List Statement}
    (hk : k.rule = .kwLet) (hps : List.Forall₂ (Says .letBinding toLet) ps bindings) (ht : t.rule = .kwIn)
    (hu : Says .letScope toStatements u ss) (place : Location) (text : String) :
    toScope ⟨.letBlock, place, text, k :: (ps ++ [t, u])⟩ = .ok (.scope bindings ss) := by
  obtain ⟨hbinding, hlets⟩ := (List.forall₂_and_left _ _).1 (hps.imp fun _ _ h => ⟨h.rule, h.eq⟩)
  have hfilter : (k :: (ps ++ [t, u])).filter (·.rule = .letBinding) = ps := by
    have hps : ps.filter (·.rule = .letBinding) = ps :=
      List.filter_eq_self.2 fun w hw => decide_eq_true (hbinding w hw)
    simp [List.filter_append, hps, hk, ht, hu.rule]
  have hskip : ∀ w ∈ k :: (ps ++ [t]), w.rule ≠ .letScope := by
    refine List.forall_mem_cons.2 ⟨hk ▸ by decide, List.forall_mem_append.2 ⟨fun w hw => ?_, ?_⟩⟩
    · exact hbinding w hw ▸ by decide
    · exact List.forall_mem_singleton.2 (ht ▸ by decide)
  have hbody : scopeOf (k :: (ps ++ [t, u])) = .ok ss := by
    have hparts : k :: (ps ++ [t, u]) = k :: (ps ++ [t]) ++ [u] := by simp
    rw [hparts, scopeOf_append hskip, scopeOf, if_pos (by simp [hu.rule]), hu.eq]
  rw [toScope, hfilter, mapM_eq_ok.2 hlets, hbody]
  rfl

section
variable {t : Piece} {place : Location} {name : String} {params : List ParamSyntax}
  {parents : List ParentSyntax} {body : List ItemSyntax}

theorem classPart_name (h : IsName place t name) (c : ClassSyntax) :
    classPart c t = .ok { c with name := name, namePlace := place } := by
  rw [classPart, h.rule, h.text, h.place]

theorem classPart_params (h : Says .templateParams toParams t params) (c : ClassSyntax) :
    classPart c t = .ok { c with params := params } := by
  rw [classPart, h.rule]
  dsimp only
  rw [h.eq]
  rfl

theorem classPart_parents (h : Says .parentList toParents t parents) (c : ClassSyntax) :
    classPart c t = .ok { c with parents := parents } := by
  rw [classPart, h.rule]
  dsimp only
  rw [h.eq]
  rfl

theorem classPart_body (h : Says .body (fun t => itemsOf t.parts) t body) (c : ClassSyntax) :
    classPart c t = .ok { c with body := body } := by
  rw [classPart, h.rule]
  dsimp only
  rw [h.eq]
  rfl

theorem defPart_name (h : IsName place t name) (d : DefSyntax) :
    defPart d t = .ok { d with name := some name } := by
  rw [defPart, h.rule, h.text]

theorem defPart_parents (h : Says .parentList toParents t parents) (d : DefSyntax) :
    defPart d t = .ok { d with parents := parents } := by
  rw [defPart, h.rule]
  dsimp only
  rw [h.eq]
  rfl

theorem defPart_body (h : Says .body (fun t => itemsOf t.parts) t body) (d : DefSyntax) :
    defPart d t = .ok { d with body := body } := by
  rw [defPart, h.rule]
  dsimp only
  rw [h.eq]
  rfl

end

end Piece

namespace Pattern
open Piece

/-! ### Inclusions, classes and defs -/

theorem inclusion_agrees (c : Cursor) :
    Agrees (.rule .inclusion) (One SaysStatement) c (Parser.inclusion c).outcome := by
  refine .rule (.here (.part (keyword_agrees .kwInclude c) fun t _ d ht _ => .here ?_))
  refine .map (quoted_agrees d) fun ps file ⟨u, hps, hu⟩ text => ⟨_, rfl, .includeFile ⟨rfl, ?_⟩⟩
  subst hps
  obtain ⟨hplace, hbody⟩ := hu
  have hword : filePart none t = .ok none := if_neg (ht ▸ by decide)
  have hfile : filePart none u = .ok (some (file, d.place)) := by
    rw [filePart, if_pos hbody.rule, hbody.eq, hplace]
    rfl
  exact bind_eq_ok.2 ⟨_, foldlM_cons_eq_ok.2 ⟨_, hword, foldlM_cons_eq_ok.2 ⟨_, hfile, rfl⟩⟩, rfl⟩

theorem classDecl_agrees (c : Cursor) :
    Agrees (.rule .classDecl) (One SaysStatement) c (Parser.classDecl c).outcome := by
  refine .rule (.here (.part (keyword_agrees .kwClass c) fun k _ d hk _ => .here ?_))
  refine .part (identifier_agrees d) fun t name e ht _ => ?_
  refine .behind (.optional (templateParams_agrees e)) fun ps params e hps _ => ?_
  refine .behind (.optional (parentList_agrees e)) fun qs parents e hqs _ => ?_
  refine .map (body_agrees e) fun us body ⟨u, hus, hu⟩ text => ⟨_, rfl, .classDecl ⟨rfl, ?_⟩⟩
  subst hus
  have hword : classPart ⟨"", c.place, [], [], [], c.place⟩ k = .ok ⟨"", c.place, [], [], [], c.place⟩ := by
    rw [classPart, hk]
    rfl
  refine foldlM_cons_eq_ok.2 ⟨_, hword, foldlM_cons_eq_ok.2 ⟨_, classPart_name ht _, ?_⟩⟩
  refine foldlM_append_eq_ok.2 ⟨_, foldlM_maybe hps fun _ _ h => classPart_params h _, ?_⟩
  refine foldlM_append_eq_ok.2 ⟨_, foldlM_maybe hqs fun _ _ h => classPart_parents h _, ?_⟩
  refine foldlM_cons_eq_ok.2 ⟨_, classPart_body hu _, ?_⟩
  cases params <;> cases parents <;> rfl

theorem defDecl_agrees (c : Cursor) :
    Agrees (.rule .defDecl) (One SaysStatement) c (Parser.defDecl c).outcome := by
  refine .rule (.here (.part (keyword_agrees .kwDef c) fun k _ d hk _ => ?_))
  refine .behind (.optional (identifier_agrees d)) fun ps name e hps _ => ?_
  refine .behind (.optional (parentList_agrees e)) fun qs parents e hqs _ => ?_
  refine .map (body_agrees e) fun us body ⟨u, hus, hu⟩ text => ⟨_, rfl, .defDecl ⟨rfl, ?_⟩⟩
  subst hus
  have hword : defPart ⟨none, [], [], c.place⟩ k = .ok ⟨none, [], [], c.place⟩ := by
    rw [defPart, hk]
    rfl
  refine foldlM_cons_eq_ok.2 ⟨_, hword, ?_⟩
  refine foldlM_append_eq_ok.2 ⟨_, foldlM_maybe hps fun _ _ h => defPart_name h _, ?_⟩
  refine foldlM_append_eq_ok.2 ⟨_, foldlM_maybe hqs fun _ _ h => defPart_parents h _, ?_⟩
  refine foldlM_cons_eq_ok.2 ⟨_, defPart_body hu _, ?_⟩
  cases name <;> cases parents <;> rfl

/-! ### Scopes -/

theorem statement_strict : statement.Strict := by
  have hkeyword : ∀ {r : Rule} {f : Pattern} (k : Keyword), r.pattern = (rule k.rule >> f) →
      (rule r).Strict := fun k hr => .rule (hr ▸ .first (keyword_strict k) _)
  exact .choice (hkeyword .kwInclude rfl) (.choice (hkeyword .kwClass rfl)
    (.choice (hkeyword .kwDef rfl) (hkeyword .kwLet rfl)))

section
variable {c : Cursor} {q : Parser Statement}

theorem letScope_agrees (hq : ∀ d, d.rest.length ≤ c.rest.length →
    Agrees statement (One SaysStatement) d (q d).outcome) : Agrees (.rule .letScope)
      (One (Says .letScope toStatements)) c (Parser.letScope q c).outcome := by
  refine .rule (.choice (.sign (by decide) fun d hd hlt => ?_) (.map (hq c (Nat.le_refl _)) ?_))
  · have hle : d.rest.length ≤ c.rest.length := Nat.le_of_lt hlt
    refine .behind (.each statement_strict hq hd.symm hle) fun ps ss d hps _ => ?_
    refine .lastSign fun text => ⟨_, rfl, rfl, ?_⟩
    exact statementsOf_append hps rfl
  · rintro ps s ⟨t, rfl, ht⟩ text
    exact ⟨_, rfl, rfl, statementsOf_append (.cons ht .nil) rfl⟩

theorem letBlock_agrees (hq : ∀ d, d.rest.length < c.rest.length →
    Agrees statement (One SaysStatement) d (q d).outcome) :
    Agrees (.rule .letBlock) (One SaysStatement) c (Parser.letBlock q c).outcome := by
  refine .rule (.next (keyword_agrees .kwLet c) fun ks _ d hd hk => ?_)
  obtain ⟨k, rfl, hk⟩ := hk
  have hlt : d.rest.length < c.rest.length := keyword_strict .kwLet hd
  have hle := d.length_skipped_le
  -- The bindings are a parser of their own, and in the rule they stand in the row of its parts.
  refine .refines (.flat _ _ _) ?_
  refine .behind (.separated fun e _ => letBinding_agrees e) fun ps bindings e hps he => ?_
  refine .part (keyword_agrees .kwIn e) fun t _ e' ht he' => ?_
  refine .map (letScope_agrees fun e'' he'' => hq e'' (by omega)) fun qs ss ⟨u, hqs, hu⟩ text => ?_
  subst hqs
  exact ⟨_, rfl, .scope ⟨rfl, toScope_eq hk hps ht hu _ _⟩⟩

end

theorem statementTo_agrees {depth : Nat} {c : Cursor} (hdepth : c.rest.length < depth) :
    Agrees statement (One SaysStatement) c (Parser.statementTo depth c).outcome := by
  induction depth generalizing c with
  | zero => cases hdepth
  | succ depth ih =>
    refine .choice (inclusion_agrees c) (.choice (classDecl_agrees c) (.choice (defDecl_agrees c) ?_))
    exact letBlock_agrees fun d hd => ih (by omega)

theorem statement_agrees (c : Cursor) :
    Agrees statement (One SaysStatement) c (Parser.statement c).outcome :=
  statementTo_agrees (Nat.lt_succ_self _)

/-! ### Files -/

theorem endOfInput_agrees (c : Cursor) : Agrees (.rule .endOfInput) (One fun t _ => t.rule = .endOfInput) c
    (Parser.endOfInput c).outcome := by
  refine .rule ?_
  show Agrees .endOfInput _ c (if c.rest.isEmpty then some ((), c) else none)
  split
  · rename_i h
    exact .read (.endOfInput (List.isEmpty_iff.1 h)) (fun _ => ⟨_, rfl, rfl⟩) rfl
  · rename_i h
    exact .refused (.notEnd (mt List.isEmpty_iff.2 h))

theorem file_agrees {c : Cursor} (hc : c.place = .start c.place.file) :
    Agrees (.rule .file) (One fun t ss => t.toStatements = .ok ss) c (Parser.file c).outcome := by
  refine .rule (.after (.startOfInput hc) ?_)
  have heach := Agrees.each statement_strict (fun e _ => statement_agrees e) c.skipped_skipped.symm
    (Nat.le_refl _)
  refine .behind heach fun ps ss d hps _ => ?_
  refine .map (endOfInput_agrees d) fun qs _ ⟨t, hqs, ht⟩ text => ⟨_, rfl, ?_⟩
  subst hqs
  have hend : statementsOf [t] = .ok [] := by
    rw [statementsOf, ht]
    rfl
  show statementsOf (ps ++ [t]) = .ok ss
  exact statementsOf_append hps hend

/-! ### Accepted texts -/

section
variable {name text : String}

/-- The rule file has an answer for each text, and it is that of reading. -/
theorem matches_file (name text : String) :
    (∃ file c statements, (rule .file).Matches (.start name text) (some ([file], c)) ∧
      file.toStatements = .ok statements ∧ readStatements name text = .ok statements) ∨
    (rule .file).Matches (.start name text) none ∧ ∃ e, readStatements name text = .error e := by
  have hfile : Agrees _ _ _ (Parser.file (.start name text)).outcome := file_agrees rfl
  unfold readStatements
  generalize Parser.file (.start name text) = reply at hfile
  rcases reply with ⟨_ | ⟨statements, c⟩, tried⟩
  · cases hfile with
    | refused h => exact .inr ⟨h, _, rfl⟩
  · cases hfile with
    | read h ha _ =>
      obtain ⟨file, rfl, hfile⟩ := ha
      exact .inl ⟨file, _, statements, h, hfile, rfl⟩

/-- The rule file accepts the texts that are read. -/
theorem exists_matches_file : (∃ pieces c, (rule .file).Matches (.start name text) (some (pieces, c))) ↔
    ∃ statements, readStatements name text = .ok statements := by
  rcases matches_file name text with ⟨file, c, statements, h, -, hread⟩ | ⟨h, e, hread⟩
  · exact ⟨fun _ => ⟨statements, hread⟩, fun _ => ⟨_, c, h⟩⟩
  · constructor
    · rintro ⟨pieces, c, h'⟩
      cases h.unique h'
    · rintro ⟨statements, hread'⟩
      cases hread.symm.trans hread'

/-- For every text that the rule file accepts the syntax tree is put together from the pieces, and it is the
one that reading gives. No piece is a misfit on the way: none has a rule that is not expected where it
stands, nothing that a dag, a type or an include needs is missing, and the delimiters that are cut off
strings, code texts and argument names are there, whatever characters stand between them. No string ends with
a backslash that escapes nothing. -/
theorem toStatements_of_matches {pieces : List Piece} {c : Cursor}
    (h : (rule .file).Matches (.start name text) (some (pieces, c))) :
    ∃ file statements, pieces = [file] ∧ file.toStatements = .ok statements ∧
      readStatements name text = .ok statements ∧ ∀ t : Piece, t.Within file → t.WellCut := by
  rcases matches_file name text with ⟨file, c', statements, h', hfile, hread⟩ | ⟨h', -⟩
  · cases h.unique h'
    refine ⟨file, statements, rfl, hfile, hread, fun t ht => ?_⟩
    obtain ⟨_, _, hmatch⟩ := h.within (List.mem_singleton_self file) ht
    exact wellCut_of_matches hmatch
  · cases h.unique h'

end

/-- A text with an escaped quote, an escaped backslash in front of the closing quote, and characters of more
than one byte next to the delimiters. -/
def quoting : String :=
  "def D \x7b string s = \"π\\\"π\\\\\"; code c = [\x7b→\x7d]; dag d = (D 1:$x, $y); \x7d"

theorem quoting_says_statements : ∃ pieces c,
    (rule .file).Matches (.start "quoting" quoting) (some (pieces, c)) ∧ ∃ file statements,
      pieces = [file] ∧ file.toStatements = .ok statements ∧
        readStatements "quoting" quoting = .ok statements ∧ statements.length = 1 ∧
          ∀ t : Piece, t.Within file → t.WellCut := by
  have hlength : (readStatements "quoting" quoting).toOption.map List.length = some 1 := by
    decide +kernel
  obtain ⟨statements, hread, hlength⟩ := ok_of_toOption_map hlength
  obtain ⟨pieces, c, h⟩ := exists_matches_file.2 ⟨statements, hread⟩
  obtain ⟨file, statements', hpieces, hfile, hread', hcut⟩ := toStatements_of_matches h
  obtain rfl := Except.ok.inj (hread.symm.trans hread')
  exact ⟨pieces, c, h, file, statements, hpieces, hfile, hread, hlength, hcut⟩

end Pattern
end TypedRecords
