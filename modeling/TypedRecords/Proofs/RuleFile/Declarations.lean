import TypedRecords.Proofs.Outcome
import TypedRecords.Proofs.RuleFile.Values

/-!
# Declarations of the rule file

The parsers of the parts of a declaration agree with the rules for them. A declaration is made from its parts
one after the other, so there is one lemma for each kind of part, whatever was made before.
-/

namespace TypedRecords

/-! ### What pieces say -/

namespace Piece
variable {place : Location} {t : Piece} {name : String} {type : TypeSyntax} {v : ValueSyntax}

theorem letPart_name (h : IsName place t name) (l : LetSyntax) :
    letPart l t = .ok { l with name := name } := by
  rw [letPart, h.rule, h.text]

theorem letPart_value (h : SaysValue t v) (l : LetSyntax) : letPart l t = .ok { l with value := v } := by
  unfold letPart
  split
  · rename_i hrule
    exact absurd hrule (h.rule_ne rfl)
  · rename_i hrule
    exact absurd hrule (h.rule_ne rfl)
  · rw [h]
    rfl

theorem paramPart_type (h : SaysType t type) (p : ParamSyntax) :
    paramPart p t = .ok { p with type := type } := by
  rw [paramPart, h.rule]
  dsimp only
  rw [h.eq]
  rfl

theorem paramPart_name (h : IsName place t name) (p : ParamSyntax) :
    paramPart p t = .ok { p with name := name } := by
  rw [paramPart, h.rule, h.text]

theorem paramPart_value (h : SaysValue t v) (p : ParamSyntax) :
    paramPart p t = .ok { p with default := some v } := by
  unfold paramPart
  split
  · rename_i hrule
    exact absurd hrule (h.rule_ne rfl)
  · rename_i hrule
    exact absurd hrule (h.rule_ne rfl)
  · rw [h]
    rfl

theorem foldlM_fieldPart {ps : List Piece} (h : ∀ t ∈ ps, t.rule ≠ .kwField) (p : ParamSyntax) :
    ps.foldlM fieldPart p = ps.foldlM paramPart p := by
  induction ps generalizing p with
  | nil => rfl
  | cons t ps ih =>
    obtain ⟨ht, hps⟩ := List.forall_mem_cons.1 h
    rw [List.foldlM_cons, List.foldlM_cons, fieldPart, if_neg ht]
    exact congrArg (paramPart p t >>= ·) (funext (ih hps))

/-- The piece says the item. -/
inductive SaysItem (t : Piece) : ItemSyntax → Prop
  | override {l : LetSyntax} (h : Says .fieldLet toLet t l) : SaysItem t (.override l)
  | field {item : ItemSyntax} (h : Says .fieldDecl toField t item) : SaysItem t item

theorem itemsOf_eq {ps : List Piece} {items : List ItemSyntax} (h : List.Forall₂ SaysItem ps items) :
    itemsOf ps = .ok items := by
  induction h with
  | nil => rfl
  | cons ht _ ih =>
    cases ht with
    | override h | field h =>
      rw [itemsOf, h.rule]
      dsimp only
      rw [h.eq, ih]
      rfl

end Piece

namespace Pattern
open Piece

/-- A part that may be missing changes nothing where it is. -/
theorem foldlM_maybe {σ α : Type} {f : σ → Piece → Except Misfit σ} {R : Piece → α → Prop} {ps : List Piece}
    {found : Option α} (h : Maybe (One R) ps found) {s : σ} {s' : α → σ}
    (hf : ∀ t a, R t a → f s t = .ok (s' a)) : ps.foldlM f s = .ok (found.elim s s') := by
  cases h with
  | none => rfl
  | some h =>
    obtain ⟨t, rfl, ht⟩ := h
    exact foldlM_cons_eq_ok.2 ⟨_, hf _ _ ht, rfl⟩

theorem initializer_agrees (c : Cursor) : Agrees (.optional (.text "=" >> value)) (Maybe (One SaysValue)) c
    (Parser.initializer c).outcome :=
  .optional (.sign (by decide) fun d _ _ => value_agrees d)

/-! ### Bindings -/

/-- The parts of a binding, which another rule holds. -/
theorem binding_agrees (place : Location) (c : Cursor) : Agrees (.rule .identifier >> .text "=" >> value)
    (fun ps l => ps.foldlM letPart ⟨"", .unset, place⟩ = .ok l) c (Parser.binding place c).outcome := by
  refine .part (identifier_agrees c) fun t name d ht _ => .sign (by decide) fun d _ _ => ?_
  refine .map (value_agrees d) fun ps v ⟨u, hps, hu⟩ => ?_
  rw [hps]
  exact foldlM_cons_eq_ok.2 ⟨_, letPart_name ht _, foldlM_cons_eq_ok.2 ⟨_, letPart_value hu _, rfl⟩⟩

theorem letBinding_agrees (c : Cursor) : Agrees (.rule .letBinding)
    (One (Says .letBinding toLet)) c (Parser.letBinding c).outcome :=
  .rule (.here (.imp (binding_agrees c.place c) fun _ _ h _ => ⟨_, rfl, rfl, h⟩))

theorem fieldLet_agrees (c : Cursor) :
    Agrees (.rule .fieldLet) (One SaysItem) c (Parser.fieldLet c).outcome := by
  refine .rule (.here (.part (keyword_agrees .kwLet c) fun t _ d ht _ => ?_))
  refine .refines (fun c r h => Refines.next (.flat _ _ _) _ c r (Refines.flat _ _ _ c r h))
    (.behind (binding_agrees c.place d) fun ps l d hps _ => ?_)
  refine .lastSign fun text => ⟨_, rfl, .override ⟨rfl, ?_⟩⟩
  rw [List.append_nil]
  exact foldlM_cons_eq_ok.2 ⟨_, by rw [letPart, ht]; rfl, hps⟩

/-! ### Fields and parameters -/

/-- The parts of a parameter, which a field has as well. -/
theorem foldlM_paramPart {place namePlace : Location} {t u : Piece} {ps : List Piece} {type : TypeSyntax}
    {name : String} {default : Option ValueSyntax} (ht : SaysType t type) (hu : IsName namePlace u name)
    (hps : Maybe (One SaysValue) ps default) :
    (t :: u :: ps).foldlM paramPart ⟨.int, "", none, place⟩ = .ok ⟨type, name, default, place⟩ := by
  refine foldlM_cons_eq_ok.2 ⟨_, paramPart_type ht _, foldlM_cons_eq_ok.2 ⟨_, paramPart_name hu _, ?_⟩⟩
  refine (foldlM_maybe hps fun _ _ hw => paramPart_value hw _).trans ?_
  cases default <;> rfl

theorem templateParam_agrees (c : Cursor) :
    Agrees (.rule .templateParam) (One fun t p => t.toParam = .ok p) c (Parser.templateParam c).outcome := by
  refine .rule (.here (.part (fieldType_agrees c) fun t type d ht _ => ?_))
  refine .part (identifier_agrees d) fun u name d hu _ => ?_
  exact .map (initializer_agrees d) fun ps default hps text => ⟨_, rfl, foldlM_paramPart ht hu hps⟩

theorem templateParams_agrees (c : Cursor) : Agrees (.rule .templateParams)
    (One (Says .templateParams Piece.toParams)) c (Parser.templateParams c).outcome := by
  refine .rule (.sign (by decide) fun d _ _ => .refines (.flat _ _ _) ?_)
  refine .behind (.separated fun e _ => templateParam_agrees e) fun ps params d hps _ => ?_
  refine .lastSign fun text => ⟨_, rfl, rfl, ?_⟩
  rw [List.append_nil]
  exact mapM_eq_ok.2 hps

theorem fieldDecl_agrees (c : Cursor) :
    Agrees (.rule .fieldDecl) (One SaysItem) c (Parser.fieldDecl c).outcome := by
  refine .rule (.here (.behind (.optional (keyword_agrees .kwField c)) fun qs word d hword _ => ?_))
  refine .part (fieldType_agrees d) fun t type d ht _ => ?_
  refine .part (identifier_agrees d) fun u name d hu _ => ?_
  refine .behind (initializer_agrees d) fun ps default d hps _ => ?_
  refine .lastSign fun text => ⟨_, rfl, .field ⟨rfl, ?_⟩⟩
  have hqs : qs.foldlM fieldPart ⟨.int, "", none, c.place⟩ = .ok ⟨.int, "", none, c.place⟩ := by
    refine (foldlM_maybe hword fun _ _ hw => if_pos hw).trans ?_
    cases word <;> rfl
  have hplain : ∀ w ∈ t :: u :: ps, w.rule ≠ .kwField := by
    refine List.forall_mem_cons.2 ⟨ht.rule ▸ by decide, List.forall_mem_cons.2 ⟨hu.rule ▸ by decide, ?_⟩⟩
    cases hps with
    | none => exact List.forall_mem_nil _
    | some h =>
      obtain ⟨w, rfl, hw⟩ := h
      exact List.forall_mem_singleton.2 (hw.rule_ne rfl)
  rw [List.append_nil]
  have hparts : (qs ++ t :: u :: ps).foldlM fieldPart ⟨.int, "", none, c.place⟩ =
      .ok ⟨type, name, default, c.place⟩ := by
    refine foldlM_append_eq_ok.2 ⟨_, hqs, ?_⟩
    rw [foldlM_fieldPart hplain]
    exact foldlM_paramPart ht hu hps
  exact bind_eq_ok.2 ⟨_, hparts, rfl⟩

/-! ### Parents -/

theorem parentArgs_agrees (c : Cursor) : Agrees (.rule .parentArgs)
    (One (Says .parentArgs fun t => toValues t.parts)) c (Parser.parentArgs c).outcome := by
  refine .rule (.sign (by decide) fun d _ _ => ?_)
  refine .behind (.separatedOrNone fun e _ => value_agrees e) fun ps vs d hps _ => ?_
  refine .lastSign fun text => ⟨_, rfl, rfl, ?_⟩
  rw [List.append_nil]
  exact toValues_eq hps

theorem parent_agrees (c : Cursor) :
    Agrees (.rule .parent) (One fun t p => t.toParent = .ok p) c (Parser.parent c).outcome := by
  refine .rule (.here (.part (identifier_agrees c) fun t name d ht _ => ?_))
  refine .map (.optional (parentArgs_agrees d)) fun ps args hps text => ⟨_, rfl, ?_⟩
  have hname : parentPart ⟨"", [], c.place⟩ t = .ok ⟨name, [], c.place⟩ := by
    rw [parentPart, ht.rule, ht.text]
  have hargs : ∀ u vs, Says .parentArgs (fun t => toValues t.parts) u vs →
      parentPart ⟨name, [], c.place⟩ u = .ok ⟨name, vs, c.place⟩ := by
    intro u vs hu
    rw [parentPart, hu.rule]
    dsimp only
    rw [hu.eq]
    rfl
  refine foldlM_cons_eq_ok.2 ⟨_, hname, (foldlM_maybe hps hargs).trans ?_⟩
  cases args <;> rfl

theorem parentList_agrees (c : Cursor) : Agrees (.rule .parentList)
    (One (Says .parentList toParents)) c (Parser.parentList c).outcome := by
  refine .rule (.sign (by decide) fun d _ _ => ?_)
  exact .imp (.separated fun e _ => parent_agrees e) fun _ _ hps _ => ⟨_, rfl, rfl, mapM_eq_ok.2 hps⟩

/-! ### Bodies -/

theorem bodyItem_agrees (c : Cursor) :
    Agrees bodyItem (One SaysItem) c ((Parser.fieldLet <|> Parser.fieldDecl) c).outcome :=
  .choice (fieldLet_agrees c) (fieldDecl_agrees c)

theorem bodyItem_strict : bodyItem.Strict :=
  .choice (.rule (.first (keyword_strict .kwLet) _))
    (.rule (.second _ (.second _ (.second _ (.second _ (.first identifier_strict _))))))

theorem body_agrees (c : Cursor) : Agrees (.rule .body)
    (One (Says .body fun t => itemsOf t.parts)) c (Parser.body c).outcome := by
  refine .rule (.choice (.lastSign fun text => ⟨_, rfl, rfl, rfl⟩) (.sign (by decide) fun d hd _ => ?_))
  refine .behind (.each bodyItem_strict (fun e _ => bodyItem_agrees e) hd.symm (Nat.le_refl _))
    fun ps items d hps _ => ?_
  refine .lastSign fun text => ⟨_, rfl, rfl, ?_⟩
  rw [List.append_nil]
  exact itemsOf_eq hps

end Pattern
end TypedRecords
