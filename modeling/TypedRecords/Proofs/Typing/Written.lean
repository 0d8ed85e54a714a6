import TypedRecords.Run
import TypedRecords.Proofs.Eval.Ensures

/-!
# Written expressions

Nothing is bound in an expression that was read from a text; values come in only where bindings are
substituted. So the templates of a run hold written expressions, lets included. The types written in
them name classes that were declared.
-/

namespace TypedRecords

/-! ### Types -/

/-- Every class that the type names satisfies `N`. -/
def Ty.Named (N : String → Prop) : Ty → Prop
  | .list element => element.Named N
  | .record name => N name
  | _ => True

theorem Ty.Named.mono {N M : String → Prop} (hNM : ∀ name, N name → M name) {type : Ty}
    (h : type.Named N) : type.Named M := by
  induction type with
  | list element ih => exact ih h
  | record name => exact hNM name h
  | _ => trivial

/-- A type that names classes of the declared ones only. -/
abbrev Ty.Declared (declared : String → Bool) (type : Ty) : Prop :=
  type.Named fun name => declared name = true

theorem TypeSyntax.declared_of_toTy {declared : String → Bool} {t : TypeSyntax} {type : Ty}
    (h : t.toTy declared = .ok type) : type.Declared declared := by
  induction t generalizing type with
  | bits width place =>
    rw [toTy] at h
    split at h
    · exact Except.ok.inj h ▸ trivial
    · cases h
  | list element ih =>
    obtain ⟨inner, hinner, rfl⟩ := map_eq_ok.1 h
    have hnamed : inner.Declared declared := ih hinner
    exact hnamed
  | named name place =>
    rw [toTy] at h
    split at h
    · rename_i hname
      exact Except.ok.inj h ▸ hname
    · cases h
  | _ => exact Except.ok.inj h ▸ trivial

/-! ### Expressions -/

/-- Nothing is bound in the expression, and the element types written in it satisfy `T`. -/
abbrev Expr.Written (T : Ty → Prop) (e : Expr) : Prop := e.Bounds (fun _ => False) T

namespace ValueSyntax

mutual

theorem written_of_toExpr {declared : String → Bool} :
    ∀ (v : ValueSyntax) {e : Expr}, v.toExpr declared = .ok e → e.Written (Ty.Declared declared)
  | .unset, _, h => Except.ok.inj h ▸ .unset
  | .boolean _, _, h => Except.ok.inj h ▸ .int _
  | .integer literal place, _, h => by
    obtain ⟨number, -, rfl⟩ := map_eq_ok.1 h
    exact .int number
  | .string body place, _, h => by
    obtain ⟨text, -, rfl⟩ := map_eq_ok.1 h
    exact .string text
  | .code _, _, h => Except.ok.inj h ▸ .code _
  | .bits items place, _, h => by
    obtain ⟨es, hes, h⟩ := bind_eq_ok.1 h
    exact pure_eq_ok.1 h ▸ .bits (written_of_toExprs items hes)
  | .list items element place, _, h => by
    rw [toExpr] at h
    obtain ⟨es, hes, h⟩ := bind_eq_ok.1 h
    cases element with
    | none => exact pure_eq_ok.1 h ▸ .list nofun (written_of_toExprs items hes)
    | some type =>
      obtain ⟨ty, hty, h⟩ := bind_eq_ok.1 h
      refine pure_eq_ok.1 h ▸ .list (fun type htype => ?_) (written_of_toExprs items hes)
      exact Option.some.inj htype ▸ TypeSyntax.declared_of_toTy hty
  | .dag operator operatorPlace args place, _, h => by
    obtain ⟨as, has, h⟩ := bind_eq_ok.1 h
    exact pure_eq_ok.1 h ▸ .dag (.reference _ _) (written_of_toArgs args has)
  | .bang operator args place, _, h => by
    rw [toExpr] at h
    cases hop : Bang.ofName? operator with
    | none =>
      rw [hop] at h
      cases h
    | some op =>
      rw [hop] at h
      obtain ⟨es, hes, h⟩ := bind_eq_ok.1 h
      exact pure_eq_ok.1 h ▸ .bang (written_of_toExprs args hes)
  | .reference _ _, _, h => Except.ok.inj h ▸ .reference _ _

theorem written_of_toExprs {declared : String → Bool} :
    ∀ (vs : List ValueSyntax) {es : List Expr}, toExprs declared vs = .ok es →
      ∀ e ∈ es, e.Written (Ty.Declared declared)
  | [], _, h => by
    obtain rfl := Except.ok.inj h
    nofun
  | v :: vs, _, h => by
    obtain ⟨e, he, h⟩ := bind_eq_ok.1 h
    obtain ⟨es, hes, h⟩ := bind_eq_ok.1 h
    exact pure_eq_ok.1 h ▸
      List.forall_mem_cons.2 ⟨written_of_toExpr v he, written_of_toExprs vs hes⟩

theorem written_of_toArgs {declared : String → Bool} :
    ∀ (args : List (DagArg ValueSyntax)) {as : List (DagArg Expr)}, toArgs declared args = .ok as →
      ∀ a ∈ as, ∀ e ∈ a.value, e.Written (Ty.Declared declared)
  | [], _, h => by
    obtain rfl := Except.ok.inj h
    nofun
  | ⟨name, some v⟩ :: args, _, h => by
    rw [toArgs] at h
    obtain ⟨e, he, h⟩ := bind_eq_ok.1 h
    obtain ⟨as, has, h⟩ := bind_eq_ok.1 h
    refine pure_eq_ok.1 h ▸ List.forall_mem_cons.2 ⟨fun e' he' => ?_, written_of_toArgs args has⟩
    exact Option.some.inj he' ▸ written_of_toExpr v he
  | ⟨name, none⟩ :: args, _, h => by
    rw [toArgs] at h
    obtain ⟨as, has, h⟩ := bind_eq_ok.1 h
    exact pure_eq_ok.1 h ▸ List.forall_mem_cons.2 ⟨nofun, written_of_toArgs args has⟩

end

end ValueSyntax

/-! ### Templates -/

/-- The values bound in the expressions of an item satisfy `P`, and the types in it `T`. -/
def BodyItem.Bounds (P : Value → Prop) (T : Ty → Prop) : BodyItem → Prop
  | field _ type value _ => T type ∧ ∀ e ∈ value, e.Bounds P T
  | override o => o.value.Bounds P T

/-- Nothing is bound in the expressions of the template, and the types in it satisfy `T`. -/
structure Template.Written (T : Ty → Prop) (t : Template) : Prop where
  params : ∀ p ∈ t.params, T p.type ∧ ∀ e ∈ p.default, e.Written T
  parents : ∀ p ∈ t.parents, ∀ e ∈ p.args, e.Written T
  lets : ∀ o ∈ t.lets, o.value.Written T
  body : ∀ i ∈ t.body, i.Bounds (fun _ => False) T

theorem Template.Written.mono {T U : Ty → Prop} {t : Template} (h : t.Written T)
    (hTU : ∀ type, T type → U type) : t.Written U := by
  have grow : ∀ e : Expr, e.Written T → e.Written U := fun e he => he.mono (fun _ => id) hTU
  refine ⟨fun p hp => ?_, fun p hp e he => grow e (h.parents p hp e he),
    fun o ho => grow _ (h.lets o ho), fun i hi => ?_⟩
  · obtain ⟨htype, hdefault⟩ := h.params p hp
    exact ⟨hTU _ htype, fun e he => grow e (hdefault e he)⟩
  · have hitem := h.body i hi
    cases i with
    | field name type value place => exact ⟨hTU _ hitem.1, fun e he => grow e (hitem.2 e he)⟩
    | override o => exact grow _ hitem

section
variable {declared : String → Bool}

theorem LetSyntax.written_toOverride {l : LetSyntax} {o : Override}
    (h : l.toOverride declared = .ok o) : o.value.Written (Ty.Declared declared) := by
  obtain ⟨e, he, h⟩ := bind_eq_ok.1 h
  exact pure_eq_ok.1 h ▸ ValueSyntax.written_of_toExpr l.value he

theorem written_optionalExpr {v : Option ValueSyntax} {value : Option Expr}
    (h : optionalExpr declared v = .ok value) : ∀ e ∈ value, e.Written (Ty.Declared declared) := by
  cases v with
  | none =>
    obtain rfl := Except.ok.inj h
    nofun
  | some v =>
    obtain ⟨e, he, rfl⟩ := map_eq_ok.1 h
    exact fun e' he' => Option.some.inj he' ▸ ValueSyntax.written_of_toExpr v he

theorem written_toParams {earlier params : List Param} {ps : List ParamSyntax}
    (hearlier : ∀ p ∈ earlier,
      p.type.Declared declared ∧ ∀ e ∈ p.default, e.Written (Ty.Declared declared))
    (h : toParams declared earlier ps = .ok params) : ∀ p ∈ params,
      p.type.Declared declared ∧ ∀ e ∈ p.default, e.Written (Ty.Declared declared) := by
  induction ps generalizing earlier with
  | nil => exact Except.ok.inj h ▸ hearlier
  | cons p ps ih =>
    rw [toParams] at h
    obtain ⟨type, htype, h⟩ := bind_eq_ok.1 h
    obtain ⟨default, hdefault, h⟩ := bind_eq_ok.1 h
    obtain ⟨-, h⟩ := throwIf_bind_eq_ok.1 h
    exact ih (List.forall_mem_append.2 ⟨hearlier, List.forall_mem_singleton.2
      ⟨TypeSyntax.declared_of_toTy htype, written_optionalExpr hdefault⟩⟩) h

theorem ParentSyntax.written_toParentRef {p : ParentSyntax} {q : ParentRef}
    (h : p.toParentRef declared = .ok q) : ∀ e ∈ q.args, e.Written (Ty.Declared declared) := by
  obtain ⟨args, hargs, h⟩ := bind_eq_ok.1 h
  exact pure_eq_ok.1 h ▸ ValueSyntax.written_of_toExprs p.args hargs

theorem ItemSyntax.written_toBodyItem {i : ItemSyntax} {item : BodyItem}
    (h : i.toBodyItem declared = .ok item) : item.Bounds (fun _ => False) (Ty.Declared declared) := by
  cases i with
  | field type name value place =>
    obtain ⟨ty, hty, h⟩ := bind_eq_ok.1 h
    obtain ⟨value, hvalue, h⟩ := bind_eq_ok.1 h
    exact pure_eq_ok.1 h ▸ ⟨TypeSyntax.declared_of_toTy hty, written_optionalExpr hvalue⟩
  | override l =>
    obtain ⟨o, ho, rfl⟩ := map_eq_ok.1 h
    exact LetSyntax.written_toOverride ho

/-- Parents and bodies are read in one way for classes and defs. -/
theorem Template.Written.of_mapM {T : Ty → Prop} (hT : ∀ type : Ty, type.Declared declared → T type)
    {name : String} {params : List Param} {lets : List Override}
    {ps : List ParentSyntax} {parents : List ParentRef} {is : List ItemSyntax} {body : List BodyItem}
    (hparams : ∀ p ∈ params,
      p.type.Declared declared ∧ ∀ e ∈ p.default, e.Written (Ty.Declared declared))
    (hlets : ∀ o ∈ lets, o.value.Written T)
    (hparents : ps.mapM (·.toParentRef declared) = .ok parents)
    (hbody : is.mapM (·.toBodyItem declared) = .ok body) :
    Template.Written T ⟨name, params, parents, lets, body⟩ := by
  have h : Template.Written (Ty.Declared declared) ⟨name, params, parents, [], body⟩ := by
    refine ⟨hparams, fun p hp => ?_, List.forall_mem_nil _, fun i hi => ?_⟩
    · obtain ⟨q, -, hq⟩ := mem_of_mapM_eq_ok hparents p hp
      exact ParentSyntax.written_toParentRef hq
    · obtain ⟨j, -, hj⟩ := mem_of_mapM_eq_ok hbody i hi
      exact ItemSyntax.written_toBodyItem hj
  exact { h.mono hT with lets := hlets }

theorem ClassSyntax.written_toTemplate {T : Ty → Prop}
    (hT : ∀ type : Ty, type.Declared declared → T type) {lets : List Override}
    (hlets : ∀ o ∈ lets, o.value.Written T) {c : ClassSyntax} {t : Template}
    (h : c.toTemplate declared lets = .ok t) : t.Written T := by
  obtain ⟨params, hparams, h⟩ := bind_eq_ok.1 h
  obtain ⟨parents, hparents, h⟩ := bind_eq_ok.1 h
  obtain ⟨body, hbody, h⟩ := bind_eq_ok.1 h
  exact pure_eq_ok.1 h ▸
    .of_mapM hT (written_toParams (List.forall_mem_nil _) hparams) hlets hparents hbody

theorem DefSyntax.written_toTemplate {T : Ty → Prop}
    (hT : ∀ type : Ty, type.Declared declared → T type) {lets : List Override}
    (hlets : ∀ o ∈ lets, o.value.Written T) {name : String} {d : DefSyntax} {t : Template}
    (h : d.toTemplate declared lets name = .ok t) : t.Written T := by
  obtain ⟨parents, hparents, h⟩ := bind_eq_ok.1 h
  obtain ⟨body, hbody, h⟩ := bind_eq_ok.1 h
  exact pure_eq_ok.1 h ▸ .of_mapM hT nofun hlets hparents hbody

end
end TypedRecords
