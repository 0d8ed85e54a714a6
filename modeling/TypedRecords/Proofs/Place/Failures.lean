import TypedRecords.Proofs.Eval.Ensures
import TypedRecords.Proofs.Place.Nodes
import TypedRecords.Template.Basic

/-!
# Where reading a declaration fails

What is read of a declaration keeps the places of its nodes, and reading fails at one of them. So if the
nodes of a declaration are at places that satisfy a property, the place of a failure does, and all places
in the template do (`ClassSyntax.toTemplate_located`, `DefSyntax.toTemplate_located`). None of these
failures is that a text is not one of the language.
-/

namespace TypedRecords

theorem error_of_bind {ε α β : Type} {x : Except ε α} {f : α → β} {e : ε}
    (h : x >>= (fun a => pure (f a)) = .error e) : x = .error e := by
  cases x with
  | ok a => cases h
  | error e' => exact congrArg _ (Except.error.inj h)

theorem mapError_eq_error {ε ε' α : Type} {x : Except ε α} {f : ε → ε'} {e : ε'} :
    x.mapError f = .error e ↔ ∃ e', x = .error e' ∧ f e' = e := by
  cases x with
  | ok a => exact ⟨nofun, fun ⟨_, h, _⟩ => nomatch h⟩
  | error e' =>
    exact ⟨fun h => ⟨e', rfl, Except.error.inj h⟩, fun ⟨_, h, he⟩ => Except.error.inj h ▸ he ▸ rfl⟩

/-- The cause lies in what a text says, and not in that it is no text of the language. -/
def Cause.Semantic : Cause → Prop
  | .expected _ => False
  | _ => True

/-- A failure is semantic and lies at a place that satisfies `P`; a result satisfies `Q`. -/
inductive Located {α : Type} (P : Location → Prop) (Q : α → Prop) : Except ParseError α → Prop
  | ok {a : α} (h : Q a) : Located P Q (.ok a)
  | error {cause : Cause} {place : Location} (hcause : cause.Semantic) (h : P place) :
      Located P Q (.error ⟨cause, place⟩)

namespace Located
variable {α β : Type} {P : Location → Prop} {Q : α → Prop} {R : β → Prop} {x : Except ParseError α}

theorem result (h : Located P Q x) {a : α} (ha : x = .ok a) : Q a := by
  cases h with
  | ok h => exact Except.ok.inj ha ▸ h
  | error => cases ha

theorem failure (h : Located P Q x) {e : ParseError} (he : x = .error e) :
    e.cause.Semantic ∧ P e.place := by
  cases h with
  | ok h => cases he
  | error hcause h => exact Except.error.inj he ▸ ⟨hcause, h⟩

theorem mono {Q' : α → Prop} (h : Located P Q x) (hQ : ∀ a, Q a → Q' a) : Located P Q' x := by
  cases h with
  | ok h => exact .ok (hQ _ h)
  | error hcause h => exact .error hcause h

theorem bind {f : α → Except ParseError β} (h : Located P Q x) (hf : ∀ a, Q a → Located P R (f a)) :
    Located P R (x >>= f) := by
  cases h with
  | ok h => exact hf _ h
  | error hcause h => exact .error hcause h

theorem map {f : α → β} (h : Located P Q x) (hf : ∀ a, Q a → R (f a)) : Located P R (x.map f) := by
  cases h with
  | ok h => exact .ok (hf _ h)
  | error hcause h => exact .error hcause h

/-- A check that fails its input. -/
theorem throwIf {p : Prop} [Decidable p] {cause : Cause} {place : Location}
    {f : Unit → Except ParseError α} (hcause : cause.Semantic) (h : P place) (hf : Located P Q (f ())) :
    Located P Q (if p then throw ⟨cause, place⟩ >>= f else f ()) := by
  split_ifs
  · exact .error hcause h
  · exact hf

theorem mapM {ι : Type} {is : List ι} {f : ι → Except ParseError α}
    (h : ∀ i ∈ is, Located P Q (f i)) : Located P (fun as => ∀ a ∈ as, Q a) (is.mapM f) := by
  induction is with
  | nil => exact .ok (List.forall_mem_nil _)
  | cons i is ih =>
    obtain ⟨hi, his⟩ := List.forall_mem_cons.1 h
    rw [List.mapM_cons]
    exact hi.bind fun a ha => (ih his).bind fun as has => .ok (List.forall_mem_cons.2 ⟨ha, has⟩)

theorem foldlM {ι : Type} {is : List ι} {f : α → ι → Except ParseError α}
    (h : ∀ i ∈ is, ∀ a, Q a → Located P Q (f a i)) {a : α} (ha : Q a) :
    Located P Q (is.foldlM f a) := by
  induction is generalizing a with
  | nil => exact .ok ha
  | cons i is ih =>
    obtain ⟨hi, his⟩ := List.forall_mem_cons.1 h
    rw [List.foldlM_cons]
    exact (hi a ha).bind fun b hb => ih his hb

end Located

/-- All nodes are at places that satisfy `P`. -/
abbrev Node.AllAt (P : Location → Prop) (ns : List Node) : Prop := ∀ n ∈ ns, P n.place

theorem Node.place_of_allAt {P : Location → Prop} {rule : Rule} {place : Location}
    (h : AllAt P [⟨rule, place⟩]) : P place := h _ (List.mem_singleton_self _)

/-! ### What is kept of a declaration -/

/-- All places in the expression satisfy `P`. -/
inductive Expr.Lies (P : Location → Prop) : Expr → Prop
  | unset : Lies P .unset
  | int (number : Int64) : Lies P (.int number)
  | string (text : String) : Lies P (.string text)
  | code (text : String) : Lies P (.code text)
  | bits {items : List Expr} {place : Location} (hp : P place) (h : ∀ e ∈ items, Lies P e) :
      Lies P (.bits items place)
  | list {items : List Expr} {element : Option Ty} {place : Location} (hp : P place)
      (h : ∀ e ∈ items, Lies P e) : Lies P (.list items element place)
  | dag {operator : Expr} {args : List (DagArg Expr)} {place : Location} (hp : P place)
      (ho : Lies P operator) (h : ∀ a ∈ args, ∀ e ∈ a.value, Lies P e) :
      Lies P (.dag operator args place)
  | bang {op : Bang} {args : List Expr} {place : Location} (hp : P place)
      (h : ∀ e ∈ args, Lies P e) : Lies P (.bang op args place)
  | reference {name : String} {place : Location} (hp : P place) : Lies P (.reference name place)
  | bound (value : Option Value) (type : Ty) : Lies P (.bound value type)

variable {P : Location → Prop}

theorem Expr.Lies.substitute {e : Expr} (h : e.Lies P) (bs : Bindings) : (e.substitute bs).Lies P := by
  induction h with
  | unset | int | string | code | bound =>
    rw [Expr.substitute]
    constructor
  | bits hp _ ih =>
    rw [Expr.substitute, substituteAll_eq]
    exact .bits hp (List.forall_mem_map.2 ih)
  | list hp _ ih =>
    rw [Expr.substitute, substituteAll_eq]
    exact .list hp (List.forall_mem_map.2 ih)
  | dag hp _ _ iho ih =>
    rw [Expr.substitute, substituteArgs_eq]
    refine .dag hp iho (List.forall_mem_map.2 fun a ha e he => ?_)
    obtain ⟨e', he', rfl⟩ := Option.map_eq_some_iff.1 he
    exact ih a ha e' he'
  | bang hp _ ih =>
    rw [Expr.substitute, substituteAll_eq]
    exact .bang hp (List.forall_mem_map.2 ih)
  | @reference name place hp =>
    rw [Expr.substitute]
    cases bs.find? name with
    | none => exact .reference hp
    | some b => exact .bound b.value b.type

structure Override.Lies (P : Location → Prop) (o : Override) : Prop where
  place : P o.place
  value : o.value.Lies P

structure ParentRef.Lies (P : Location → Prop) (p : ParentRef) : Prop where
  place : P p.place
  args : ∀ e ∈ p.args, e.Lies P

def BodyItem.Lies (P : Location → Prop) : BodyItem → Prop
  | .field _ _ value place => P place ∧ ∀ e ∈ value, e.Lies P
  | .override o => o.Lies P

/-- All places in the template satisfy `P`. -/
structure Template.Lies (P : Location → Prop) (t : Template) : Prop where
  params : ∀ p ∈ t.params, ∀ e ∈ p.default, e.Lies P
  parents : ∀ p ∈ t.parents, p.Lies P
  lets : ∀ o ∈ t.lets, o.Lies P
  body : ∀ i ∈ t.body, i.Lies P

/-! ### Reading what is written -/

section
variable {declared : String → Bool}

theorem TypeSyntax.toTy_located {t : TypeSyntax} (h : Node.AllAt P t.nodes) :
    Located P (fun _ => True) (t.toTy declared) := by
  induction t with
  | bits width place =>
    rw [toTy]
    split_ifs
    · exact .ok trivial
    · exact .error trivial (Node.place_of_allAt h)
  | list element ih => exact (ih h).map fun _ _ => trivial
  | named name place =>
    rw [toTy]
    split_ifs
    · exact .ok trivial
    · exact .error trivial (Node.place_of_allAt h)
  | _ => exact .ok trivial

theorem stringText_located (body : List Char) {place : Location} (h : P place) :
    Located P (fun _ => True) (stringText body place) := by
  unfold stringText
  split
  · exact .ok trivial
  · exact .error trivial h

theorem integerValue_located (literal : IntLiteral) {place : Location} (h : P place) :
    Located P (fun _ => True) (integerValue literal place) := by
  unfold integerValue
  split
  · exact .ok trivial
  · exact .error trivial h

namespace ValueSyntax

mutual

theorem toExpr_located : ∀ v : ValueSyntax, Node.AllAt P v.nodes →
    Located P (Expr.Lies P) (v.toExpr declared)
  | .unset, _ => .ok .unset
  | .boolean _, _ => .ok (.int _)
  | .integer literal place, h =>
    (integerValue_located literal (Node.place_of_allAt h)).map fun number _ => .int number
  | .string body place, h =>
    (stringText_located body (Node.place_of_allAt h)).map fun text _ => .string text
  | .code _, _ => .ok (.code _)
  | .bits items place, h => by
    obtain ⟨hplace, hitems⟩ := List.forall_mem_cons.1 h
    exact (toExprs_located items hitems).bind fun es hes => .ok (.bits hplace hes)
  | .list items none place, h => by
    obtain ⟨hplace, hitems⟩ := List.forall_mem_cons.1 h
    exact (toExprs_located items hitems).bind fun es hes => .ok (.list hplace hes)
  | .list items (some element) place, h => by
    obtain ⟨hplace, hnodes⟩ := List.forall_mem_cons.1 h
    obtain ⟨hitems, helement⟩ := List.forall_mem_append.1 hnodes
    exact (toExprs_located items hitems).bind fun es hes =>
      (TypeSyntax.toTy_located helement).bind fun _ _ => .ok (.list hplace hes)
  | .dag operator operatorPlace args place, h => by
    obtain ⟨hplace, hnodes⟩ := List.forall_mem_cons.1 h
    obtain ⟨hoperator, hargs⟩ := List.forall_mem_cons.1 hnodes
    exact (toArgs_located args hargs).bind fun as has => .ok (.dag hplace (.reference hoperator) has)
  | .bang operator args place, h => by
    obtain ⟨hplace, hargs⟩ := List.forall_mem_cons.1 h
    rw [toExpr]
    cases Bang.ofName? operator with
    | none => exact .error trivial hplace
    | some op => exact (toExprs_located args hargs).bind fun es hes => .ok (.bang hplace hes)
  | .reference name place, h => .ok (.reference (Node.place_of_allAt h))

theorem toExprs_located : ∀ vs : List ValueSyntax, Node.AllAt P (nodesAll vs) →
    Located P (fun es => ∀ e ∈ es, e.Lies P) (toExprs declared vs)
  | [], _ => .ok (List.forall_mem_nil _)
  | v :: vs, h => by
    obtain ⟨hv, hvs⟩ := List.forall_mem_append.1 h
    exact (toExpr_located v hv).bind fun e he =>
      (toExprs_located vs hvs).bind fun es hes => .ok (List.forall_mem_cons.2 ⟨he, hes⟩)

theorem toArgs_located : ∀ as : List (DagArg ValueSyntax), Node.AllAt P (nodesArgs as) →
    Located P (fun bs => ∀ b ∈ bs, ∀ e ∈ b.value, e.Lies P) (toArgs declared as)
  | [], _ => .ok (List.forall_mem_nil _)
  | ⟨name, some v⟩ :: as, h => by
    obtain ⟨hv, has⟩ := List.forall_mem_append.1 h
    exact (toExpr_located v hv).bind fun e he => (toArgs_located as has).bind fun bs hbs =>
      .ok (List.forall_mem_cons.2 ⟨fun e' he' => Option.some.inj he' ▸ he, hbs⟩)
  | ⟨name, none⟩ :: as, h =>
    (toArgs_located as h).bind fun bs hbs => .ok (List.forall_mem_cons.2 ⟨by simp, hbs⟩)

end

end ValueSyntax

theorem optionalExpr_located {v : Option ValueSyntax} (h : Node.AllAt P (ValueSyntax.nodesOption v)) :
    Located P (fun value => ∀ e ∈ value, e.Lies P) (optionalExpr declared v) := by
  cases v with
  | none => exact .ok nofun
  | some v => exact (v.toExpr_located h).map fun e he e' he' => Option.some.inj he' ▸ he

theorem LetSyntax.toOverride_located {rule : Rule} {l : LetSyntax} (h : Node.AllAt P (l.nodes rule)) :
    Located P (Override.Lies P) (l.toOverride declared) := by
  obtain ⟨hplace, hvalue⟩ := List.forall_mem_cons.1 h
  exact (l.value.toExpr_located hvalue).bind fun e he => .ok ⟨hplace, he⟩

theorem toParams_located {earlier : List Param} (hearlier : ∀ p ∈ earlier, ∀ e ∈ p.default, e.Lies P)
    {ps : List ParamSyntax} (h : ∀ p ∈ ps, Node.AllAt P p.nodes) :
    Located P (fun params => ∀ p ∈ params, ∀ e ∈ p.default, e.Lies P)
      (toParams declared earlier ps) := by
  induction ps generalizing earlier with
  | nil => exact .ok hearlier
  | cons p ps ih =>
    obtain ⟨hp, hps⟩ := List.forall_mem_cons.1 h
    obtain ⟨hplace, hnodes⟩ := List.forall_mem_cons.1 hp
    obtain ⟨htype, hdefault⟩ := List.forall_mem_append.1 hnodes
    rw [toParams]
    refine (TypeSyntax.toTy_located htype).bind fun type _ => ?_
    refine (optionalExpr_located hdefault).bind fun default hdefault => ?_
    refine .throwIf trivial hplace (ih ?_ hps)
    exact List.forall_mem_append.2 ⟨hearlier, List.forall_mem_singleton.2 hdefault⟩

theorem ParentSyntax.toParentRef_located {p : ParentSyntax} (h : Node.AllAt P p.nodes) :
    Located P (ParentRef.Lies P) (p.toParentRef declared) := by
  obtain ⟨hplace, hargs⟩ := List.forall_mem_cons.1 h
  exact (ValueSyntax.toExprs_located p.args hargs).bind fun es hes => .ok ⟨hplace, hes⟩

theorem ItemSyntax.toBodyItem_located {i : ItemSyntax} (h : Node.AllAt P i.nodes) :
    Located P (BodyItem.Lies P) (i.toBodyItem declared) := by
  cases i with
  | field type name value place =>
    obtain ⟨hplace, hnodes⟩ := List.forall_mem_cons.1 h
    obtain ⟨htype, hvalue⟩ := List.forall_mem_append.1 hnodes
    exact (TypeSyntax.toTy_located htype).bind fun _ _ =>
      (optionalExpr_located hvalue).bind fun value hvalue => .ok ⟨hplace, hvalue⟩
  | override l => exact (LetSyntax.toOverride_located h).map fun _ ho => ho

variable {lets : List Override} (hlets : ∀ o ∈ lets, o.Lies P)
include hlets

theorem ClassSyntax.toTemplate_located {c : ClassSyntax} (h : Node.AllAt P c.nodes) :
    Located P (Template.Lies P) (c.toTemplate declared lets) := by
  have hparts := (List.forall_mem_cons.1 (List.forall_mem_cons.1 h).2).2
  obtain ⟨hdecls, hbody⟩ := List.forall_mem_append.1 hparts
  obtain ⟨hparams, hparents⟩ := List.forall_mem_append.1 hdecls
  rw [List.forall_mem_flatMap] at hparams hparents hbody
  refine (toParams_located (List.forall_mem_nil _) hparams).bind fun params hparams => ?_
  refine (Located.mapM fun p hp => ParentSyntax.toParentRef_located (hparents p hp)).bind
    fun parents hparents => ?_
  exact (Located.mapM fun i hi => ItemSyntax.toBodyItem_located (hbody i hi)).bind
    fun body hbody => .ok ⟨hparams, hparents, hlets, hbody⟩

theorem DefSyntax.toTemplate_located {d : DefSyntax} (h : Node.AllAt P d.nodes) (name : String) :
    Located P (Template.Lies P) (d.toTemplate declared lets name) := by
  obtain ⟨hparents, hbody⟩ := List.forall_mem_append.1 (List.forall_mem_cons.1 h).2
  rw [List.forall_mem_flatMap] at hparents hbody
  refine (Located.mapM fun p hp => ParentSyntax.toParentRef_located (hparents p hp)).bind
    fun parents hparents => ?_
  exact (Located.mapM fun i hi => ItemSyntax.toBodyItem_located (hbody i hi)).bind
    fun body hbody => .ok ⟨List.forall_mem_nil _, hparents, hlets, hbody⟩

end

end TypedRecords
