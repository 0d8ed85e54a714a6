import TypedRecords.Proofs.Scope.Lowered
import TypedRecords.Proofs.Together.Draft

/-!
# Similar declarations

What is written is `Similar` where it differs in places and in identifiers only, like the expressions it
stands for. Declarations of classes may also call their parameters by other names. Similar declarations
are read together, as similar templates.
-/

namespace TypedRecords

/-! ### Relations -/

/-- The types are the same but for places. -/
inductive TypeSyntax.Similar : TypeSyntax → TypeSyntax → Prop
  | bit : Similar .bit .bit
  | int : Similar .int .int
  | string : Similar .string .string
  | code : Similar .code .code
  | dag : Similar .dag .dag
  | bits (width : Nat) (place place' : Location) : Similar (.bits width place) (.bits width place')
  | list {element element' : TypeSyntax} (h : Similar element element') :
      Similar (.list element) (.list element')
  | named (name : String) (place place' : Location) : Similar (.named name place) (.named name place')

mutual

/-- The values are the same but for places and identifiers. Identifiers that stand at one place are
related by `N`. -/
inductive ValueSyntax.Similar (N : String → String → Prop) : ValueSyntax → ValueSyntax → Prop
  | unset : ValueSyntax.Similar N .unset .unset
  | boolean (truth : Bool) : ValueSyntax.Similar N (.boolean truth) (.boolean truth)
  | integer (literal : IntLiteral) (place place' : Location) :
      ValueSyntax.Similar N (.integer literal place) (.integer literal place')
  | string (body : List Char) (place place' : Location) :
      ValueSyntax.Similar N (.string body place) (.string body place')
  | code (body : List Char) : ValueSyntax.Similar N (.code body) (.code body)
  | bits {items items' : List ValueSyntax} {place place' : Location}
      (h : ValueSyntax.SimilarAll N items items') :
      ValueSyntax.Similar N (.bits items place) (.bits items' place')
  | list {items items' : List ValueSyntax} {element element' : Option TypeSyntax}
      {place place' : Location} (h : ValueSyntax.SimilarAll N items items')
      (helement : Option.Rel TypeSyntax.Similar element element') :
      ValueSyntax.Similar N (.list items element place) (.list items' element' place')
  | dag {operator operator' : String} {operatorPlace operatorPlace' : Location}
      {args args' : List (DagArg ValueSyntax)} {place place' : Location} (ho : N operator operator')
      (h : ValueSyntax.SimilarArgs N args args') :
      ValueSyntax.Similar N (.dag operator operatorPlace args place)
        (.dag operator' operatorPlace' args' place')
  | bang {operator : String} {args args' : List ValueSyntax} {place place' : Location}
      (h : ValueSyntax.SimilarAll N args args') :
      ValueSyntax.Similar N (.bang operator args place) (.bang operator args' place')
  | reference {name name' : String} {place place' : Location} (h : N name name') :
      ValueSyntax.Similar N (.reference name place) (.reference name' place')

inductive ValueSyntax.SimilarAll (N : String → String → Prop) :
    List ValueSyntax → List ValueSyntax → Prop
  | nil : ValueSyntax.SimilarAll N [] []
  | cons {v v' : ValueSyntax} {vs vs' : List ValueSyntax} (h : ValueSyntax.Similar N v v')
      (hrest : ValueSyntax.SimilarAll N vs vs') : ValueSyntax.SimilarAll N (v :: vs) (v' :: vs')

inductive ValueSyntax.SimilarArgs (N : String → String → Prop) :
    List (DagArg ValueSyntax) → List (DagArg ValueSyntax) → Prop
  | nil : ValueSyntax.SimilarArgs N [] []
  | value {name : Option String} {v v' : ValueSyntax} {as as' : List (DagArg ValueSyntax)}
      (h : ValueSyntax.Similar N v v') (hrest : ValueSyntax.SimilarArgs N as as') :
      ValueSyntax.SimilarArgs N (⟨name, some v⟩ :: as) (⟨name, some v'⟩ :: as')
  | none {name : Option String} {as as' : List (DagArg ValueSyntax)}
      (hrest : ValueSyntax.SimilarArgs N as as') :
      ValueSyntax.SimilarArgs N (⟨name, .none⟩ :: as) (⟨name, .none⟩ :: as')

end

structure LetSyntax.Similar (N : String → String → Prop) (l l' : LetSyntax) : Prop where
  name : l.name = l'.name
  value : l.value.Similar N l'.value

structure ParentSyntax.Similar (N : String → String → Prop) (q q' : ParentSyntax) : Prop where
  name : q.name = q'.name
  args : ValueSyntax.SimilarAll N q.args q'.args

inductive ItemSyntax.Similar (N : String → String → Prop) : ItemSyntax → ItemSyntax → Prop
  | field {type type' : TypeSyntax} {name : String} {value value' : Option ValueSyntax}
      {place place' : Location} (htype : type.Similar type')
      (h : Option.Rel (ValueSyntax.Similar N) value value') :
      ItemSyntax.Similar N (.field type name value place) (.field type' name value' place')
  | override {l l' : LetSyntax} (h : l.Similar N l') :
      ItemSyntax.Similar N (.override l) (.override l')

/-- The parameters differ in their names only, behind others that are called `xs` and `ys`. A name that is
given twice is so in both. -/
inductive ParamSyntax.SimilarAll : List String → List String → List ParamSyntax → List ParamSyntax → Prop
  | nil {xs ys : List String} : SimilarAll xs ys [] []
  | cons {xs ys : List String} {p q : ParamSyntax} {ps qs : List ParamSyntax}
      (htype : p.type.Similar q.type)
      (hdefault : Option.Rel (ValueSyntax.Similar (Corresponds Eq xs ys)) p.default q.default)
      (hnew : p.name ∈ xs ↔ q.name ∈ ys)
      (hrest : SimilarAll (xs ++ [p.name]) (ys ++ [q.name]) ps qs) :
      SimilarAll xs ys (p :: ps) (q :: qs)

def ClassSyntax.paramNames (c : ClassSyntax) : List String := c.params.map ParamSyntax.name

/-- The classes are the same but for places and for what their parameters are called. -/
structure ClassSyntax.Similar (c c' : ClassSyntax) : Prop where
  name : c.name = c'.name
  params : ParamSyntax.SimilarAll [] [] c.params c'.params
  parents : List.Forall₂ (ParentSyntax.Similar (Corresponds Eq c.paramNames c'.paramNames)) c.parents
    c'.parents
  body : List.Forall₂ (ItemSyntax.Similar (Corresponds Eq c.paramNames c'.paramNames)) c.body c'.body

/-- The defs are the same but for places. -/
structure DefSyntax.Similar (d d' : DefSyntax) : Prop where
  name : d.name = d'.name
  parents : List.Forall₂ (ParentSyntax.Similar Eq) d.parents d'.parents
  body : List.Forall₂ (ItemSyntax.Similar Eq) d.body d'.body

/-! ### Other identifiers -/

theorem optionRel_imp {α β : Type} {R S : α → β → Prop} (hRS : ∀ a b, R a b → S a b) {x : Option α}
    {y : Option β} (h : Option.Rel R x y) : Option.Rel S x y := by
  cases h with
  | some h => exact .some (hRS _ _ h)
  | none => exact .none

section
variable {N M : String → String → Prop}

mutual

theorem ValueSyntax.Similar.imp (hNM : ∀ a b, N a b → M a b) : ∀ {v v' : ValueSyntax},
    v.Similar N v' → v.Similar M v'
  | .unset, _, .unset => .unset
  | .boolean truth, _, .boolean _ => .boolean truth
  | .integer literal _, _, .integer _ _ _ => .integer literal _ _
  | .string body _, _, .string _ _ _ => .string body _ _
  | .code body, _, .code _ => .code body
  | .bits _ _, _, .bits h => .bits (ValueSyntax.SimilarAll.imp hNM h)
  | .list _ _ _, _, .list h helement => .list (ValueSyntax.SimilarAll.imp hNM h) helement
  | .dag _ _ _ _, _, .dag ho h => .dag (hNM _ _ ho) (ValueSyntax.SimilarArgs.imp hNM h)
  | .bang _ _ _, _, .bang h => .bang (ValueSyntax.SimilarAll.imp hNM h)
  | .reference _ _, _, .reference h => .reference (hNM _ _ h)

theorem ValueSyntax.SimilarAll.imp (hNM : ∀ a b, N a b → M a b) : ∀ {vs vs' : List ValueSyntax},
    ValueSyntax.SimilarAll N vs vs' → ValueSyntax.SimilarAll M vs vs'
  | [], _, .nil => .nil
  | _ :: _, _, .cons h hrest => .cons (h.imp hNM) (ValueSyntax.SimilarAll.imp hNM hrest)

theorem ValueSyntax.SimilarArgs.imp (hNM : ∀ a b, N a b → M a b) :
    ∀ {as as' : List (DagArg ValueSyntax)},
      ValueSyntax.SimilarArgs N as as' → ValueSyntax.SimilarArgs M as as'
  | [], _, .nil => .nil
  | ⟨_, some _⟩ :: _, _, .value h hrest => .value (h.imp hNM) (ValueSyntax.SimilarArgs.imp hNM hrest)
  | ⟨_, .none⟩ :: _, _, .none hrest => .none (ValueSyntax.SimilarArgs.imp hNM hrest)

end

theorem ParentSyntax.Similar.imp (hNM : ∀ a b, N a b → M a b) {q q' : ParentSyntax}
    (h : q.Similar N q') : q.Similar M q' := ⟨h.name, h.args.imp hNM⟩

theorem ItemSyntax.Similar.imp (hNM : ∀ a b, N a b → M a b) {i i' : ItemSyntax}
    (h : i.Similar N i') : i.Similar M i' := by
  cases h with
  | field htype h => exact .field htype (optionRel_imp (fun _ _ h => h.imp hNM) h)
  | override h => exact .override ⟨h.name, h.value.imp hNM⟩

theorem Corresponds.imp (hNM : ∀ a b, N a b → M a b) {xs ys : List String} {a b : String}
    (h : Corresponds N xs ys a b) : Corresponds M xs ys a b := by
  induction h with
  | here => exact .here
  | there hx hy _ ih => exact .there hx hy ih
  | free h => exact .free (hNM _ _ h)

end

/-! ### Similarity to itself -/

theorem optionRel_self {α : Type} {R : α → α → Prop} (h : ∀ a, R a a) : ∀ o : Option α, Option.Rel R o o
  | some a => .some (h a)
  | none => .none

theorem TypeSyntax.similar_self : ∀ t : TypeSyntax, t.Similar t
  | .bit => .bit
  | .int => .int
  | .string => .string
  | .code => .code
  | .dag => .dag
  | .bits width place => .bits width place place
  | .list element => .list element.similar_self
  | .named name place => .named name place place

section
variable {N : String → String → Prop}

mutual

theorem ValueSyntax.similar_self (hN : ∀ a, N a a) : ∀ v : ValueSyntax, v.Similar N v
  | .unset => .unset
  | .boolean truth => .boolean truth
  | .integer literal place => .integer literal place place
  | .string body place => .string body place place
  | .code body => .code body
  | .bits items _ => .bits (similarAll_self hN items)
  | .list items element _ =>
    .list (similarAll_self hN items) (optionRel_self TypeSyntax.similar_self element)
  | .dag operator _ args _ => .dag (hN operator) (similarArgs_self hN args)
  | .bang _ args _ => .bang (similarAll_self hN args)
  | .reference name _ => .reference (hN name)

theorem ValueSyntax.similarAll_self (hN : ∀ a, N a a) :
    ∀ vs : List ValueSyntax, ValueSyntax.SimilarAll N vs vs
  | [] => .nil
  | v :: vs => .cons (similar_self hN v) (similarAll_self hN vs)

theorem ValueSyntax.similarArgs_self (hN : ∀ a, N a a) :
    ∀ as : List (DagArg ValueSyntax), ValueSyntax.SimilarArgs N as as
  | [] => .nil
  | ⟨_, some v⟩ :: as => .value (similar_self hN v) (similarArgs_self hN as)
  | ⟨_, none⟩ :: as => .none (similarArgs_self hN as)

end

variable (hN : ∀ a, N a a)
include hN

theorem LetSyntax.similar_self (l : LetSyntax) : l.Similar N l := ⟨rfl, l.value.similar_self hN⟩

theorem ParentSyntax.similar_self (q : ParentSyntax) : q.Similar N q :=
  ⟨rfl, ValueSyntax.similarAll_self hN q.args⟩

theorem ItemSyntax.similar_self : ∀ i : ItemSyntax, i.Similar N i
  | .field type _ value _ =>
    .field type.similar_self (optionRel_self (fun v => v.similar_self hN) value)
  | .override l => .override (l.similar_self hN)

end

theorem ParamSyntax.similarAll_self (xs : List String) :
    ∀ ps : List ParamSyntax, ParamSyntax.SimilarAll xs xs ps ps
  | [] => .nil
  | p :: ps =>
    .cons p.type.similar_self (optionRel_self (fun v => v.similar_self fun _ => .self rfl xs) p.default)
      Iff.rfl (similarAll_self (xs ++ [p.name]) ps)

theorem ClassSyntax.similar_self (c : ClassSyntax) : c.Similar c where
  name := rfl
  params := ParamSyntax.similarAll_self [] c.params
  parents := List.forall₂_same.2 fun q _ => q.similar_self fun _ => .self rfl _
  body := List.forall₂_same.2 fun i _ => i.similar_self fun _ => .self rfl _

theorem DefSyntax.similar_self (d : DefSyntax) : d.Similar d where
  name := rfl
  parents := List.forall₂_same.2 fun q _ => q.similar_self fun _ => rfl
  body := List.forall₂_same.2 fun i _ => i.similar_self fun _ => rfl

/-! ### Reading -/

section
variable {N : String → String → Prop} {seen : Nat → Prop} {declared : String → Bool}

theorem TypeSyntax.toTy_together {t t' : TypeSyntax} (h : t.Similar t') :
    Together Eq (t.toTy declared) (t'.toTy declared) := by
  induction h with
  | bit | int | string | code | dag => exact .ok rfl
  | bits width place place' =>
    rw [toTy, toTy]
    split
    · exact .ok rfl
    · exact .error _ _
  | list _ ih => exact ih.map fun _ _ h => congrArg _ h
  | named name place place' =>
    rw [toTy, toTy]
    split
    · exact .ok rfl
    · exact .error _ _

theorem stringText_together (body : List Char) (place place' : Location) :
    Together Eq (stringText body place) (stringText body place') := by
  unfold stringText
  cases unescape body with
  | ok cs => exact .ok rfl
  | error e => exact .error _ _

theorem integerValue_together (literal : IntLiteral) (place place' : Location) :
    Together Eq (integerValue literal place) (integerValue literal place') := by
  unfold integerValue
  cases literal.value? with
  | some number => exact .ok rfl
  | none => exact .error _ _

mutual

theorem ValueSyntax.toExpr_together : ∀ {v v' : ValueSyntax}, v.Similar N v' →
    Together (Expr.Similar N seen) (v.toExpr declared) (v'.toExpr declared)
  | .unset, _, .unset => .ok .unset
  | .boolean _, _, .boolean _ => .ok (.int _)
  | .integer literal _, _, .integer _ _ _ =>
    (integerValue_together literal _ _).map fun _ _ h => h ▸ .int _
  | .string body _, _, .string _ _ _ => (stringText_together body _ _).map fun _ _ h => h ▸ .string _
  | .code _, _, .code _ => .ok (.code _)
  | .reference _ _, _, .reference h => .ok (.reference h)
  | .bits _ _, _, .bits h => (ValueSyntax.toExprs_together h).bind fun _ _ h => .ok (.bits h)
  | .list _ _ _, _, .list h helement => by
    rw [ValueSyntax.toExpr, ValueSyntax.toExpr]
    refine (ValueSyntax.toExprs_together h).bind fun es es' hes => ?_
    cases helement with
    | none => exact .ok (.list hes)
    | some htype => exact (TypeSyntax.toTy_together htype).bind fun _ _ h => .ok (h ▸ .list hes)
  | .dag _ _ _ _, _, .dag ho h =>
    (ValueSyntax.toArgs_together h).bind fun _ _ h => .ok (.dag (.reference ho) h)
  | .bang operator _ _, _, .bang h => by
    rw [ValueSyntax.toExpr, ValueSyntax.toExpr]
    cases Bang.ofName? operator with
    | none => exact .error _ _
    | some op => exact (ValueSyntax.toExprs_together h).bind fun _ _ h => .ok (.bang h)

theorem ValueSyntax.toExprs_together : ∀ {vs vs' : List ValueSyntax}, ValueSyntax.SimilarAll N vs vs' →
    Together (Expr.SimilarAll N seen) (ValueSyntax.toExprs declared vs)
      (ValueSyntax.toExprs declared vs')
  | [], _, .nil => .ok .nil
  | _ :: _, _, .cons h hrest => (ValueSyntax.toExpr_together h).bind fun _ _ he =>
    (ValueSyntax.toExprs_together hrest).bind fun _ _ hes => .ok (.cons he hes)

theorem ValueSyntax.toArgs_together : ∀ {as as' : List (DagArg ValueSyntax)},
    ValueSyntax.SimilarArgs N as as' → Together (Expr.SimilarArgs N seen)
      (ValueSyntax.toArgs declared as) (ValueSyntax.toArgs declared as')
  | [], _, .nil => .ok .nil
  | ⟨_, some _⟩ :: _, _, .value h hrest => by
    rw [ValueSyntax.toArgs, ValueSyntax.toArgs]
    exact (ValueSyntax.toExpr_together h).bind fun _ _ he =>
      (ValueSyntax.toArgs_together hrest).bind fun _ _ has => .ok (.value he has)
  | ⟨_, .none⟩ :: _, _, .none hrest => by
    rw [ValueSyntax.toArgs, ValueSyntax.toArgs]
    exact (ValueSyntax.toArgs_together hrest).bind fun _ _ has => .ok (.none has)

end

variable (seen) in
theorem optionalExpr_together {v v' : Option ValueSyntax}
    (h : Option.Rel (ValueSyntax.Similar N) v v') :
    Together (Option.Rel (Expr.Similar N seen)) (optionalExpr declared v) (optionalExpr declared v') := by
  cases h with
  | none => exact .ok .none
  | some h => exact (ValueSyntax.toExpr_together h).map fun _ _ he => .some he

theorem LetSyntax.toOverride_together {l l' : LetSyntax} (h : l.Similar N l') :
    Together (Override.Similar N seen) (l.toOverride declared) (l'.toOverride declared) :=
  (ValueSyntax.toExpr_together h.value).bind fun _ _ he => .ok ⟨h.name, he⟩

variable (seen) in
theorem ParentSyntax.toParentRef_together {q q' : ParentSyntax} (h : q.Similar N q') :
    Together (ParentRef.Similar N seen) (q.toParentRef declared) (q'.toParentRef declared) :=
  (ValueSyntax.toExprs_together h.args).bind fun _ _ hes => .ok ⟨h.name, hes⟩

variable (seen) in
theorem ItemSyntax.toBodyItem_together {i i' : ItemSyntax} (h : i.Similar N i') :
    Together (BodyItem.Similar N seen) (i.toBodyItem declared) (i'.toBodyItem declared) := by
  cases h with
  | field htype h =>
    refine (TypeSyntax.toTy_together htype).bind fun type type' ht => ?_
    exact (optionalExpr_together seen h).bind fun _ _ hv => .ok (ht ▸ .field hv)
  | override h => exact (LetSyntax.toOverride_together h).map fun _ _ ho => .override ho

/-! ### Templates -/

/-- All names stand for themselves. -/
abbrev AllNames (_ : String) : Prop := True

theorem sameName_of_eq (a b : String) (h : a = b) : SameName AllNames a b := ⟨h, trivial⟩

theorem SimilarParams.concat {names : String → Prop} {xs ys : List String} {ps qs : List Param}
    (h : SimilarParams names seen xs ys ps qs) {p q : Param} (htype : p.type = q.type)
    (hdefault : Option.Rel (Expr.Similar (Corresponds (SameName names) (xs ++ ps.map Param.name)
      (ys ++ qs.map Param.name)) seen) p.default q.default) :
    SimilarParams names seen xs ys (ps ++ [p]) (qs ++ [q]) := by
  induction h with
  | nil =>
    rw [List.map_nil, List.append_nil, List.append_nil] at hdefault
    exact .cons htype hdefault .nil
  | cons htype' hdefault' _ ih =>
    rw [List.map_cons, List.map_cons, List.append_cons, List.append_cons _ _ (List.map _ _)] at hdefault
    exact .cons htype' hdefault' (ih hdefault)

theorem toParams_together {xs ys : List String} {ps qs : List ParamSyntax}
    (h : ParamSyntax.SimilarAll xs ys ps qs) {earlier earlier' : List Param}
    (hearlier : SimilarParams AllNames seen [] [] earlier earlier')
    (hxs : earlier.map Param.name = xs) (hys : earlier'.map Param.name = ys) :
    Together (SimilarParams AllNames seen [] []) (toParams declared earlier ps)
      (toParams declared earlier' qs) := by
  induction h generalizing earlier earlier' with
  | nil => exact .ok hearlier
  | @cons xs ys p q ps qs htype hdefault hnew _ ih =>
    rw [toParams, toParams]
    refine (TypeSyntax.toTy_together htype).bind fun type type' ht => ?_
    have hcorresponds : Option.Rel (ValueSyntax.Similar (Corresponds (SameName AllNames)
        (earlier.map Param.name) (earlier'.map Param.name))) p.default q.default := by
      rw [hxs, hys]
      exact optionRel_imp (fun _ _ h => h.imp fun _ _ hab => hab.imp sameName_of_eq) hdefault
    refine (optionalExpr_together seen hcorresponds).bind fun default default' hd => ?_
    have hany : (earlier.any (·.name = p.name) = true) ↔ (earlier'.any (·.name = q.name) = true) := by
      rw [← hxs, ← hys] at hnew
      simpa using hnew
    refine Together.throwIf hany fun _ => ih (hearlier.concat ht ?_) ?_ ?_
    · exact hd
    · rw [List.map_append, hxs]
      rfl
    · rw [List.map_append, hys]
      rfl

/-- Parents and bodies are read in one way for classes and defs. -/
theorem template_together {name : String} {params params' : List Param} {xs ys : List String}
    (hparams : SimilarParams AllNames seen [] [] params params') (hxs : params.map Param.name = xs)
    (hys : params'.map Param.name = ys) {qs qs' : List ParentSyntax}
    (hparents : List.Forall₂ (ParentSyntax.Similar (Corresponds Eq xs ys)) qs qs')
    {is is' : List ItemSyntax} (hbody : List.Forall₂ (ItemSyntax.Similar (Corresponds Eq xs ys)) is is')
    {lets lets' : List Override}
    (hlets : List.Forall₂ (Override.Similar (SameName AllNames) seen) lets lets') :
    Together (Template.Similar AllNames seen)
      (do
        let parents ← qs.mapM (·.toParentRef declared)
        let body ← is.mapM (·.toBodyItem declared)
        return (⟨name, params, parents, lets, body⟩ : Template))
      (do
        let parents ← qs'.mapM (·.toParentRef declared)
        let body ← is'.mapM (·.toBodyItem declared)
        return ⟨name, params', parents, lets', body⟩) := by
  subst hxs hys
  have hnames : ∀ a b, Corresponds Eq (params.map Param.name) (params'.map Param.name) a b →
      Corresponds (SameName AllNames) (params.map Param.name) (params'.map Param.name) a b :=
    fun _ _ h => h.imp sameName_of_eq
  refine (Together.mapM hparents fun _ _ h => ParentSyntax.toParentRef_together seen (h.imp hnames)).bind
    fun parents parents' hparents => ?_
  refine (Together.mapM hbody fun _ _ h => ItemSyntax.toBodyItem_together seen (h.imp hnames)).bind
    fun body body' hbody => ?_
  exact .ok ⟨rfl, hparams, hparents, hlets, hbody⟩

theorem ClassSyntax.toTemplate_together {c c' : ClassSyntax} (h : c.Similar c')
    {lets lets' : List Override}
    (hlets : List.Forall₂ (Override.Similar (SameName AllNames) seen) lets lets') :
    Together (Template.Similar AllNames seen) (c.toTemplate declared lets)
      (c'.toTemplate declared lets') := by
  have hparams : Together (fun params params' => SimilarParams AllNames seen [] [] params params' ∧
      params.map Param.name = c.paramNames ∧ params'.map Param.name = c'.paramNames)
      (toParams declared [] c.params) (toParams declared [] c'.params) :=
    (toParams_together h.params .nil rfl rfl).imp fun params params' hok hok' hsimilar =>
      ⟨hsimilar, names_of_toParams hok, names_of_toParams hok'⟩
  unfold toTemplate
  rw [← h.name]
  exact hparams.bind fun params params' ⟨hsimilar, hxs, hys⟩ =>
    template_together hsimilar hxs hys h.parents h.body hlets

theorem DefSyntax.toTemplate_together {d d' : DefSyntax} (h : d.Similar d') (name : String)
    {lets lets' : List Override}
    (hlets : List.Forall₂ (Override.Similar (SameName AllNames) seen) lets lets') :
    Together (fun t u => t.Similar AllNames seen u ∧ t.params = []) (d.toTemplate declared lets name)
      (d'.toTemplate declared lets' name) :=
  (template_together .nil rfl rfl (h.parents.imp fun _ _ h => h.imp fun _ _ => .free)
    (h.body.imp fun _ _ h => h.imp fun _ _ => .free) hlets).imp
      fun _ _ ht _ htu => ⟨htu, params_toTemplate ht⟩

end
end TypedRecords
