import TypedRecords.Proofs.Include.Splice
import TypedRecords.Proofs.Scope.Enclosed
import TypedRecords.Proofs.Draft.Items

/-!
# Lets moved into bodies

The lets around a declaration apply between its parents and its body, and nothing separates them from
the body's own items but that they do not see template parameters. So where no let that encloses a
class mentions a parameter of the class, all lets can be written in front of the bodies instead
(`Progress.Runs.lowered`).
-/

namespace TypedRecords

/-! ### Names in written values -/

namespace ValueSyntax

mutual

/-- The name stands in the written value, as a value or as the operator of a dag. -/
def mentions (name : String) : ValueSyntax → Bool
  | reference other _ => other = name
  | bits items _ | list items _ _ | bang _ items _ => mentionsAny name items
  | dag operator _ args _ => operator = name || mentionsArgs name args
  | unset | boolean _ | integer .. | string .. | code _ => false

def mentionsAny (name : String) : List ValueSyntax → Bool
  | [] => false
  | v :: vs => v.mentions name || mentionsAny name vs

def mentionsArgs (name : String) : List (DagArg ValueSyntax) → Bool
  | [] => false
  | ⟨_, some v⟩ :: args => v.mentions name || mentionsArgs name args
  | ⟨_, none⟩ :: args => mentionsArgs name args

end

end ValueSyntax

theorem Bindings.find?_eq_none {bs : Bindings} {name : String} :
    bs.find? name = none ↔ ∀ b ∈ bs, b.name ≠ name := by
  simp [Bindings.find?]

theorem Expr.substitute_reference {bs : Bindings} {name : String} (h : ∀ b ∈ bs, b.name ≠ name)
    (place : Location) : (Expr.reference name place).substitute bs = .reference name place := by
  rw [Expr.substitute, Bindings.find?_eq_none.2 h]

namespace ValueSyntax
variable {declared : String → Bool} {bs : Bindings}

mutual

/-- Bindings of names that a written value does not mention leave its expression as it is. -/
theorem substitute_toExpr : ∀ (v : ValueSyntax) {e : Expr}, (∀ b ∈ bs, v.mentions b.name = false) →
    v.toExpr declared = .ok e → e.substitute bs = e
  | .unset, _, _, h | .boolean _, _, _, h | .code _, _, _, h => by
    obtain rfl := Except.ok.inj h
    rw [Expr.substitute]
  | .integer literal place, _, _, h => by
    obtain ⟨number, -, rfl⟩ := map_eq_ok.1 h
    rw [Expr.substitute]
  | .string body place, _, _, h => by
    obtain ⟨text, -, rfl⟩ := map_eq_ok.1 h
    rw [Expr.substitute]
  | .reference name place, _, hbs, h => by
    obtain rfl := Except.ok.inj h
    refine Expr.substitute_reference (fun b hb hname => ?_) place
    have hb := hbs b hb
    rw [mentions] at hb
    exact of_decide_eq_false hb hname.symm
  | .bits items place, _, hbs, h => by
    simp only [mentions] at hbs
    obtain ⟨es, hes, h⟩ := bind_eq_ok.1 h
    obtain rfl := pure_eq_ok.1 h
    rw [Expr.substitute, substituteAll_toExprs items hbs hes]
  | .list items element place, _, hbs, h => by
    simp only [mentions] at hbs
    rw [toExpr] at h
    obtain ⟨es, hes, h⟩ := bind_eq_ok.1 h
    cases element with
    | none =>
      obtain rfl := pure_eq_ok.1 h
      rw [Expr.substitute, substituteAll_toExprs items hbs hes]
    | some type =>
      obtain ⟨ty, -, h⟩ := bind_eq_ok.1 h
      obtain rfl := pure_eq_ok.1 h
      rw [Expr.substitute, substituteAll_toExprs items hbs hes]
  | .dag operator operatorPlace args place, _, hbs, h => by
    simp only [mentions, Bool.or_eq_false_iff, decide_eq_false_iff_not] at hbs
    obtain ⟨as, has, h⟩ := bind_eq_ok.1 h
    obtain rfl := pure_eq_ok.1 h
    rw [Expr.substitute, Expr.substitute_reference fun b hb hname => (hbs b hb).1 hname.symm,
      substituteArgs_toArgs args (fun b hb => (hbs b hb).2) has]
  | .bang operator args place, _, hbs, h => by
    simp only [mentions] at hbs
    rw [toExpr] at h
    cases hop : Bang.ofName? operator with
    | none =>
      rw [hop] at h
      cases h
    | some op =>
      rw [hop] at h
      obtain ⟨es, hes, h⟩ := bind_eq_ok.1 h
      obtain rfl := pure_eq_ok.1 h
      rw [Expr.substitute, substituteAll_toExprs args hbs hes]

theorem substituteAll_toExprs : ∀ (vs : List ValueSyntax) {es : List Expr},
    (∀ b ∈ bs, mentionsAny b.name vs = false) → toExprs declared vs = .ok es →
      Expr.substituteAll bs es = es
  | [], _, _, h => by
    obtain rfl := Except.ok.inj h
    rw [Expr.substituteAll]
  | v :: vs, _, hbs, h => by
    simp only [mentionsAny, Bool.or_eq_false_iff] at hbs
    obtain ⟨e, he, h⟩ := bind_eq_ok.1 h
    obtain ⟨es, hes, h⟩ := bind_eq_ok.1 h
    obtain rfl := pure_eq_ok.1 h
    rw [Expr.substituteAll, substitute_toExpr v (fun b hb => (hbs b hb).1) he,
      substituteAll_toExprs vs (fun b hb => (hbs b hb).2) hes]

theorem substituteArgs_toArgs : ∀ (args : List (DagArg ValueSyntax)) {as : List (DagArg Expr)},
    (∀ b ∈ bs, mentionsArgs b.name args = false) → toArgs declared args = .ok as →
      Expr.substituteArgs bs as = as
  | [], _, _, h => by
    obtain rfl := Except.ok.inj h
    rw [Expr.substituteArgs]
  | ⟨name, some v⟩ :: args, _, hbs, h => by
    simp only [mentionsArgs, Bool.or_eq_false_iff] at hbs
    rw [toArgs] at h
    obtain ⟨e, he, h⟩ := bind_eq_ok.1 h
    obtain ⟨as, has, h⟩ := bind_eq_ok.1 h
    obtain rfl := pure_eq_ok.1 h
    rw [Expr.substituteArgs, substitute_toExpr v (fun b hb => (hbs b hb).1) he,
      substituteArgs_toArgs args (fun b hb => (hbs b hb).2) has]
  | ⟨name, none⟩ :: args, _, hbs, h => by
    simp only [mentionsArgs] at hbs
    rw [toArgs] at h
    obtain ⟨as, has, h⟩ := bind_eq_ok.1 h
    obtain rfl := pure_eq_ok.1 h
    rw [Expr.substituteArgs, substituteArgs_toArgs args hbs has]

end

end ValueSyntax

/-! ### Names of parameters -/

theorem names_of_bindParams {db : Database} {className : String} {place : Location}
    {missing : Missing} {bound bs : Bindings} {ps : List Param} {args : List (Option Value)}
    (h : bindParams db className place missing bound ps args = .ok bs) :
    bs.map Binding.name = bound.map Binding.name ++ ps.map Param.name := by
  induction ps generalizing bound args with
  | nil => rw [← Except.ok.inj h, List.map_nil, List.append_nil]
  | cons p ps ih =>
    obtain ⟨raw, -, h⟩ := bind_eq_ok.1 h
    obtain ⟨v, -, h⟩ := bind_eq_ok.1 h
    rw [ih h, List.map_append, List.append_assoc]
    rfl

theorem Template.names_of_bind {db : Database} {t : Template} {args : List (Option Value)}
    {place : Location} {missing : Missing} {bs : Bindings} (h : t.bind db args place missing = .ok bs) :
    bs.map Binding.name = t.params.map Param.name := by
  obtain ⟨-, h⟩ := bind_eq_ok_iff.1 h
  exact names_of_bindParams h

theorem names_of_toParams {declared : String → Bool} {earlier params : List Param}
    {ps : List ParamSyntax} (h : toParams declared earlier ps = .ok params) :
    params.map Param.name = earlier.map Param.name ++ ps.map ParamSyntax.name := by
  induction ps generalizing earlier with
  | nil => rw [← Except.ok.inj h, List.map_nil, List.append_nil]
  | cons p ps ih =>
    rw [toParams] at h
    obtain ⟨type, -, h⟩ := bind_eq_ok.1 h
    obtain ⟨default, -, h⟩ := bind_eq_ok.1 h
    obtain ⟨-, h⟩ := throwIf_bind_eq_ok.1 h
    rw [ih h, List.map_append, List.append_assoc]
    rfl

/-! ### Templates that say the same -/

/-- The templates build the same drafts: they differ at most in which of their items are lets. -/
structure Template.Alike (t u : Template) : Prop where
  name : t.name = u.name
  params : t.params = u.params
  parents : t.parents = u.parents
  items : ∀ bs : Bindings, bs.map Binding.name = t.params.map Param.name → t.items bs = u.items bs

namespace Template.Alike
variable {t u : Template}

theorem bind (h : t.Alike u) (db : Database) (args : List (Option Value)) (place : Location)
    (missing : Missing) : t.bind db args place missing = u.bind db args place missing := by
  unfold Template.bind
  rw [h.name, h.params]

theorem directSuperclasses (h : t.Alike u) : t.directSuperclasses = u.directSuperclasses := by
  unfold Template.directSuperclasses
  rw [h.parents]

theorem applyOwn (h : t.Alike u) {bs : Bindings}
    (hbs : bs.map Binding.name = t.params.map Param.name) (d : Draft) :
    d.applyOwn t bs = d.applyOwn u bs := by
  rw [Draft.applyOwn_eq, Draft.applyOwn_eq, h.items bs hbs]

end Template.Alike

section
variable {db : Database} {ts us : List Template}

theorem Draft.inherit_alike (h : List.Forall₂ Template.Alike ts us) (d : Draft) (parent : ParentRef)
    (outer : Bindings) : d.inherit db ts parent outer = d.inherit db us parent outer := by
  induction h generalizing d parent outer with
  | nil => rfl
  | @cons t u ts us htu _ ih =>
    unfold inherit
    rw [htu.name]
    split
    · rw [htu.params]
      refine bind_congr fun args => ?_
      rw [← htu.bind]
      refine bind_congr_ok fun bs hbs => ?_
      cases d.instantiation? u.name with
      | some previous => rfl
      | none =>
        simp only [htu.parents, ih, htu.applyOwn (Template.names_of_bind hbs)]
    · exact ih d parent outer

theorem Draft.ofTemplate_alike (h : List.Forall₂ Template.Alike ts us) {t u : Template}
    (htu : t.Alike u) {bs : Bindings} (hbs : bs.map Binding.name = t.params.map Param.name) :
    Draft.ofTemplate db ts t bs = Draft.ofTemplate db us u bs := by
  unfold ofTemplate
  simp only [inherit_alike h, htu.parents, htu.applyOwn hbs]

end

/-! ### Declarations without lets -/

namespace Declaration

/-- The declaration with bindings in front of the items of its own body. -/
def prepend (ls : List LetSyntax) : Declaration → Declaration
  | classDecl c => .classDecl { c with body := ls.map .override ++ c.body }
  | defDecl d => .defDecl { d with body := ls.map .override ++ d.body }

def statement : Declaration → Statement
  | classDecl c => .classDecl c
  | defDecl d => .defDecl d

end Declaration

namespace Enclosed

/-- The declaration with the lets around it moved to the front of its body. -/
def lowered (e : Enclosed) : Statement := (e.decl.prepend e.lets).statement

/-- No let around a class mentions a template parameter of the class. -/
def Separate (e : Enclosed) : Prop :=
  match e.decl with
  | .classDecl c => ∀ l ∈ e.lets, ∀ p ∈ c.params, l.value.mentions p.name = false
  | .defDecl _ => True

instance : DecidablePred Separate
  | ⟨ls, .classDecl c⟩ => inferInstanceAs
    (Decidable (∀ l ∈ ls, ∀ p ∈ c.params, l.value.mentions p.name = false))
  | ⟨_, .defDecl _⟩ => inferInstanceAs (Decidable True)

end Enclosed

section
variable {declared : String → Bool} {ls : List LetSyntax} {lets : List Override}

/-- Lets that mention no parameter are the same when the parameters are bound. -/
theorem Template.Alike.of_lets (hlets : ls.mapM (·.toOverride declared) = .ok lets) {name : String}
    {params : List Param} {parents : List ParentRef} {body : List BodyItem}
    (hseparate : ∀ l ∈ ls, ∀ name ∈ params.map Param.name, l.value.mentions name = false) :
    Template.Alike ⟨name, params, parents, lets, body⟩
      ⟨name, params, parents, [], lets.map .override ++ body⟩ := by
  refine ⟨rfl, rfl, rfl, fun bs hbs => ?_⟩
  have hsame : (lets.map BodyItem.override).map (·.substitute bs) = lets.map .override := by
    rw [List.map_map]
    refine List.map_congr_left fun o ho => ?_
    obtain ⟨l, hl, hlo⟩ := mem_of_mapM_eq_ok hlets o ho
    obtain ⟨e, he, hlo⟩ := bind_eq_ok.1 hlo
    obtain rfl := pure_eq_ok.1 hlo
    refine congrArg (fun value => BodyItem.override ⟨l.name, value, l.place⟩) ?_
    refine ValueSyntax.substitute_toExpr l.value (fun b hb => ?_) he
    exact hseparate l hl b.name (hbs ▸ List.mem_map_of_mem hb)
  rw [Template.items, Template.items, List.map_append, hsame]
  rfl

theorem mapM_toBodyItem_prepend (hlets : ls.mapM (·.toOverride declared) = .ok lets)
    {items : List ItemSyntax} {body : List BodyItem}
    (hbody : items.mapM (·.toBodyItem declared) = .ok body) :
    (ls.map ItemSyntax.override ++ items).mapM (·.toBodyItem declared) =
      .ok (lets.map BodyItem.override ++ body) := by
  refine mapM_append_eq_ok.2 ⟨_, _, mapM_eq_ok.2 ?_, hbody, rfl⟩
  refine List.forall₂_map_left_iff.2 (List.forall₂_map_right_iff.2 ?_)
  exact (mapM_eq_ok.1 hlets).imp fun l o hl => map_eq_ok.2 ⟨o, hl, rfl⟩

theorem ClassSyntax.toTemplate_prepend (hlets : ls.mapM (·.toOverride declared) = .ok lets)
    {c : ClassSyntax} (hseparate : ∀ l ∈ ls, ∀ p ∈ c.params, l.value.mentions p.name = false)
    {t : Template} (h : c.toTemplate declared lets = .ok t) :
    ∃ u, ClassSyntax.toTemplate declared [] { c with body := ls.map .override ++ c.body } = .ok u ∧
      t.Alike u := by
  obtain ⟨params, hparams, h⟩ := bind_eq_ok.1 h
  obtain ⟨parents, hparents, h⟩ := bind_eq_ok.1 h
  obtain ⟨body, hbody, h⟩ := bind_eq_ok.1 h
  obtain rfl := pure_eq_ok.1 h
  refine ⟨_, bind_eq_ok.2 ⟨params, hparams, bind_eq_ok.2 ⟨parents, hparents, bind_eq_ok.2
    ⟨_, mapM_toBodyItem_prepend hlets hbody, rfl⟩⟩⟩, .of_lets hlets fun l hl name hname => ?_⟩
  rw [names_of_toParams hparams] at hname
  obtain ⟨p, hp, rfl⟩ := List.mem_map.1 hname
  exact hseparate l hl p hp

theorem DefSyntax.toTemplate_prepend (hlets : ls.mapM (·.toOverride declared) = .ok lets)
    {d : DefSyntax} {name : String} {t : Template} (h : d.toTemplate declared lets name = .ok t) :
    ∃ u, DefSyntax.toTemplate declared [] name { d with body := ls.map .override ++ d.body } = .ok u ∧
      t.Alike u := by
  obtain ⟨parents, hparents, h⟩ := bind_eq_ok.1 h
  obtain ⟨body, hbody, h⟩ := bind_eq_ok.1 h
  obtain rfl := pure_eq_ok.1 h
  exact ⟨_, bind_eq_ok.2 ⟨parents, hparents, bind_eq_ok.2
    ⟨_, mapM_toBodyItem_prepend hlets hbody, rfl⟩⟩, .of_lets hlets nofun⟩

theorem DefSyntax.params_toTemplate {d : DefSyntax} {lets : List Override} {name : String}
    {t : Template} (h : d.toTemplate declared lets name = .ok t) : t.params = [] := by
  obtain ⟨parents, -, h⟩ := bind_eq_ok.1 h
  obtain ⟨body, -, h⟩ := bind_eq_ok.1 h
  rw [← pure_eq_ok.1 h]

end

/-! ### Runs -/

namespace Progress

theorem declared_congr {p q : Progress}
    (h : List.Forall₂ (fun t u => t.name = u.name) p.templates q.templates) :
    p.declared = q.declared := by
  have hnames : p.templates.map Template.name = q.templates.map Template.name :=
    List.forall₂_eq_eq_eq ▸ List.forall₂_map_left_iff.2 (List.forall₂_map_right_iff.2 h)
  funext name
  rw [Bool.eq_iff_iff, declared_iff, declared_iff, hnames]

theorem DefStep.params {p p' : Progress} {lets : List Override} {s : DefSyntax} {t : Template}
    {d : Draft} {r : Record} (h : p.DefStep lets s p' t d r) : t.params = [] :=
  DefSyntax.params_toTemplate h.template

/-- The same records have been kept, and templates that say the same. -/
structure Alike (p q : Progress) : Prop where
  db : p.db = q.db
  templates : List.Forall₂ Template.Alike p.templates q.templates
  anonymous : p.anonymous = q.anonymous

namespace Alike
variable {p p' q : Progress}

theorem declared (h : p.Alike q) : p.declared = q.declared :=
  declared_congr (h.templates.imp fun _ _ => Template.Alike.name)

theorem anonymousName (h : p.Alike q) : p.anonymousName = q.anonymousName := by
  unfold Progress.anonymousName
  rw [h.anonymous]

theorem addClass (h : p.Alike q) {ls : List LetSyntax} {lets : List Override}
    (hlets : ls.mapM (·.toOverride p.declared) = .ok lets) {c : ClassSyntax}
    (hseparate : ∀ l ∈ ls, ∀ s ∈ c.params, l.value.mentions s.name = false)
    (hadd : p.addClass lets c = .ok p') :
    ∃ q', q.addClass [] { c with body := ls.map .override ++ c.body } = .ok q' ∧ p'.Alike q' := by
  obtain ⟨t, bs, d, r, hstep⟩ := addClass_eq_ok hadd
  -- in its own body the class counts as declared, around it it does not
  have hdeclared : ∀ name, p.declared name = true → (name = c.name || p.declared name) = true :=
    fun name hname => Bool.or_eq_true_iff.2 (.inr hname)
  obtain ⟨u, hu, htu⟩ :=
    ClassSyntax.toTemplate_prepend (mapM_toOverride_mono hdeclared hlets) hseparate hstep.template
  let q' : Progress := { q with
    db := { q.db with classes := (q.db.classes.keep r).table }
    templates := u :: q.templates }
  have hbs : u.bind q.db [] c.place .unset = .ok bs := by
    rw [← h.db, ← htu.bind]
    exact hstep.bindings
  have hd : Draft.ofTemplate q.db q.templates u bs = .ok d := by
    rw [← h.db, ← Draft.ofTemplate_alike h.templates htu (Template.names_of_bind hstep.bindings)]
    exact hstep.draft
  have hr : d.finish q.db c.name false true u.directSuperclasses = .ok r := by
    rw [← h.db, ← htu.directSuperclasses]
    exact hstep.record
  have hstep' : q.ClassStep [] { c with body := ls.map .override ++ c.body } q' u bs d r :=
    ⟨h.declared ▸ hstep.undeclared, h.declared ▸ hu, hbs, hd, hr, rfl, rfl, rfl⟩
  exact ⟨q', hstep'.addClass, hstep.db.trans (by rw [h.db]),
    hstep.templates ▸ .cons htu h.templates, hstep.anonymous.trans h.anonymous⟩

theorem addDef (h : p.Alike q) {ls : List LetSyntax} {lets : List Override}
    (hlets : ls.mapM (·.toOverride p.declared) = .ok lets) {s : DefSyntax}
    (hadd : p.addDef lets s = .ok p') :
    ∃ q', q.addDef [] { s with body := ls.map .override ++ s.body } = .ok q' ∧ p'.Alike q' := by
  obtain ⟨t, d, r, hstep⟩ := addDef_eq_ok hadd
  obtain ⟨u, hu, htu⟩ := DefSyntax.toTemplate_prepend hlets hstep.template
  let q' : Progress := { q with
    db := { q.db with defs := (q.db.defs.keep r).table }
    anonymous := if s.name.isNone then q.anonymous + 1 else q.anonymous }
  have hundefined : q.db.defs.contains (s.name.getD q.anonymousName) = false := by
    rw [← h.db, ← h.anonymousName]
    exact hstep.undefined
  have hd : Draft.ofTemplate q.db q.templates u [] = .ok d := by
    rw [← h.db, ← Draft.ofTemplate_alike h.templates htu (hstep.params ▸ rfl)]
    exact hstep.draft
  have hr : d.finish q.db (s.name.getD q.anonymousName) s.name.isNone false u.directSuperclasses =
      .ok r := by
    rw [← h.db, ← h.anonymousName, ← htu.directSuperclasses]
    exact hstep.record
  have hstep' : q.DefStep [] { s with body := ls.map .override ++ s.body } q' u d r :=
    ⟨h.declared ▸ h.anonymousName ▸ hu, hundefined, hd, hr, rfl, rfl, rfl⟩
  exact ⟨q', hstep'.addDef, hstep.db.trans (by rw [h.db]), hstep.templates ▸ h.templates,
    hstep.anonymous.trans (by rw [h.anonymous])⟩

/-- A declaration under lets and the one that has them in its body add the same record. -/
theorem add (h : p.Alike q) {e : Enclosed} {lets : List Override}
    (hlets : e.lets.mapM (·.toOverride p.declared) = .ok lets) (hseparate : e.Separate)
    (hadd : p.add lets e.decl = .ok p') :
    ∃ q', (∀ enter : Entering, q.run enter [] e.lowered = .ok q') ∧ p'.Alike q' := by
  obtain ⟨ls, c | d⟩ := e
  · obtain ⟨q', hq', halike⟩ := h.addClass hlets hseparate hadd
    exact ⟨q', fun _ => hq', halike⟩
  · obtain ⟨q', hq', halike⟩ := h.addDef hlets hadd
    exact ⟨q', fun _ => hq', halike⟩

end Alike

/-- Declarations that run under lets run as well with the lets moved into their bodies, and leave the
same records. -/
theorem Runs.lowered {p p' q : Progress} {es : List Enclosed} (h : Runs p es p') (hpq : p.Alike q)
    (hseparate : ∀ e ∈ es, e.Separate) :
    ∃ q', q.Leaves [] (es.map Enclosed.lowered) q' ∧ p'.Alike q' := by
  induction h generalizing q with
  | nil p => exact ⟨q, fun _ => rfl, hpq⟩
  | cons hlets hadd _ ih =>
    obtain ⟨hfirst, hrest⟩ := List.forall_mem_cons.1 hseparate
    obtain ⟨q₁, hq₁, hpq₁⟩ := hpq.add hlets hfirst hadd
    obtain ⟨q', hq', halike⟩ := ih hpq₁ hrest
    exact ⟨q', Leaves.append (.single hq₁) hq', halike⟩

end Progress
end TypedRecords
