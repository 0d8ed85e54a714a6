import TypedRecords.Proofs.Scope.Lowered
import TypedRecords.Proofs.Eval.Simulation
import TypedRecords.Proofs.Superclass.Exact

/-!
# How far a let reaches

Declarations that are run twice, under lets that differ for some of them, leave records that differ at
most where the lets around the declaration differ, or around that of a class that the record derives
from (`Progress.Runs.untouched`). For a record derives from the same classes in both runs, and that is
all that others see of it.
-/

namespace TypedRecords

/-! ### Databases whose defs have one outline -/

theorem Database.outline_eq {db db' : Database} : db.outline = db'.outline ↔
    ∀ side, (db.table side).records.map Record.outline =
      (db'.table side).records.map Record.outline := by
  refine ⟨fun h side => ?_, fun h => ?_⟩
  · cases side with
    | classes => exact congrArg (fun db => db.classes.records) h
    | defs => exact congrArg (fun db => db.defs.records) h
  · exact congrArg₂ mk (RecordTable.ext (h .classes)) (RecordTable.ext (h .defs))

/-- Evaluations that are the same. -/
def Simulation.same (σ : Type) : Simulation σ σ where
  rel x y := x = y
  pure _ := rfl
  throw _ := rfl
  bind h h' := h ▸ bind_congr h'

section
variable {db db' : Database} (hdb : db.defs.outline = db'.defs.outline)
include hdb

theorem assign_congr (target : Target) (type : Ty) (place : Location) (v : Option Value) :
    assign db.store target type place v = assign db'.store target type place v := by
  rw [← assign_outline, Database.store_congr hdb, assign_outline]

theorem evaluateClosed_congr (e : Expr) (expected : Option Ty) :
    evaluateClosed db e expected = evaluateClosed db' e expected := by
  have hscopes : (Simulation.same Unit).Scopes (.closed db) (.closed db') :=
    ⟨hdb, fun _ => .inl ⟨rfl, rfl⟩⟩
  have heval : evaluate (.closed db) e expected = evaluate (.closed db') e expected :=
    (Simulation.same Unit).evaluate hscopes e expected
  unfold evaluateClosed
  rw [heval]

theorem evaluateWritten_congr (outer : Bindings) (ps : List Param) (es : List Expr) :
    evaluateWritten db outer ps es = evaluateWritten db' outer ps es := by
  induction es generalizing ps with
  | nil => rfl
  | cons e es ih => simp only [evaluateWritten, evaluateClosed_congr hdb, ih]

theorem bindParams_congr (className : String) (place : Location) (missing : Missing)
    (bound : Bindings) (ps : List Param) (args : List (Option Value)) :
    bindParams db className place missing bound ps args =
      bindParams db' className place missing bound ps args := by
  induction ps generalizing bound args with
  | nil => rfl
  | cons p ps ih =>
    simp only [bindParams, paramValue, evaluateClosed_congr hdb, assign_congr hdb, ih]

theorem Template.bind_congr (t : Template) (args : List (Option Value)) (place : Location)
    (missing : Missing) : t.bind db args place missing = t.bind db' args place missing := by
  unfold bind
  rw [bindParams_congr hdb]

namespace Draft

theorem resolve_congr (d : Draft) (depth : Nat) (path : List String) (f : DraftField) :
    d.resolve db depth path f = d.resolve db' depth path f := by
  induction depth generalizing path f with
  | zero => rfl
  | succ depth ih =>
    have hvalue : d.fieldValue db (d.resolve db depth (f.name :: path)) f =
        d.fieldValue db' (d.resolve db' depth (f.name :: path)) f :=
      fieldValue_rel (.same Memo) d hdb (fun g _ => ih (f.name :: path) g) f
    unfold resolve
    rw [hvalue]

theorem finish_congr (d : Draft) (name : String) (anonymous isClass : Bool) (direct : List String) :
    d.finish db name anonymous isClass direct = d.finish db' name anonymous isClass direct := by
  have hall : ∀ fs, d.resolveAll db fs = d.resolveAll db' fs := by
    intro fs
    induction fs with
    | nil => rfl
    | cons f fs ih => simp only [resolveAll, resolve_congr hdb, ih]
  simp only [finish, finishIn, values, hall]

end Draft

end

/-! ### Templates that differ in lets -/

/-- The templates are the same, but for the lets of classes that `changed` holds of. -/
structure Template.Varies (changed : String → Prop) (t u : Template) : Prop where
  name : t.name = u.name
  params : t.params = u.params
  parents : t.parents = u.parents
  body : t.body = u.body
  lets : ¬changed t.name → t.lets = u.lets

theorem Template.Varies.bind {changed : String → Prop} {t u : Template} (h : t.Varies changed u)
    {db db' : Database} (hdb : db.defs.outline = db'.defs.outline) (args : List (Option Value))
    (place : Location) (missing : Missing) :
    t.bind db args place missing = u.bind db' args place missing := by
  rw [t.bind_congr hdb]
  unfold Template.bind
  rw [h.name, h.params]

namespace Draft

/-- The drafts are the same, but for the fields where a class that `changed` holds of was applied. -/
structure Varies (changed : String → Prop) (d d' : Draft) : Prop where
  superclasses : d.superclasses = d'.superclasses
  instantiations : d.instantiations = d'.instantiations
  fields : (∀ name ∈ d.superclasses, ¬changed name) → d.fields = d'.fields

theorem eq_of_fields {d d' : Draft} (hf : d.fields = d'.fields)
    (hs : d.superclasses = d'.superclasses) (hi : d.instantiations = d'.instantiations) : d = d' := by
  cases d
  cases d'
  congr

section
variable {changed : String → Prop} {db db' : Database} {d d' d₁ d₁' : Draft}

theorem Varies.eq (h : d.Varies changed d') (hnone : ∀ name ∈ d.superclasses, ¬changed name) :
    d = d' :=
  eq_of_fields (h.fields hnone) h.superclasses h.instantiations

theorem Varies.foldlM {α : Type} {f f' : Draft → α → Except ParseError Draft} {as : List α}
    (hd : d.Varies changed d') (h : as.foldlM f d = .ok d₁) (h' : as.foldlM f' d' = .ok d₁')
    (hstep : ∀ (a : α) (d d' d₁ d₁' : Draft), d.Varies changed d' → f d a = .ok d₁ →
      f' d' a = .ok d₁' → d₁.Varies changed d₁') : d₁.Varies changed d₁' := by
  induction as generalizing d d' with
  | nil => exact foldlM_nil_eq_ok.1 h ▸ foldlM_nil_eq_ok.1 h' ▸ hd
  | cons a as ih =>
    obtain ⟨d₂, ha, h⟩ := foldlM_cons_eq_ok.1 h
    obtain ⟨d₂', ha', h'⟩ := foldlM_cons_eq_ok.1 h'
    exact ih (hstep a d d' d₂ d₂' hd ha ha') h h'

/-- What a template says itself, applied to two drafts. -/
theorem Varies.applyOwn (h : d.Varies changed d') {t u : Template} (hbody : t.body = u.body)
    {bs : Bindings} (ht : d.applyOwn t bs = .ok d₁) (hu : d'.applyOwn u bs = .ok d₁') :
    d₁.superclasses = d₁'.superclasses ∧ d₁.instantiations = d₁'.instantiations ∧
      ((∀ name ∈ d₁.superclasses, ¬changed name) → t.lets = u.lets → d₁ = d₁') := by
  obtain ⟨hs, hi⟩ := foldlM_execute_instances (applyOwn_eq t bs d ▸ ht)
  obtain ⟨hs', hi'⟩ := foldlM_execute_instances (applyOwn_eq u bs d' ▸ hu)
  refine ⟨hs.trans (h.superclasses.trans hs'.symm), hi.trans (h.instantiations.trans hi'.symm),
    fun hnone hlets => ?_⟩
  have hsame : d.applyOwn t bs = d'.applyOwn u bs := by
    rw [Draft.applyOwn, Draft.applyOwn, hlets, hbody, h.eq (hs ▸ hnone)]
  exact Except.ok.inj (ht.symm.trans (hsame.trans hu))

theorem subset_addInstance (d : Draft) (name : String) (bs : Bindings) :
    name ∈ (d.addInstance name bs).superclasses ∧
      d.superclasses ⊆ (d.addInstance name bs).superclasses := by
  unfold addInstance addSuperclass
  split
  · rename_i h
    exact ⟨List.contains_iff_mem.1 h, List.Subset.refl _⟩
  · exact ⟨by simp, List.subset_append_left ..⟩

theorem superclasses_addInstance (hs : d.superclasses = d'.superclasses) (name : String)
    (bs : Bindings) :
    (d.addInstance name bs).superclasses = (d'.addInstance name bs).superclasses := by
  unfold addInstance addSuperclass
  rw [hs]
  split
  · exact hs
  · rfl

theorem inherit_varies {ts us : List Template} (hts : List.Forall₂ (Template.Varies changed) ts us)
    (hdb : db.defs.outline = db'.defs.outline) {parent : ParentRef} {outer : Bindings}
    (hd : d.Varies changed d') (h : d.inherit db ts parent outer = .ok d₁)
    (h' : d'.inherit db' us parent outer = .ok d₁') : d₁.Varies changed d₁' := by
  induction hts generalizing d d' d₁ d₁' parent outer with
  | nil => cases h
  | @cons t u ts us htu _ ih =>
    rw [inherit] at h h'
    rw [← htu.name] at h'
    by_cases hname : t.name = parent.name
    · rw [if_pos hname] at h h'
      obtain ⟨args, hargs, h⟩ := bind_eq_ok.1 h
      obtain ⟨bs, hbs, h⟩ := bind_eq_ok.1 h
      rw [← evaluateWritten_congr hdb, ← htu.params, bind_of_ok hargs, ← htu.bind hdb,
        bind_of_ok hbs] at h'
      have hinst : d'.instantiation? t.name = d.instantiation? t.name :=
        congrArg (List.lookup t.name) hd.instantiations.symm
      rw [hinst] at h'
      cases hprevious : d.instantiation? t.name with
      | some previous =>
        rw [hprevious] at h h'
        dsimp only at h h'
        by_cases hsame : previous = bs
        · rw [if_pos hsame] at h h'
          exact pure_eq_ok.1 h ▸ pure_eq_ok.1 h' ▸ hd
        · rw [if_neg hsame] at h
          cases h
      | none =>
        rw [hprevious] at h h'
        obtain ⟨d₂, hparents, h⟩ := bind_eq_ok.1 h
        obtain ⟨d₃, hown, h⟩ := bind_eq_ok.1 h
        obtain ⟨d₂', hparents', h'⟩ := bind_eq_ok.1 h'
        obtain ⟨d₃', hown', h'⟩ := bind_eq_ok.1 h'
        have h₂ : d₂.Varies changed d₂' := by
          rw [← htu.parents] at hparents'
          exact hd.foldlM hparents hparents' fun _ _ _ _ _ => ih
        obtain ⟨hs, hi, heq⟩ := h₂.applyOwn htu.body hown hown'
        obtain rfl := pure_eq_ok.1 h
        obtain rfl := pure_eq_ok.1 h'
        obtain ⟨hmem, hsub⟩ := d₃.subset_addInstance t.name bs
        refine ⟨superclasses_addInstance hs .., congrArg ((t.name, bs) :: ·) ?_, fun hnone => ?_⟩
        · unfold addSuperclass
          rw [hs]
          split <;> exact hi
        · rw [heq (fun name hn => hnone name (hsub hn)) (htu.lets (hnone t.name hmem))]
    · rw [if_neg hname] at h h'
      exact ih hd h h'

/-- Two templates that vary build drafts that derive from the same classes, and where the lets are the
same, those around the classes included, they build the same draft. -/
theorem ofTemplate_varies {ts us : List Template}
    (hts : List.Forall₂ (Template.Varies changed) ts us) (hdb : db.defs.outline = db'.defs.outline)
    {t u : Template} (hparents : t.parents = u.parents) (hbody : t.body = u.body) {bs : Bindings}
    (h : ofTemplate db ts t bs = .ok d) (h' : ofTemplate db' us u bs = .ok d') :
    d.superclasses = d'.superclasses ∧
      ((∀ name ∈ d.superclasses, ¬changed name) → t.lets = u.lets → d = d') := by
  obtain ⟨d₁, hinherit, hown⟩ := bind_eq_ok.1 h
  obtain ⟨d₁', hinherit', hown'⟩ := bind_eq_ok.1 h'
  have hempty : empty.Varies changed empty := ⟨rfl, rfl, fun _ => rfl⟩
  rw [← hparents] at hinherit'
  have h₁ : d₁.Varies changed d₁' :=
    hempty.foldlM hinherit hinherit' fun _ _ _ _ _ => inherit_varies hts hdb
  obtain ⟨hs, -, heq⟩ := h₁.applyOwn hbody hown hown'
  exact ⟨hs, heq⟩

end
end Draft

/-! ### Declarations under other lets -/

section
variable {declared : String → Bool} {lets : List Override} {t : Template}

theorem ClassSyntax.toTemplate_lets {c : ClassSyntax} (h : c.toTemplate declared lets = .ok t)
    (lets' : List Override) : c.toTemplate declared lets' = .ok { t with lets := lets' } := by
  obtain ⟨params, hparams, h⟩ := bind_eq_ok.1 h
  obtain ⟨parents, hparents, h⟩ := bind_eq_ok.1 h
  obtain ⟨body, hbody, h⟩ := bind_eq_ok.1 h
  obtain rfl := pure_eq_ok.1 h
  exact bind_eq_ok.2 ⟨params, hparams, bind_eq_ok.2 ⟨parents, hparents, bind_eq_ok.2
    ⟨body, hbody, rfl⟩⟩⟩

theorem ClassSyntax.lets_toTemplate {c : ClassSyntax} (h : c.toTemplate declared lets = .ok t) :
    t.lets = lets :=
  congrArg Template.lets (Except.ok.inj (h.symm.trans (toTemplate_lets h lets)))

theorem DefSyntax.toTemplate_lets {d : DefSyntax} {name : String}
    (h : d.toTemplate declared lets name = .ok t) (lets' : List Override) :
    d.toTemplate declared lets' name = .ok { t with lets := lets' } := by
  obtain ⟨parents, hparents, h⟩ := bind_eq_ok.1 h
  obtain ⟨body, hbody, h⟩ := bind_eq_ok.1 h
  obtain rfl := pure_eq_ok.1 h
  exact bind_eq_ok.2 ⟨parents, hparents, bind_eq_ok.2 ⟨body, hbody, rfl⟩⟩

theorem DefSyntax.lets_toTemplate {d : DefSyntax} {name : String}
    (h : d.toTemplate declared lets name = .ok t) : t.lets = lets :=
  congrArg Template.lets (Except.ok.inj (h.symm.trans (toTemplate_lets h lets)))

end

namespace Declaration

/-- The table that holds the record of the declaration. -/
def side : Declaration → Side
  | classDecl _ => .classes
  | defDecl _ => .defs

end Declaration

namespace Progress

/-- Adding the declaration puts the record behind all others of its side. -/
def Adds (p : Progress) (d : Declaration) (p' : Progress) (r : Record) : Prop :=
  ∀ side, (p'.db.table side).records =
    (p.db.table side).records ++ if d.side = side then [r] else []

section
variable {p p' : Progress} {lets : List Override} {t : Template} {d : Draft} {r : Record}

theorem Classified.adds (hp : p.Classified) {c : ClassSyntax} {bs : Bindings}
    (h : p.ClassStep lets c p' t bs d r) : p.Adds (.classDecl c) p' r := by
  have hnew := hp.new_of_classStep h
  rintro (_ | _) <;> rw [h.db]
  · exact RecordTable.records_keep hnew
  · exact (List.append_nil _).symm

theorem DefStep.adds {s : DefSyntax} (h : p.DefStep lets s p' t d r) :
    p.Adds (.defDecl s) p' r := by
  have hnew := h.new
  rintro (_ | _) <;> rw [h.db]
  · exact (List.append_nil _).symm
  · exact RecordTable.records_keep hnew

end

/-- The runs stand alike, but for the lets of classes that `changed` holds of. -/
structure Varies (changed : String → Prop) (p q : Progress) : Prop where
  outline : p.db.outline = q.db.outline
  templates : List.Forall₂ (Template.Varies changed) p.templates q.templates
  anonymous : p.anonymous = q.anonymous

namespace Varies
variable {changed : String → Prop} {p q p₁ q₁ : Progress} {lets lets' : List Override}

theorem defs (h : p.Varies changed q) : p.db.defs.outline = q.db.defs.outline :=
  congrArg Database.defs h.outline

theorem declared (h : p.Varies changed q) : p.declared = q.declared :=
  declared_congr (h.templates.imp fun _ _ => Template.Varies.name)

theorem outline_adds (h : p.Varies changed q) {d : Declaration} {r r' : Record} (hp : p.Adds d p₁ r)
    (hq : q.Adds d q₁ r') (hr : r.outline = r'.outline) : p₁.db.outline = q₁.db.outline := by
  refine Database.outline_eq.2 fun side => ?_
  rw [hp side, hq side, List.map_append, List.map_append, Database.outline_eq.1 h.outline side]
  split
  · rw [List.map_singleton, List.map_singleton, hr]
  · rfl

/-- The records that one template gives under two lists of lets. -/
theorem record (h : p.Varies changed q) {t : Template} {bs : Bindings} {d d' : Draft}
    (hd : Draft.ofTemplate p.db p.templates t bs = .ok d)
    (hd' : Draft.ofTemplate q.db q.templates { t with lets := lets' } bs = .ok d') {name : String}
    {anonymous isClass : Bool} {r r' : Record}
    (hr : d.finish p.db name anonymous isClass t.directSuperclasses = .ok r)
    (hr' : d'.finish q.db name anonymous isClass t.directSuperclasses = .ok r') :
    r.outline = r'.outline ∧
      ((∀ name ∈ r.superclasses, ¬changed name) → t.lets = lets' → r = r') := by
  obtain ⟨hs, heq⟩ := Draft.ofTemplate_varies h.templates h.defs (t := t)
    (u := { t with lets := lets' }) rfl rfl hd hd'
  constructor
  · obtain ⟨m, -, rfl⟩ := Draft.finishIn_eq_ok.1 hr
    obtain ⟨m', -, rfl⟩ := Draft.finishIn_eq_ok.1 hr'
    exact congrArg (Record.mk name anonymous isClass [] · t.directSuperclasses false) hs
  · intro hnone hlets
    have hsupers : r.superclasses = d.superclasses := by
      obtain ⟨m, -, rfl⟩ := Draft.finishIn_eq_ok.1 hr
      rfl
    rw [← heq (hsupers ▸ hnone) hlets, ← Draft.finish_congr h.defs] at hr'
    exact Except.ok.inj (hr.symm.trans hr')

/-- A declaration that is added under two lists of lets. -/
theorem add (h : p.Varies changed q) (hp : p.Classified) (hq : q.Classified) {d : Declaration}
    (hlets : ∀ c, d = .classDecl c → ¬changed c.name → lets = lets')
    (hadd : p.add lets d = .ok p₁) (hadd' : q.add lets' d = .ok q₁) :
    p₁.Varies changed q₁ ∧ ∃ r r', p.Adds d p₁ r ∧ q.Adds d q₁ r' ∧
      ((∀ name ∈ r.superclasses, ¬changed name) → lets = lets' → r = r') := by
  cases d with
  | classDecl c =>
    obtain ⟨t, bs, d, r, hstep⟩ := addClass_eq_ok hadd
    obtain ⟨t', bs', d', r', hstep'⟩ := addClass_eq_ok hadd'
    have htlets := ClassSyntax.lets_toTemplate hstep.template
    have ht := hstep'.template
    rw [← h.declared, ClassSyntax.toTemplate_lets hstep.template] at ht
    obtain rfl := Except.ok.inj ht
    have hbs := hstep'.bindings
    rw [← Template.bind_congr h.defs] at hbs
    obtain rfl := Except.ok.inj (hbs.symm.trans hstep.bindings)
    obtain ⟨hr, heq⟩ := h.record hstep.draft hstep'.draft hstep.record hstep'.record
    have hvaries : t.Varies changed { t with lets := lets' } :=
      ⟨rfl, rfl, rfl, rfl, fun hc => htlets.trans
        (hlets c rfl (ClassSyntax.name_toTemplate hstep.template ▸ hc))⟩
    have hadds := hp.adds hstep
    have hadds' := hq.adds hstep'
    exact ⟨⟨h.outline_adds hadds hadds' hr,
      hstep.templates ▸ hstep'.templates ▸ .cons hvaries h.templates,
      hstep.anonymous.trans (h.anonymous.trans hstep'.anonymous.symm)⟩, r, r', hadds, hadds',
      fun hnone hl => heq hnone (htlets.trans hl)⟩
  | defDecl s =>
    obtain ⟨t, d, r, hstep⟩ := addDef_eq_ok hadd
    obtain ⟨t', d', r', hstep'⟩ := addDef_eq_ok hadd'
    have hname : q.anonymousName = p.anonymousName := by
      unfold anonymousName
      rw [h.anonymous]
    have htlets := DefSyntax.lets_toTemplate hstep.template
    have ht := hstep'.template
    rw [← h.declared, hname, DefSyntax.toTemplate_lets hstep.template] at ht
    obtain rfl := Except.ok.inj ht
    obtain ⟨hr, heq⟩ := h.record hstep.draft hstep'.draft hstep.record (hname ▸ hstep'.record)
    have hadds := hstep.adds
    have hadds' := hstep'.adds
    exact ⟨⟨h.outline_adds hadds hadds' hr, hstep.templates ▸ hstep'.templates ▸ h.templates,
      hstep.anonymous.trans (by rw [h.anonymous, hstep'.anonymous])⟩, r, r', hadds, hadds',
      fun hnone hl => heq hnone (htlets.trans hl)⟩

end Varies

theorem Classified.add {p p' : Progress} {lets : List Override} {d : Declaration} (hp : p.Classified)
    (h : p.add lets d = .ok p') : p'.Classified := by
  cases d with
  | classDecl c =>
    obtain ⟨t, bs, d, r, hstep⟩ := addClass_eq_ok h
    exact hp.addClass hstep
  | defDecl s =>
    obtain ⟨t, d, r, hstep⟩ := addDef_eq_ok h
    exact hp.addDef hstep

theorem Adds.item?_size {p p' : Progress} {d : Declaration} {r : Record} (h : p.Adds d p' r) :
    (p'.db.table d.side).item? (p.db.table d.side).size = some r := by
  rw [RecordTable.item?, h, if_pos rfl]
  exact List.getElem?_concat_length ..

theorem Adds.size {p p' : Progress} {d : Declaration} {r : Record} (h : p.Adds d p' r) (side : Side) :
    (p'.db.table side).size = (p.db.table side).size + if d.side = side then 1 else 0 := by
  rw [RecordTable.size, h, List.length_append]
  split <;> rfl

namespace Runs
variable {p p' q q' : Progress} {es fs : List Enclosed}

theorem prefix_table (h : Runs p es p') (side : Side) :
    (p.db.table side).records <+: (p'.db.table side).records := by
  induction h with
  | nil p => exact List.prefix_rfl
  | @cons p p₁ p' e es lets _ hadd _ ih =>
    refine List.IsPrefix.trans ?_ ih
    obtain ⟨ls, c | d⟩ := e
    · obtain ⟨t, bs, d, r, hstep⟩ := addClass_eq_ok hadd
      rw [hstep.db]
      cases side with
      | classes => exact RecordTable.prefix_keep ..
      | defs => exact List.prefix_rfl
    · obtain ⟨t, d, r, hstep⟩ := addDef_eq_ok hadd
      rw [hstep.db]
      cases side with
      | classes => exact List.prefix_rfl
      | defs => exact RecordTable.prefix_keep ..

theorem item?_mono (h : Runs p es p') {side : Side} {i : Nat} {r : Record}
    (hr : (p.db.table side).item? i = some r) : (p'.db.table side).item? i = some r := by
  obtain ⟨rest, hrest⟩ := h.prefix_table side
  have hi : i < (p.db.table side).records.length := (List.getElem?_eq_some_iff.1 hr).1
  rw [RecordTable.item?, ← hrest, List.getElem?_append_left hi]
  exact hr

end Runs

/-- Where the record of the declaration at position `i` comes to stand on its side, when the run of the
declarations begins at `p`. -/
def placeOf (p : Progress) (es : List Enclosed) (side : Side) (i : Nat) : Nat :=
  (p.db.table side).size + (es.take i).countP fun e => e.decl.side = side

theorem placeOf_succ {p p₁ : Progress} {e : Enclosed} {r : Record} (h : p.Adds e.decl p₁ r)
    (es : List Enclosed) (side : Side) (i : Nat) :
    placeOf p (e :: es) side (i + 1) = placeOf p₁ es side i := by
  rw [placeOf, placeOf, h.size, List.take_succ_cons, List.countP_cons]
  simp only [decide_eq_true_eq]
  omega

namespace Runs
variable {p p' q q' : Progress} {es fs : List Enclosed}

/-- The record of a declaration with the same lets in both runs is the same, unless it derives from a
class whose lets `changed` allows to differ. -/
theorem item?_eq {changed : String → Prop} (h : Runs p es p') (h' : Runs q fs q')
    (hpq : p.Varies changed q) (hp : p.Classified) (hq : q.Classified)
    (hes : List.Forall₂ (fun e f => e.decl = f.decl ∧
      ∀ c, e.decl = .classDecl c → ¬changed c.name → e.lets = f.lets) es fs)
    {i : Nat} {e f : Enclosed} (he : es[i]? = some e) (hf : fs[i]? = some f) (hlets : e.lets = f.lets) :
    ∃ r, (p'.db.table e.decl.side).item? (placeOf p es e.decl.side i) = some r ∧
      ((∀ name ∈ r.superclasses, ¬changed name) →
        (q'.db.table e.decl.side).item? (placeOf q fs e.decl.side i) = some r) := by
  induction h generalizing q fs i with
  | nil p => cases he
  | @cons p p₁ p' e₁ es lets hread hadd hrest ih =>
    cases h' with
    | nil => cases hes
    | @cons _ q₁ _ f₁ fs lets' hread' hadd' hrest' =>
      obtain ⟨⟨hdecl, hclass⟩, hes⟩ := List.forall₂_cons.1 hes
      rw [← hdecl] at hadd'
      rw [← hpq.declared] at hread'
      have hsame : e₁.lets = f₁.lets → lets = lets' := fun hl =>
        Except.ok.inj (hread.symm.trans ((congrArg (List.mapM _) hl).trans hread'))
      obtain ⟨hpq₁, r, r', hadds, hadds', heq⟩ :=
        hpq.add hp hq (fun c hc hn => hsame (hclass c hc hn)) hadd hadd'
      cases i with
      | zero =>
        obtain rfl := Option.some.inj he
        obtain rfl := Option.some.inj hf
        refine ⟨r, hrest.item?_mono hadds.item?_size, fun hnone => ?_⟩
        rw [heq hnone (hsame hlets)]
        exact hrest'.item?_mono hadds'.item?_size
      | succ i =>
        rw [placeOf_succ hadds, placeOf_succ (hdecl ▸ hadds')]
        exact ih hrest' hpq₁ (hp.add hadd) (hq.add hadd') hes he hf

end Runs

end Progress

/-! ### Records of enclosed declarations -/

namespace Enclosed

/-- The record of the declaration at a position: on its side it stands behind those of the declarations
before it. -/
def record? (es : List Enclosed) (db : Database) (i : Nat) : Option Record :=
  es[i]?.bind fun e =>
    (db.table e.decl.side).item? ((es.take i).countP fun f => f.decl.side = e.decl.side)

/-- The class is declared under lets that differ. -/
def Changed (es fs : List Enclosed) (name : String) : Prop :=
  ∃ (i : Nat) (e f : Enclosed) (c : ClassSyntax), es[i]? = some e ∧ fs[i]? = some f ∧
    e.decl = .classDecl c ∧ c.name = name ∧ e.lets ≠ f.lets

/-- A declaration under the same lets has left the same record, unless the record derives from a class
that is declared under lets that differ. -/
def Untouched (es fs : List Enclosed) (db db' : Database) : Prop :=
  ∀ (i : Nat) (e f : Enclosed), es[i]? = some e → fs[i]? = some f → e.lets = f.lets →
    ∃ r, record? es db i = some r ∧
      ((∀ name ∈ r.superclasses, ¬Changed es fs name) → record? fs db' i = some r)

end Enclosed

theorem Progress.Runs.untouched {p q : Progress} {es fs : List Enclosed}
    (h : Progress.start.Runs es p) (h' : Progress.start.Runs fs q)
    (hdecl : es.map Enclosed.decl = fs.map Enclosed.decl) : Enclosed.Untouched es fs p.db q.db := by
  have hdecl' : List.Forall₂ (fun e f : Enclosed => e.decl = f.decl) es fs :=
    List.forall₂_map_left_iff.1 (List.forall₂_map_right_iff.1 (List.forall₂_eq_eq_eq.symm ▸ hdecl))
  have hes : List.Forall₂ (fun e f => e.decl = f.decl ∧
      ∀ c, e.decl = .classDecl c → ¬Enclosed.Changed es fs c.name → e.lets = f.lets) es fs := by
    refine List.forall₂_iff_get.2 ⟨hdecl'.length_eq, fun i hi hi' => ⟨hdecl'.get hi hi', ?_⟩⟩
    intro c hc hunchanged
    by_contra hne
    exact hunchanged ⟨i, es[i], fs[i], c, List.getElem?_eq_getElem hi, List.getElem?_eq_getElem hi',
      hc, rfl, hne⟩
  intro i e f he hf hlets
  have hstart : Progress.start.Varies (Enclosed.Changed es fs) .start := ⟨rfl, .nil, rfl⟩
  obtain ⟨r, hr, hsame⟩ := h.item?_eq h' hstart .start .start hes he hf hlets
  have hzero : ∀ (ds : List Enclosed) (side : Side), placeOf .start ds side i =
      (ds.take i).countP fun e => e.decl.side = side := by
    rintro ds (_ | _) <;> exact Nat.zero_add _
  have hef : e.decl = f.decl := by
    have hi := congrArg (fun ds : List Declaration => ds[i]?) hdecl
    simpa [he, hf] using hi
  refine ⟨r, ?_, fun hnone => ?_⟩
  · rw [Enclosed.record?, he, Option.bind_some, ← hzero es]
    exact hr
  · rw [Enclosed.record?, hf, Option.bind_some, ← hzero fs, ← hef]
    exact hsame hnone

end TypedRecords
