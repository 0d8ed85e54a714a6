import TypedRecords.Session
import TypedRecords.Proofs.Outcome

/-!
# Invariants of a run

Whatever files it includes and whatever lets enclose them, a run adds one declaration after the
other. So what holds at the start and is kept by each class and each def that is added holds of what
the run leaves (`Invariant.run`).
-/

namespace TypedRecords.Progress

theorem declared_iff {p : Progress} {name : String} :
    p.declared name = true ↔ name ∈ p.templates.map Template.name := by
  simp [declared]

theorem declared_mono {p p' : Progress} (h : p.templates <:+ p'.templates) {name : String}
    (hname : p.declared name = true) : p'.declared name = true := by
  rw [declared_iff] at hname ⊢
  exact (h.sublist.map _).subset hname

/-! ### One declaration -/

/-- What adding a class goes through: its template, the bindings of its parameters, the draft and
the record that is kept. -/
structure ClassStep (p : Progress) (lets : List Override) (c : ClassSyntax) (p' : Progress)
    (t : Template) (bs : Bindings) (d : Draft) (r : Record) : Prop where
  undeclared : p.declared c.name = false
  template : c.toTemplate (fun name => name = c.name || p.declared name) lets = .ok t
  bindings : t.bind p.db [] c.place .unset = .ok bs
  draft : Draft.ofTemplate p.db p.templates t bs = .ok d
  record : d.finish p.db c.name false true t.directSuperclasses = .ok r
  db : p'.db = { p.db with classes := (p.db.classes.keep r).table }
  templates : p'.templates = t :: p.templates
  anonymous : p'.anonymous = p.anonymous

theorem addClass_eq_ok {p p' : Progress} {lets : List Override} {c : ClassSyntax}
    (h : p.addClass lets c = .ok p') : ∃ t bs d r, p.ClassStep lets c p' t bs d r := by
  unfold addClass at h
  obtain ⟨hundeclared, h⟩ := throwIf_bind_eq_ok.1 h
  obtain ⟨t, ht, h⟩ := bind_eq_ok.1 h
  obtain ⟨bs, hbs, h⟩ := bind_eq_ok.1 h
  obtain ⟨d, hd, h⟩ := bind_eq_ok.1 h
  obtain ⟨r, hr, h⟩ := bind_eq_ok.1 h
  obtain rfl := pure_eq_ok.1 h
  exact ⟨t, bs, d, r, Bool.eq_false_iff.2 hundeclared, ht, hbs, hd, hr, rfl, rfl, rfl⟩

theorem ClassStep.addClass {p p' : Progress} {lets : List Override} {c : ClassSyntax} {t : Template}
    {bs : Bindings} {d : Draft} {r : Record} (h : p.ClassStep lets c p' t bs d r) :
    p.addClass lets c = .ok p' := by
  obtain ⟨db, templates, anonymous⟩ := p'
  obtain rfl := h.db
  obtain rfl := h.templates
  obtain rfl := h.anonymous
  unfold Progress.addClass
  refine throwIf_bind_eq_ok.2 ⟨Bool.eq_false_iff.1 h.undeclared, bind_eq_ok.2 ⟨t, h.template, ?_⟩⟩
  exact bind_eq_ok.2 ⟨bs, h.bindings, bind_eq_ok.2 ⟨d, h.draft, bind_eq_ok.2 ⟨r, h.record, rfl⟩⟩⟩

structure DefStep (p : Progress) (lets : List Override) (s : DefSyntax) (p' : Progress)
    (t : Template) (d : Draft) (r : Record) : Prop where
  template : s.toTemplate p.declared lets (s.name.getD p.anonymousName) = .ok t
  undefined : p.db.defs.contains (s.name.getD p.anonymousName) = false
  draft : Draft.ofTemplate p.db p.templates t [] = .ok d
  record : d.finish p.db (s.name.getD p.anonymousName) s.name.isNone false
    t.directSuperclasses = .ok r
  db : p'.db = { p.db with defs := (p.db.defs.keep r).table }
  templates : p'.templates = p.templates
  anonymous : p'.anonymous = if s.name.isNone then p.anonymous + 1 else p.anonymous

theorem addDef_eq_ok {p p' : Progress} {lets : List Override} {s : DefSyntax}
    (h : p.addDef lets s = .ok p') : ∃ t d r, p.DefStep lets s p' t d r := by
  unfold addDef at h
  obtain ⟨t, ht, h⟩ := bind_eq_ok.1 h
  obtain ⟨hundefined, h⟩ := throwIf_bind_eq_ok.1 h
  obtain ⟨d, hd, h⟩ := bind_eq_ok.1 h
  obtain ⟨r, hr, h⟩ := bind_eq_ok.1 h
  obtain rfl := pure_eq_ok.1 h
  exact ⟨t, d, r, ht, Bool.eq_false_iff.2 hundefined, hd, hr, rfl, rfl, rfl⟩

theorem DefStep.addDef {p p' : Progress} {lets : List Override} {s : DefSyntax} {t : Template}
    {d : Draft} {r : Record} (h : p.DefStep lets s p' t d r) : p.addDef lets s = .ok p' := by
  obtain ⟨db, templates, anonymous⟩ := p'
  obtain rfl := h.db
  obtain rfl := h.templates
  obtain rfl := h.anonymous
  unfold Progress.addDef
  refine bind_eq_ok.2 ⟨t, h.template, throwIf_bind_eq_ok.2 ⟨Bool.eq_false_iff.1 h.undefined, ?_⟩⟩
  exact bind_eq_ok.2 ⟨d, h.draft, bind_eq_ok.2 ⟨r, h.record, rfl⟩⟩

/-! ### A run -/

/-- `I` holds at the start and is kept by every declaration under lets that satisfy `L`. All lets do
that are read, and go on to do so while templates are added. -/
structure Invariant (I : Progress → Prop) (L : Progress → Override → Prop) : Prop where
  start : I start
  lets : ∀ {p : Progress} {l : LetSyntax} {o : Override}, I p → l.toOverride p.declared = .ok o →
    L p o
  grow : ∀ {p p' : Progress} {o : Override}, p.templates <:+ p'.templates → L p o → L p' o
  addClass : ∀ {p p' : Progress} {lets : List Override} {c : ClassSyntax} {t : Template}
    {bs : Bindings} {d : Draft} {r : Record}, I p → (∀ o ∈ lets, L p o) →
      p.ClassStep lets c p' t bs d r → I p'
  addDef : ∀ {p p' : Progress} {lets : List Override} {s : DefSyntax} {t : Template} {d : Draft}
    {r : Record}, I p → (∀ o ∈ lets, L p o) → p.DefStep lets s p' t d r → I p'

def Keeps (I : Progress → Prop) (L : Progress → Override → Prop) (enter : Entering) : Prop :=
  ∀ {p p' : Progress} {lets : List Override} {i : IncludeSyntax}, I p → (∀ o ∈ lets, L p o) →
    enter p lets i = .ok p' → I p' ∧ p.templates <:+ p'.templates

namespace Invariant
variable {I : Progress → Prop} {L : Progress → Override → Prop}

mutual

theorem statement (h : Invariant I L) {enter : Entering} (henter : Keeps I L enter) {p p' : Progress}
    {lets : List Override} (hp : I p) (hlets : ∀ o ∈ lets, L p o) :
    ∀ s : Statement, p.run enter lets s = .ok p' → I p' ∧ p.templates <:+ p'.templates
  | .includeFile i, hrun => henter hp hlets hrun
  | .classDecl c, hrun => by
    obtain ⟨t, bs, d, r, hstep⟩ := addClass_eq_ok hrun
    exact ⟨h.addClass hp hlets hstep, hstep.templates ▸ List.suffix_cons ..⟩
  | .defDecl d, hrun => by
    obtain ⟨t, d, r, hstep⟩ := addDef_eq_ok hrun
    exact ⟨h.addDef hp hlets hstep, hstep.templates ▸ List.suffix_refl _⟩
  | .scope bindings body, hrun => by
    obtain ⟨inner, hinner, hrun⟩ := bind_eq_ok.1 hrun
    refine statements h henter hp (List.forall_mem_append.2 ⟨hlets, fun o ho => ?_⟩) body hrun
    obtain ⟨l, -, hl⟩ := mem_of_mapM_eq_ok hinner o ho
    exact h.lets hp hl

theorem statements (h : Invariant I L) {enter : Entering} (henter : Keeps I L enter)
    {p p' : Progress} {lets : List Override} (hp : I p) (hlets : ∀ o ∈ lets, L p o) :
    ∀ ss : List Statement, p.runAll enter lets ss = .ok p' → I p' ∧ p.templates <:+ p'.templates
  | [], hrun => Except.ok.inj hrun ▸ ⟨hp, List.suffix_refl _⟩
  | s :: ss, hrun => by
    obtain ⟨p₁, hs, hrun⟩ := bind_eq_ok.1 hrun
    obtain ⟨hp₁, hgrown⟩ := statement h henter hp hlets s hs
    obtain ⟨hp', hgrown'⟩ :=
      statements h henter hp₁ (fun o ho => h.grow hgrown (hlets o ho)) ss hrun
    exact ⟨hp', hgrown.trans hgrown'⟩

end

theorem enter (h : Invariant I L) (search : SearchPath) (level : Nat) (stack : List TreePath) :
    Keeps I L (search.enter level stack) := by
  induction level generalizing stack with
  | zero =>
    intro p p' lets i hp hlets hrun
    obtain ⟨file, -, hrun⟩ := bind_eq_ok.1 hrun
    cases hrun
  | succ level ih =>
    intro p p' lets i hp hlets hrun
    obtain ⟨file, -, hrun⟩ := bind_eq_ok.1 hrun
    exact h.statements (ih (file.place :: stack)) hp hlets file.statements hrun

theorem run (h : Invariant I L) {search : SearchPath} {name text : String} {db : Database}
    (hrun : search.run name text = .ok db) : ∃ p, I p ∧ p.db = db := by
  obtain ⟨statements, -, hrun⟩ := bind_eq_ok.1 hrun
  obtain ⟨p, hp, hdb⟩ := bind_eq_ok.1 hrun
  exact ⟨p, (h.statements (h.enter search _ []) h.start (by simp) statements hp).1, pure_eq_ok.1 hdb⟩

end Invariant
end TypedRecords.Progress
