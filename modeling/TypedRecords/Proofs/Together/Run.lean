import TypedRecords.Proofs.Run.Extended
import TypedRecords.Proofs.Superclass.Exact
import TypedRecords.Proofs.Together.Syntax

/-!
# Related descriptions

Two descriptions are `Related` where their declarations are, one by one, but for adjacent defs that
stand in the other order. Their runs go in step, moment by moment, until such defs come next for the
first time (`SearchPath.start_inStep`). If they never do, the outcome is the same.
-/

namespace TypedRecords

theorem Database.agreesAt_self (db : Database) :
    db.AgreesAt AllNames (fun _ => True) db where
  ref? _ _ := rfl
  target _ _ _ _ := trivial
  store _ _ := rfl

/-- Lets that are the same but for places. -/
abbrev SimilarLets : List Override → List Override → Prop :=
  List.Forall₂ (Override.Similar (SameName AllNames) fun _ => True)

namespace Progress

/-- The declarations so far have left the same records, and similar templates. -/
structure Similar (p q : Progress) : Prop where
  db : p.db = q.db
  templates : List.Forall₂ (Template.Similar AllNames fun _ => True) p.templates q.templates
  anonymous : p.anonymous = q.anonymous
  distinct : (p.templates.map Template.name).Nodup

namespace Similar
variable {p q : Progress}

theorem start : Progress.start.Similar .start := ⟨rfl, .nil, rfl, .nil⟩

theorem declared (h : p.Similar q) : p.declared = q.declared :=
  declared_congr (h.templates.imp fun _ _ => Template.Similar.name)

theorem anonymousName (h : p.Similar q) : p.anonymousName = q.anonymousName := by
  unfold Progress.anonymousName
  rw [h.anonymous]

/-- What the classes call their parameters, all of them mattering. -/
def signature (p q : Progress) : Signature where
  needed _ := True
  left := Template.paramsOf p.templates
  right := Template.paramsOf q.templates

theorem counterparts (h : p.Similar q) :
    List.Forall₂ (Template.Counterpart (signature p q) AllNames fun _ => True) p.templates
      q.templates := by
  have hnames : p.templates.map Template.name = q.templates.map Template.name :=
    map_eq_of_forall₂ h.templates fun _ _ => Template.Similar.name
  have hleft := (List.forall₂_and_left _ _).2 ⟨fun t ht => ht, h.templates⟩
  have hboth := (List.forall₂_and_left _ _).2 ⟨fun u hu => hu, hleft.flip⟩
  refine hboth.flip.imp fun t u htu => ?_
  obtain ⟨hu, ht, hsimilar⟩ := htu
  exact
    { name := hsimilar.name
      similar := fun _ => hsimilar
      left := Template.paramsOf_eq h.distinct ht
      right := Template.paramsOf_eq (hnames ▸ h.distinct) hu
      parents := fun _ _ _ => trivial }

theorem ofTemplate_together (h : p.Similar q) {t u : Template}
    (htu : t.Similar AllNames (fun _ => True) u) {bs bs' : Bindings}
    (hbs : bs.Similar (fun _ => True) t.paramNames u.paramNames bs') :
    Together (Draft.Similar (signature p q) AllNames fun _ => True)
      (Draft.ofTemplate p.db p.templates t bs) (Draft.ofTemplate q.db q.templates u bs') :=
  Draft.ofTemplate_together (h.db ▸ p.db.agreesAt_self) h.counterparts htu (fun _ _ => trivial) hbs

theorem finish_together (h : p.Similar q) {d d' : Draft}
    (hd : d.Similar (signature p q) AllNames (fun _ => True) d') (name : String)
    (anonymous isClass : Bool) (direct : List String) :
    Together Eq (d.finish p.db name anonymous isClass direct)
      (d'.finish q.db name anonymous isClass direct) :=
  Draft.finish_together (h.db ▸ p.db.agreesAt_self) hd name anonymous isClass direct

theorem addClass_together (h : p.Similar q) {lets lets' : List Override}
    (hlets : SimilarLets lets lets') {c c' : ClassSyntax} (hc : c.Similar c') :
    Together Similar (p.addClass lets c) (q.addClass lets' c') := by
  unfold addClass
  rw [← hc.name, ← h.declared]
  refine Together.throwIf Iff.rfl fun hnew => ?_
  have htemplate : Together (fun t u => t.Similar AllNames (fun _ => True) u ∧ t.name = c.name)
      (c.toTemplate (fun name => name = c.name || p.declared name) lets)
      (c'.toTemplate (fun name => name = c.name || p.declared name) lets') :=
    (ClassSyntax.toTemplate_together hc hlets).imp fun t u ht _ htu => ⟨htu, ClassSyntax.name_toTemplate ht⟩
  refine htemplate.bind fun t u htu => ?_
  obtain ⟨htu, hname⟩ := htu
  refine (Template.bind_together (h.db ▸ p.db.agreesAt_self) htu _ _ .unset (List.forall_mem_nil _)).bind
    fun bs bs' hbs => ?_
  refine (h.ofTemplate_together htu hbs).bind fun d d' hd => ?_
  rw [← htu.directSuperclasses]
  refine (h.finish_together hd _ _ _ _).bind fun r r' hr => .ok ?_
  refine ⟨?_, .cons htu h.templates, h.anonymous, ?_⟩
  · rw [hr, h.db]
  · rw [List.map_cons, hname]
    exact h.distinct.cons fun hmem => hnew (declared_iff.2 hmem)

theorem addDef_together (h : p.Similar q) {lets lets' : List Override} (hlets : SimilarLets lets lets')
    {d d' : DefSyntax} (hd : d.Similar d') :
    Together Similar (p.addDef lets d) (q.addDef lets' d') := by
  unfold addDef
  rw [← hd.name, ← h.declared, ← h.anonymousName]
  refine (DefSyntax.toTemplate_together hd _ hlets).bind fun t u ⟨htu, hparams⟩ => ?_
  refine Together.throwIf (by rw [h.db]) fun _ => ?_
  refine (h.ofTemplate_together htu (htu.bindings_nil hparams)).bind fun d d' hd => ?_
  rw [← htu.directSuperclasses]
  refine (h.finish_together hd _ _ _ _).bind fun r r' hr => .ok ?_
  exact ⟨by rw [hr, h.db], h.templates, by rw [h.anonymous], h.distinct⟩

end Similar
end Progress

/-! ### Related statements -/

/-- The statements are one by one the same but for places, where `C` says which classes are, and where
adjacent defs may stand in the other order as far as `E` allows it. -/
inductive Statement.Related (C : ClassSyntax → ClassSyntax → Prop)
    (E : DefSyntax → DefSyntax → DefSyntax → DefSyntax → Prop) :
    List Statement → List Statement → Prop
  | nil : Related C E [] []
  | includeFile {i i' : IncludeSyntax} {ss ss' : List Statement} (h : i.file = i'.file)
      (hrest : Related C E ss ss') : Related C E (.includeFile i :: ss) (.includeFile i' :: ss')
  | classDecl {c c' : ClassSyntax} {ss ss' : List Statement} (h : C c c')
      (hrest : Related C E ss ss') : Related C E (.classDecl c :: ss) (.classDecl c' :: ss')
  | defDecl {d d' : DefSyntax} {ss ss' : List Statement} (h : d.Similar d')
      (hrest : Related C E ss ss') : Related C E (.defDecl d :: ss) (.defDecl d' :: ss')
  | scope {ls ls' : List LetSyntax} {body body' ss ss' : List Statement}
      (h : List.Forall₂ (LetSyntax.Similar Eq) ls ls') (hbody : Related C E body body')
      (hrest : Related C E ss ss') : Related C E (.scope ls body :: ss) (.scope ls' body' :: ss')
  | exchange {d₁ d₂ d₁' d₂' : DefSyntax} {ss ss' : List Statement} (h : E d₁ d₂ d₁' d₂')
      (hrest : Related C E ss ss') :
      Related C E (.defDecl d₁ :: .defDecl d₂ :: ss) (.defDecl d₂' :: .defDecl d₁' :: ss')

section
variable {C : ClassSyntax → ClassSyntax → Prop} {E : DefSyntax → DefSyntax → DefSyntax → DefSyntax → Prop}
  {s s' : SearchPath}

/-- The same files are found, and what is read from them are related statements. -/
structure SearchPath.Related (C : ClassSyntax → ClassSyntax → Prop)
    (E : DefSyntax → DefSyntax → DefSyntax → DefSyntax → Prop) (s s' : SearchPath) : Prop where
  locate : ∀ name, s.locate name = s'.locate name
  readAt : ∀ path place origin origin',
    Together (Statement.Related C E) (s.readAt path place origin) (s'.readAt path place origin')

theorem Statement.related_self (hC : ∀ c, C c c) : ∀ ss : List Statement, Statement.Related C E ss ss
  | [] => .nil
  | .includeFile _ :: ss => .includeFile rfl (related_self hC ss)
  | .classDecl c :: ss => .classDecl (hC c) (related_self hC ss)
  | .defDecl d :: ss => .defDecl d.similar_self (related_self hC ss)
  | .scope ls body :: ss =>
    .scope (List.forall₂_same.2 fun l _ => l.similar_self fun _ => rfl) (related_self hC body)
      (related_self hC ss)

theorem Statement.Related.append {ss ss' ts ts' : List Statement} (h : Statement.Related C E ss ss')
    (hts : Statement.Related C E ts ts') : Statement.Related C E (ss ++ ts) (ss' ++ ts') := by
  induction h with
  | nil => exact hts
  | includeFile h _ ih => exact .includeFile h ih
  | classDecl h _ ih => exact .classDecl h ih
  | defDecl h _ ih => exact .defDecl h ih
  | scope h hbody _ _ ih => exact .scope h hbody ih
  | exchange h _ ih => exact .exchange h ih

theorem SearchPath.related_self (hC : ∀ c, C c c) (s : SearchPath) : s.Related C E s where
  locate _ := rfl
  readAt path place origin origin' := by
    unfold SearchPath.readAt
    cases (s.tree.bytes? place).bind String.fromUTF8? with
    | none => exact .error _ _
    | some text => exact .refl (Statement.related_self hC) _

theorem SearchPath.Related.fetch_together (hs : s.Related C E s') (stack : List TreePath)
    {i i' : IncludeSyntax} (hi : i.file = i'.file) :
    Together (fun f f' => f.place = f'.place ∧ Statement.Related C E f.statements f'.statements)
      (s.fetch stack i) (s'.fetch stack i') := by
  unfold SearchPath.fetch
  rw [← hi]
  refine (stringText_together i.file i.filePlace i'.filePlace).bind fun name name' hname => ?_
  rw [← hname, ← hs.locate]
  cases s.locate name with
  | none => exact .error _ _
  | some found =>
    refine Together.throwIf Iff.rfl fun _ => ?_
    exact (hs.readAt _ _ _ _).bind fun ss ss' hss => .ok ⟨rfl, hss⟩

/-! ### Related moments -/

structure Frame.Related (C : ClassSyntax → ClassSyntax → Prop)
    (E : DefSyntax → DefSyntax → DefSyntax → DefSyntax → Prop) (f f' : Frame) : Prop where
  file : f.file = f'.file
  lets : SimilarLets f.lets f'.lets
  rest : Statement.Related C E f.rest f'.rest

namespace Moment

structure Related (C : ClassSyntax → ClassSyntax → Prop)
    (E : DefSyntax → DefSyntax → DefSyntax → DefSyntax → Prop) (m m' : Moment) : Prop where
  progress : m.progress.Similar m'.progress
  frames : List.Forall₂ (Frame.Related C E) m.frames m'.frames

/-- Two defs come next that `E` has in the other order in the other run. -/
inductive Crossing (E : DefSyntax → DefSyntax → DefSyntax → DefSyntax → Prop) : Moment → Moment → Prop
  | mk {p p' : Progress} {file file' : Option TreePath} {lets lets' : List Override}
      {d₁ d₂ d₁' d₂' : DefSyntax} {rest rest' : List Statement} {frames frames' : List Frame}
      (h : E d₁ d₂ d₁' d₂') :
      Crossing E ⟨p, ⟨file, lets, .defDecl d₁ :: .defDecl d₂ :: rest⟩ :: frames⟩
        ⟨p', ⟨file', lets', .defDecl d₂' :: .defDecl d₁' :: rest'⟩ :: frames'⟩

/-- The runs go on in step up to the first moments that `S` relates, of which `P` holds then, or if there
are none, until both end with the same database or both fail. -/
inductive InStep (s s' : SearchPath) (S P : Moment → Moment → Prop) : Moment → Moment → Prop
  | met {m m' : Moment} (hstop : S m m') (h : P m m') : InStep s s' S P m m'
  | ended {m m' : Moment} (hgo : ¬S m m') (h : m.next s = .ok none) (h' : m'.next s' = .ok none)
      (hdb : m.progress.db = m'.progress.db) : InStep s s' S P m m'
  | failed {m m' : Moment} {e e' : ParseError} (hgo : ¬S m m') (h : m.next s = .error e)
      (h' : m'.next s' = .error e') : InStep s s' S P m m'
  | step {m m' n n' : Moment} (hgo : ¬S m m') (h : m.Step s n) (h' : m'.Step s' n')
      (hrest : InStep s s' S P n n') : InStep s s' S P m m'

theorem Related.stack {m m' : Moment} (h : m.Related C E m') : m.stack = m'.stack := by
  have hfiles : m.frames.map Frame.file = m'.frames.map Frame.file :=
    map_eq_of_forall₂ h.frames fun _ _ => Frame.Related.file
  have hstack : ∀ m : Moment, m.stack = (m.frames.map Frame.file).filterMap id := fun m => by
    rw [List.filterMap_map]
    rfl
  rw [hstack, hstack, hfiles]

theorem Ends.eq_ok {m : Moment} {x : Except ParseError Progress} (h : m.Ends s x)
    (hnext : m.next s = .ok none) : x = .ok m.progress := by
  cases h with
  | done => rfl
  | failed h => cases h.symm.trans hnext
  | step h => cases h.symm.trans hnext

theorem Ends.eq_error {m : Moment} {x : Except ParseError Progress} {e : ParseError} (h : m.Ends s x)
    (hnext : m.next s = .error e) : x = .error e := by
  cases h with
  | done h => cases h.symm.trans hnext
  | failed h => exact congrArg _ (Except.error.inj (h.symm.trans hnext))
  | step h => cases h.symm.trans hnext

theorem Ends.of_step {m n : Moment} {x : Except ParseError Progress} (h : m.Ends s x)
    (hstep : m.Step s n) : n.Ends s x := by
  cases h with
  | done h => cases h.symm.trans hstep
  | failed h => cases h.symm.trans hstep
  | step h h' => exact Option.some.inj (Except.ok.inj (h.symm.trans hstep)) ▸ h'

/-- Related moments are followed by related moments, unless defs come next that stand in the other
order. -/
theorem Related.next_together (hC : ∀ c c', C c c' → c.Similar c') (hs : s.Related C E s')
    {m m' : Moment} (h : m.Related C E m') (hgo : ¬m.Crossing E m') :
    Together (Option.Rel (Related C E)) (m.next s) (m'.next s') := by
  have hstack := h.stack
  obtain ⟨p, frames⟩ := m
  obtain ⟨p', frames'⟩ := m'
  obtain ⟨hp, hframes⟩ := h
  dsimp only at hp hframes
  cases hframes with
  | nil => exact .ok .none
  | @cons f f' frames frames' hf hframes =>
    obtain ⟨file, lets, rest⟩ := f
    obtain ⟨file', lets', rest'⟩ := f'
    obtain ⟨rfl, hlets, hrest⟩ := hf
    dsimp only at hlets hrest
    cases hrest with
    | nil => exact .ok (.some ⟨hp, hframes⟩)
    -- the only statements that the other run does not meet at the same moment
    | exchange h => exact (hgo (.mk h)).elim
    | includeFile hi hrest =>
      rw [next, next, ← hstack]
      refine (hs.fetch_together _ hi).bind fun g g' hg => .ok (.some ⟨hp, ?_⟩)
      exact .cons ⟨congrArg some hg.1, hlets, hg.2⟩ (.cons ⟨rfl, hlets, hrest⟩ hframes)
    | classDecl hc hrest =>
      exact (hp.addClass_together hlets (hC _ _ hc)).bind fun q q' hq =>
        .ok (.some ⟨hq, .cons ⟨rfl, hlets, hrest⟩ hframes⟩)
    | defDecl hd hrest =>
      exact (hp.addDef_together hlets hd).bind fun q q' hq =>
        .ok (.some ⟨hq, .cons ⟨rfl, hlets, hrest⟩ hframes⟩)
    | @scope ls ls' _ _ _ _ hls hbody hrest =>
      rw [next, next]
      dsimp only
      rw [← hp.declared]
      have hinner : Together SimilarLets (ls.mapM (·.toOverride p.declared))
          (ls'.mapM (·.toOverride p.declared)) :=
        Together.mapM hls fun l l' hl =>
          LetSyntax.toOverride_together ⟨hl.name, hl.value.imp sameName_of_eq⟩
      refine hinner.bind fun inner inner' h => .ok (.some ⟨hp, ?_⟩)
      exact .cons ⟨rfl, List.rel_append hlets h, hbody⟩ (.cons ⟨rfl, hlets, hrest⟩ hframes)

/-- From related moments the runs go in step until such defs come next, at moments that are related. -/
theorem Related.inStep (hC : ∀ c c', C c c' → c.Similar c') (hs : s.Related C E s') {m m' : Moment}
    {x : Except ParseError Progress} (h : m.Related C E m') (hx : m.Ends s x) :
    InStep s s' (Crossing E) (Related C E) m m' := by
  induction hx generalizing m' with
  | @done m hnext =>
    by_cases hcross : m.Crossing E m'
    · exact .met hcross h
    · obtain ⟨o, ho, hrel⟩ := (h.next_together hC hs hcross).exists_right hnext
      cases hrel
      exact .ended hcross hnext ho h.progress.db
  | @failed m e hnext =>
    by_cases hcross : m.Crossing E m'
    · exact .met hcross h
    · have htogether := h.next_together hC hs hcross
      rw [hnext] at htogether
      generalize hnext' : m'.next s' = y at htogether
      cases htogether with | error e e' => exact .failed hcross hnext hnext'
  | @step m n x hnext _ ih =>
    by_cases hcross : m.Crossing E m'
    · exact .met hcross h
    · obtain ⟨o, ho, hrel⟩ := (h.next_together hC hs hcross).exists_right hnext
      cases hrel with | some hrel => exact .step hcross hnext ho (ih hrel)

namespace InStep
variable {S P Q : Moment → Moment → Prop} {m m' : Moment}

theorem imp (h : InStep s s' S P m m')
    (hPQ : ∀ n n', Relation.ReflTransGen (Step s) m n → S n n' → P n n' → Q n n') :
    InStep s s' S Q m m' := by
  induction h with
  | met hstop h => exact .met hstop (hPQ _ _ .refl hstop h)
  | ended hgo h h' hdb => exact .ended hgo h h' hdb
  | failed hgo h h' => exact .failed hgo h h'
  | step hgo h h' _ ih => exact .step hgo h h' (ih fun n n' hn => hPQ n n' (.head h hn))

/-- Runs that come to no such moments have the same outcome. -/
theorem ends_together (h : InStep s s' S P m m') (hS : ∀ n n', ¬S n n') {x x' : Except ParseError Progress}
    (hx : m.Ends s x) (hx' : m'.Ends s' x') : Together (fun p p' => p.db = p'.db) x x' := by
  induction h generalizing x x' with
  | met hstop _ => exact (hS _ _ hstop).elim
  | ended _ h h' hdb => rw [hx.eq_ok h, hx'.eq_ok h']; exact .ok hdb
  | failed _ h h' => rw [hx.eq_error h, hx'.eq_error h']; exact .error _ _
  | step _ h h' _ ih => exact ih (hx.of_step h) (hx'.of_step h')

end InStep
end Moment

namespace SearchPath

/-- The runs of related statements go in step until defs come next that stand in the other order, at
moments that are related. -/
theorem start_inStep (hC : ∀ c c', C c c' → c.Similar c') (hs : s.Related C E s')
    {statements statements' : List Statement} (h : Statement.Related C E statements statements') :
    Moment.InStep s s' (Moment.Crossing E) (Moment.Related C E) (.start statements)
      (.start statements') := by
  have hstart : (Moment.start statements).Related C E (.start statements') :=
    ⟨.start, .cons ⟨rfl, .nil, h⟩ .nil⟩
  exact hstart.inStep hC hs (Moment.start_ends s statements)

end SearchPath
end
end TypedRecords
