import TypedRecords.Draft.Inherit
import TypedRecords.Proofs.Draft.Items
import TypedRecords.Proofs.Resolve.Visit
import TypedRecords.Proofs.Together.Evaluate
import TypedRecords.Proofs.Unset.Order

/-!
# Similar templates

Templates are `Similar` where their expressions are, with parameters under other names. Over databases
that agree they go together all the way to a record, and the records are the same
(`Draft.finish_together`). Of the declared classes only those matter that the template derives from.
-/

namespace TypedRecords
variable {names : String → Prop} {seen : Nat → Prop}

/-! ### Relations -/

/-- The parameters are similar behind parameters called `xs` and `ys`: a default sees those before it. -/
inductive SimilarParams (names : String → Prop) (seen : Nat → Prop) :
    List String → List String → List Param → List Param → Prop
  | nil {xs ys : List String} : SimilarParams names seen xs ys [] []
  | cons {xs ys : List String} {p q : Param} {ps qs : List Param} (htype : p.type = q.type)
      (hdefault : Option.Rel (Expr.Similar (Corresponds (SameName names) xs ys) seen) p.default
        q.default)
      (hrest : SimilarParams names seen (xs ++ [p.name]) (ys ++ [q.name]) ps qs) :
      SimilarParams names seen xs ys (p :: ps) (q :: qs)

structure ParentRef.Similar (N : String → String → Prop) (seen : Nat → Prop) (q q' : ParentRef) :
    Prop where
  name : q.name = q'.name
  args : Expr.SimilarAll N seen q.args q'.args

structure Override.Similar (N : String → String → Prop) (seen : Nat → Prop) (o o' : Override) :
    Prop where
  name : o.name = o'.name
  value : o.value.Similar N seen o'.value

inductive BodyItem.Similar (N : String → String → Prop) (seen : Nat → Prop) :
    BodyItem → BodyItem → Prop
  | field {name : String} {type : Ty} {value value' : Option Expr} {place place' : Location}
      (h : Option.Rel (Expr.Similar N seen) value value') :
      BodyItem.Similar N seen (.field name type value place) (.field name type value' place')
  | override {o o' : Override} (h : o.Similar N seen o') :
      BodyItem.Similar N seen (.override o) (.override o')

def Template.paramNames (t : Template) : List String := t.params.map Param.name

/-- The templates are the same but for places, the names of parameters, and what names among `names`
stand for. -/
structure Template.Similar (names : String → Prop) (seen : Nat → Prop) (t u : Template) : Prop where
  name : t.name = u.name
  params : SimilarParams names seen [] [] t.params u.params
  parents : List.Forall₂ (ParentRef.Similar
    (Corresponds (SameName names) t.paramNames u.paramNames) seen) t.parents u.parents
  lets : List.Forall₂ (Override.Similar (SameName names) seen) t.lets u.lets
  body : List.Forall₂ (BodyItem.Similar
    (Corresponds (SameName names) t.paramNames u.paramNames) seen) t.body u.body

/-- Which classes matter, and what their parameters are called on either side. -/
structure Signature where
  needed : String → Prop
  left : String → List String
  right : String → List String

/-- The templates are of one class, and if it matters they are similar, and their parents matter. -/
structure Template.Counterpart (g : Signature) (names : String → Prop) (seen : Nat → Prop)
    (t u : Template) : Prop where
  name : t.name = u.name
  similar : g.needed t.name → t.Similar names seen u
  left : g.left t.name = t.paramNames
  right : g.right u.name = u.paramNames
  parents : g.needed t.name → ∀ q ∈ t.parents, g.needed q.name

structure DraftField.Similar (names : String → Prop) (seen : Nat → Prop) (f f' : DraftField) :
    Prop where
  name : f.name = f'.name
  type : f.type = f'.type
  value : f.value.Similar (SameName names) seen f'.value

/-- The drafts have similar fields, and classes were applied with similar bindings. -/
structure Draft.Similar (g : Signature) (names : String → Prop) (seen : Nat → Prop) (d d' : Draft) :
    Prop where
  fields : List.Forall₂ (DraftField.Similar names seen) d.fields d'.fields
  superclasses : d.superclasses = d'.superclasses
  instantiations : List.Forall₂ (fun i i' => i.1 = i'.1 ∧
    Bindings.Similar seen (g.left i.1) (g.right i.1) i.2 i'.2) d.instantiations d'.instantiations

/-! ### Arguments and bindings -/

namespace Bindings
variable {xs ys : List String} {bs bs' cs cs' : Bindings}

theorem eq_of_contents {bs cs : Bindings} (hnames : bs.map Binding.name = cs.map Binding.name)
    (hcontents : bs.map (fun b => (b.type, b.value)) = cs.map fun b => (b.type, b.value)) : bs = cs := by
  induction bs generalizing cs with
  | nil => exact (List.map_eq_nil_iff.1 hnames.symm).symm
  | cons b bs ih =>
    cases cs with
    | nil => cases hnames
    | cons c cs =>
      obtain ⟨hname, hnames⟩ := List.cons.inj hnames
      obtain ⟨hcontent, hcontents⟩ := List.cons.inj hcontents
      obtain ⟨htype, hvalue⟩ := Prod.mk.inj hcontent
      have hb : b = c := by
        cases b
        cases c
        congr
      rw [hb, ih hnames hcontents]

theorem Similar.contents (h : bs.Similar seen xs ys bs') :
    bs.map (fun b => (b.type, b.value)) = bs'.map fun b => (b.type, b.value) :=
  map_eq_of_forall₂ h.values fun _ _ hb => Prod.ext hb.1 hb.2.1

/-- Two bindings of one class are the same on one side where they are on the other. -/
theorem Similar.eq_iff (h : bs.Similar seen xs ys bs') (h' : cs.Similar seen xs ys cs') :
    bs = cs ↔ bs' = cs' := by
  constructor
  · rintro rfl
    exact eq_of_contents (h.right.trans h'.right.symm) (h.contents.symm.trans h'.contents)
  · rintro rfl
    exact eq_of_contents (h.left.trans h'.left.symm) (h.contents.trans h'.contents.symm)

theorem Similar.nil : Bindings.Similar seen [] [] [] [] := ⟨.nil, rfl, rfl⟩

theorem Similar.append (h : bs.Similar seen xs ys bs') (x y : String) (type : Ty) {v : Option Value}
    (hv : ∀ w ∈ v, w.LeadsTo seen) :
    Bindings.Similar seen (xs ++ [x]) (ys ++ [y]) (bs ++ [⟨x, type, v⟩]) (bs' ++ [⟨y, type, v⟩]) where
  values := List.rel_append h.values (.cons ⟨rfl, rfl, hv⟩ .nil)
  left := by rw [List.map_append, h.left]; rfl
  right := by rw [List.map_append, h.right]; rfl

end Bindings

theorem SimilarParams.types {xs ys : List String} {ps qs : List Param}
    (h : SimilarParams names seen xs ys ps qs) : ps.map Param.type = qs.map Param.type := by
  induction h with
  | nil => rfl
  | cons htype _ _ ih => rw [List.map_cons, List.map_cons, htype, ih]

section
variable {db db' : Database} (hdb : db.AgreesAt names seen db')
include hdb

theorem evaluateWritten_together {xs ys : List String} {outer outer' : Bindings}
    (houter : outer.Similar seen xs ys outer') {es es' : List Expr}
    (hes : Expr.SimilarAll (Corresponds (SameName names) xs ys) seen es es') {ps qs : List Param}
    (htypes : ps.map Param.type = qs.map Param.type) :
    Together (fun vs vs' => vs = vs' ∧ ∀ v ∈ vs, ∀ w ∈ v, w.LeadsTo seen)
      (evaluateWritten db outer ps es) (evaluateWritten db' outer' qs es') := by
  induction es generalizing es' ps qs with
  | nil =>
    cases hes
    exact .ok ⟨rfl, nofun⟩
  | cons e es ih =>
    cases hes with
    | cons he hes =>
      rw [evaluateWritten, evaluateWritten, ← List.head?_map, ← List.head?_map, htypes]
      refine (evaluateClosed_together hdb (he.substitute houter) _).bind fun v v' hv => ?_
      have htail : ps.tail.map Param.type = qs.tail.map Param.type := by
        rw [List.map_tail, List.map_tail, htypes]
      refine (ih hes htail).bind fun vs vs' hvs => ?_
      exact .ok ⟨hv.1 ▸ hvs.1 ▸ rfl, List.forall_mem_cons.2 ⟨hv.2, hvs.2⟩⟩

theorem paramValue_together (className className' : String) (place place' : Location)
    (missing : Missing) {xs ys : List String} {bound bound' : Bindings}
    (hbound : bound.Similar seen xs ys bound') {p q : Param} (htype : p.type = q.type)
    (hdefault : Option.Rel (Expr.Similar (Corresponds (SameName names) xs ys) seen) p.default q.default)
    {args : List (Option Value)} (hargs : ∀ arg ∈ args, ∀ w ∈ arg, w.LeadsTo seen) :
    Together (fun v v' => v = v' ∧ ∀ w ∈ v, w.LeadsTo seen)
      (paramValue db className place missing bound p args)
      (paramValue db' className' place' missing bound' q args) := by
  obtain ⟨x, type, default⟩ := p
  obtain ⟨y, type', default'⟩ := q
  obtain rfl : type = type' := htype
  unfold paramValue
  cases args with
  | cons arg args => exact .ok ⟨rfl, hargs arg (List.mem_cons_self ..)⟩
  | nil =>
    cases hdefault with
    | some he => exact evaluateClosed_together hdb (he.substitute hbound) _
    | none =>
      cases missing with
      | refused => exact .error _ _
      | unset => exact .ok ⟨rfl, fun _ h => by cases h⟩

theorem bindParams_together (className className' : String) (place place' : Location)
    (missing : Missing) {xs ys : List String} {ps qs : List Param}
    (h : SimilarParams names seen xs ys ps qs) {bound bound' : Bindings}
    (hbound : bound.Similar seen xs ys bound') {args : List (Option Value)}
    (hargs : ∀ arg ∈ args, ∀ w ∈ arg, w.LeadsTo seen) :
    Together (Bindings.Similar seen (xs ++ ps.map Param.name) (ys ++ qs.map Param.name))
      (bindParams db className place missing bound ps args)
      (bindParams db' className' place' missing bound' qs args) := by
  induction h generalizing bound bound' args with
  | nil =>
    rw [List.map_nil, List.append_nil, List.append_nil]
    exact .ok hbound
  | @cons xs ys p q ps qs htype hdefault _ ih =>
    rw [bindParams, bindParams, List.map_cons, List.map_cons, List.append_cons xs,
      List.append_cons ys, ← htype]
    refine (paramValue_together hdb className className' place place' missing hbound htype hdefault
      hargs).bind fun raw raw' hraw => ?_
    obtain ⟨rfl, hraw⟩ := hraw
    refine (assign_together hdb.store _ _ p.type place place' hraw).bind fun v v' hv => ?_
    obtain ⟨rfl, hv⟩ := hv
    exact ih (hbound.append p.name q.name p.type hv) fun arg harg =>
      hargs arg (List.mem_of_mem_tail harg)

theorem Template.bind_together {t u : Template} (h : t.Similar names seen u) (place place' : Location)
    (missing : Missing) {args : List (Option Value)} (hargs : ∀ arg ∈ args, ∀ w ∈ arg, w.LeadsTo seen) :
    Together (Bindings.Similar seen t.paramNames u.paramNames) (t.bind db args place missing)
      (u.bind db' args place' missing) := by
  have hlength : t.params.length = u.params.length := by
    simpa using congrArg List.length h.params.types
  unfold Template.bind
  rw [← hlength]
  split
  · exact .error _ _
  · exact bindParams_together hdb _ _ place place' missing h.params .nil hargs

end

/-! ### Drafts -/

/-- The references in the values remembered lead to positions that are `seen`. -/
def Memo.LeadsTo (seen : Nat → Prop) (m : Memo) : Prop :=
  ∀ name v, m.table name = some v → ∀ w ∈ v, w.LeadsTo seen

theorem Memo.LeadsTo.cons {m : Memo} (h : m.LeadsTo seen) (name : String) {v : Option Value}
    (hv : ∀ w ∈ v, w.LeadsTo seen) : Memo.LeadsTo seen ((name, v) :: m) := by
  intro other u hu
  by_cases ho : other = name
  · subst ho
    rw [Memo.table_cons_self] at hu
    exact Option.some.inj hu ▸ hv
  · exact h other u (Memo.table_cons_ne m v ho ▸ hu)

namespace Draft
variable {g : Signature} {d d' : Draft}

theorem Similar.field? (h : d.Similar g names seen d') (name : String) :
    (d.field? name = none ∧ d'.field? name = none) ∨
      ∃ f f', d.field? name = some f ∧ d'.field? name = some f' ∧ f.Similar names seen f' :=
  find?_of_forall₂ h.fields fun f f' hf => by rw [hf.name]

theorem Similar.instantiation? (h : d.Similar g names seen d') (name : String) :
    (d.instantiation? name = none ∧ d'.instantiation? name = none) ∨
      ∃ bs bs', d.instantiation? name = some bs ∧ d'.instantiation? name = some bs' ∧
        bs.Similar seen (g.left name) (g.right name) bs' := by
  unfold Draft.instantiation?
  have hinstances := h.instantiations
  generalize d.instantiations = is, d'.instantiations = is' at hinstances
  induction hinstances with
  | nil => exact .inl ⟨rfl, rfl⟩
  | @cons i i' is is' hi _ ih =>
    obtain ⟨other, bs⟩ := i
    obtain ⟨other', bs'⟩ := i'
    obtain ⟨rfl, hbs⟩ := hi
    rw [List.lookup_cons, List.lookup_cons]
    cases hname : name == other with
    | true => exact .inr ⟨bs, bs', rfl, rfl, eq_of_beq hname ▸ hbs⟩
    | false => exact ih

theorem Similar.write (h : d.Similar g names seen d') (name : String) {value value' : Expr}
    (hvalue : value.Similar (SameName names) seen value') (place place' : Location) :
    (d.write name value place).Similar g names seen (d'.write name value' place') where
  fields := by
    refine List.forall₂_map_left_iff.2 (List.forall₂_map_right_iff.2 (h.fields.imp fun f f' hf => ?_))
    unfold DraftField.write
    rw [hf.name]
    split
    · exact ⟨rfl, hf.type, hvalue⟩
    · exact hf
  superclasses := h.superclasses
  instantiations := h.instantiations

theorem Similar.addInstance (h : d.Similar g names seen d') (name : String) {bs bs' : Bindings}
    (hbs : bs.Similar seen (g.left name) (g.right name) bs') :
    (d.addInstance name bs).Similar g names seen (d'.addInstance name bs') := by
  unfold Draft.addInstance Draft.addSuperclass
  rw [h.superclasses]
  split
  · exact ⟨h.fields, h.superclasses, .cons ⟨rfl, hbs⟩ h.instantiations⟩
  · exact ⟨h.fields, rfl, .cons ⟨rfl, hbs⟩ h.instantiations⟩

theorem override_together (h : d.Similar g names seen d') {o o' : Override}
    (ho : o.Similar (SameName names) seen o') :
    Together (Similar g names seen) (d.override o) (d'.override o') := by
  unfold override
  rw [← ho.name]
  rcases h.field? o.name with ⟨hf, hf'⟩ | ⟨f, f', hf, hf', -⟩
  · rw [hf, hf']
    exact .error _ _
  · rw [hf, hf']
    exact .ok (h.write o.name ho.value _ _)

theorem declare_together (h : d.Similar g names seen d') (name : String) (type : Ty)
    (place place' : Location) {value value' : Option Expr}
    (hvalue : Option.Rel (Expr.Similar (SameName names) seen) value value') :
    Together (Similar g names seen) (d.declare name type value place)
      (d'.declare name type value' place') := by
  rcases h.field? name with ⟨hf, hf'⟩ | ⟨f, f', hf, hf', hsimilar⟩
  · obtain ⟨d₁, hd₁, hfields, hs, hi⟩ := declare_of_none hf type value place
    obtain ⟨d₁', hd₁', hfields', hs', hi'⟩ := declare_of_none hf' type value' place'
    rw [hd₁, hd₁']
    refine .ok ⟨?_, ?_, ?_⟩
    · rw [hfields, hfields']
      have hnew : (value.getD .unset).Similar (SameName names) seen (value'.getD .unset) := by
        cases hvalue with
        | some hv => exact hv
        | none => exact .unset
      exact List.rel_append h.fields (.cons ⟨rfl, rfl, hnew⟩ .nil)
    · rw [hs, hs', h.superclasses]
    · rw [hi, hi']
      exact h.instantiations
  · rw [declare_of_some hf, declare_of_some hf', hsimilar.type]
    split
    · exact .error _ _
    · cases hvalue with
      | some hv => exact .ok (h.write name hv place place')
      | none => exact .ok h

theorem applyItem_together (h : d.Similar g names seen d') {xs ys : List String} {bs bs' : Bindings}
    (hbs : bs.Similar seen xs ys bs') {item item' : BodyItem}
    (hitem : item.Similar (Corresponds (SameName names) xs ys) seen item') :
    Together (Similar g names seen) (d.applyItem bs item) (d'.applyItem bs' item') := by
  cases hitem with
  | field hvalue =>
    refine declare_together h _ _ _ _ ?_
    cases hvalue with
    | some he => exact .some (he.substitute hbs)
    | none => exact .none
  | override ho => exact override_together h ⟨ho.name, ho.value.substitute hbs⟩

theorem applyOwn_together (h : d.Similar g names seen d') {t u : Template}
    (htu : t.Similar names seen u) {bs bs' : Bindings}
    (hbs : bs.Similar seen t.paramNames u.paramNames bs') :
    Together (Similar g names seen) (d.applyOwn t bs) (d'.applyOwn u bs') := by
  refine (Together.foldlM htu.lets (fun o o' d d' ho h => override_together h ho) h).bind
    fun d₁ d₁' h₁ => ?_
  exact Together.foldlM htu.body (fun i i' d d' hi h => applyItem_together h hbs hi) h₁

section
variable {db db' : Database} (hdb : db.AgreesAt names seen db')
include hdb

/-- Parents that matter are looked up, bound and applied together. -/
theorem inherit_together {ts us : List Template}
    (hts : List.Forall₂ (Template.Counterpart g names seen) ts us) {xs ys : List String}
    {outer outer' : Bindings} (houter : outer.Similar seen xs ys outer') {q q' : ParentRef}
    (hq : q.Similar (Corresponds (SameName names) xs ys) seen q') (hneeded : g.needed q.name)
    (h : d.Similar g names seen d') :
    Together (Similar g names seen) (d.inherit db ts q outer) (d'.inherit db' us q' outer') := by
  -- the parents of a class are looked up among the classes declared before it
  induction hts generalizing d d' xs ys outer outer' q q' with
  | nil => exact .error _ _
  | @cons t u ts us htu _ ih =>
    rw [inherit, inherit, ← htu.name, ← hq.name]
    by_cases hname : t.name = q.name
    · rw [if_pos hname, if_pos hname]
      have hneeded : g.needed t.name := hname ▸ hneeded
      have hsimilar := htu.similar hneeded
      refine (evaluateWritten_together hdb houter hq.args hsimilar.params.types).bind
        fun args args' hargs => ?_
      obtain ⟨rfl, hargs⟩ := hargs
      refine (Template.bind_together hdb hsimilar _ _ .refused hargs).bind fun bs bs' hbs => ?_
      have hbs' : bs.Similar seen (g.left t.name) (g.right t.name) bs' := by
        rw [htu.left, htu.name, htu.right]
        exact hbs
      rcases h.instantiation? t.name with ⟨hi, hi'⟩ | ⟨previous, previous', hi, hi', hprevious⟩
      · rw [hi, hi']
        have hparents := (List.forall₂_and_left _ _).2 ⟨htu.parents hneeded, hsimilar.parents⟩
        refine (Together.foldlM hparents (fun p p' d d' hp h => ih hbs hp.2 hp.1 h) h).bind
          fun d₁ d₁' h₁ => ?_
        refine (applyOwn_together h₁ hsimilar hbs).bind fun d₂ d₂' h₂ => ?_
        exact .ok (h₂.addInstance t.name hbs')
      · rw [hi, hi']
        dsimp only
        by_cases hsame : previous = bs
        · rw [if_pos hsame, if_pos ((hprevious.eq_iff hbs').1 hsame)]
          exact .ok h
        · rw [if_neg hsame, if_neg fun h => hsame ((hprevious.eq_iff hbs').2 h)]
          exact .error _ _
    · rw [if_neg hname, if_neg hname]
      exact ih houter hq hneeded h

theorem ofTemplate_together {ts us : List Template}
    (hts : List.Forall₂ (Template.Counterpart g names seen) ts us) {t u : Template}
    (htu : t.Similar names seen u) (hneeded : ∀ q ∈ t.parents, g.needed q.name) {bs bs' : Bindings}
    (hbs : bs.Similar seen t.paramNames u.paramNames bs') :
    Together (Similar g names seen) (ofTemplate db ts t bs) (ofTemplate db' us u bs') := by
  have hparents := (List.forall₂_and_left _ _).2 ⟨hneeded, htu.parents⟩
  have hempty : Draft.empty.Similar g names seen .empty := ⟨.nil, rfl, .nil⟩
  refine (Together.foldlM hparents (fun p p' d d' hp h => ?_) hempty).bind fun d d' h => ?_
  · exact inherit_together hdb hts hbs hp.2 hp.1 h
  · exact applyOwn_together h htu hbs

/-! ### Values of fields -/

theorem fieldValue_together {σ : Type} {I : σ → Prop} (h : d.Similar g names seen d')
    {read read' : DraftField → Eval σ (Option Value)}
    (hread : ∀ f f', f.Similar names seen f' →
      Parallel I (fun v => ∀ w ∈ v, w.LeadsTo seen) (read f) (read' f'))
    {f f' : DraftField} (hf : f.Similar names seen f') :
    Parallel I (fun v => ∀ w ∈ v, w.LeadsTo seen) (d.fieldValue db read f)
      (d'.fieldValue db' read' f') := by
  have hscope : (d.scope db read).AgreesAt I names seen (d'.scope db' read') := by
    refine ⟨hdb, fun name => ?_⟩
    rcases h.field? name with ⟨hg, hg'⟩ | ⟨e, e', hg, hg', he⟩
    · exact .inl (by simp [scope, hg, hg'])
    · exact .inr ⟨e.type, read e, read' e', by simp [scope, hg], by simp [scope, hg', he.type],
        hread e e' he⟩
  unfold fieldValue
  rw [← hf.type]
  refine (evaluate_together hscope hf.value _).bind fun v hv => ?_
  exact .lift (assign_together hdb.store _ _ f.type f.place f'.place hv)

omit hdb in
theorem remembered_together {f f' : DraftField} (hname : f.name = f'.name)
    {compute compute' : Eval Memo (Option Value)}
    (h : Parallel (Memo.LeadsTo seen) (fun v => ∀ w ∈ v, w.LeadsTo seen) compute compute') :
    Parallel (Memo.LeadsTo seen) (fun v => ∀ w ∈ v, w.LeadsTo seen) (remembered f compute)
      (remembered f' compute') := by
  intro m hm
  rw [remembered_run, remembered_run, ← hname]
  cases hv : m.table f.name with
  | some v => exact .ok ⟨rfl, hm f.name v hv, hm⟩
  | none => exact h m hm

/-- A visit begins and ends with the same memo on both sides, in which references lead where is seen. -/
theorem resolve_together (h : d.Similar g names seen d') (depth : Nat) (path : List String)
    {f f' : DraftField} (hf : f.Similar names seen f') :
    Parallel (Memo.LeadsTo seen) (fun v => ∀ w ∈ v, w.LeadsTo seen) (d.resolve db depth path f)
      (d'.resolve db' depth path f') := by
  induction depth generalizing path f f' with
  | zero => exact remembered_together hf.name (.throw _ _)
  | succ depth ih =>
    refine remembered_together hf.name ?_
    rw [← hf.name]
    by_cases hp : path.contains f.name
    · simp only [hp, if_true]
      exact .throw _ _
    · simp only [hp]
      have hremember : ∀ v : Option Value, (∀ w ∈ v, w.LeadsTo seen) →
          Parallel (Memo.LeadsTo seen) (fun _ => True)
            (modify fun memo => (f.name, v) :: memo : Eval Memo Unit)
            (modify fun memo => (f.name, v) :: memo) :=
        fun v hv m hm => .ok ⟨rfl, trivial, hm.cons f.name hv⟩
      exact (fieldValue_together hdb h (fun _ _ => ih (f.name :: path)) hf).bind fun v hv =>
        (hremember v hv).bind fun _ _ => .pure hv

theorem resolveAll_together (h : d.Similar g names seen d') {fs fs' : List DraftField}
    (hfs : List.Forall₂ (DraftField.Similar names seen) fs fs') :
    Parallel (Memo.LeadsTo seen) (fun _ => True) (d.resolveAll db fs) (d'.resolveAll db' fs') := by
  induction hfs with
  | nil => exact .pure trivial
  | cons hf _ ih =>
    rw [resolveAll, resolveAll, ← h.fields.length_eq]
    exact (resolve_together hdb h _ [] hf).bind fun _ _ => ih

/-- Drafts that are similar are finished together, with the same record. -/
theorem finish_together (h : d.Similar g names seen d') (name : String) (anonymous isClass : Bool)
    (direct : List String) :
    Together Eq (d.finish db name anonymous isClass direct)
      (d'.finish db' name anonymous isClass direct) := by
  have hstart : Memo.LeadsTo seen [] := nofun
  have hvalues : Together Eq (d.values db d.fields) (d'.values db' d'.fields) :=
    (resolveAll_together hdb h h.fields [] hstart).bind fun _ _ hr => .ok (congrArg Prod.snd hr.1)
  have hfields : ∀ m : Memo, d.fields.map (fun f => Field.mk f.name f.type (m.lookup f.name).join) =
      d'.fields.map fun f => ⟨f.name, f.type, (m.lookup f.name).join⟩ := fun m =>
    map_eq_of_forall₂ h.fields fun f f' hf => by rw [hf.name, hf.type]
  refine hvalues.bind fun m m' hm => .ok ?_
  rw [hfields, h.superclasses, hm]

end
end Draft

namespace Template

theorem Similar.directSuperclasses {t u : Template} (h : t.Similar names seen u) :
    t.directSuperclasses = u.directSuperclasses :=
  directSuperclasses_congr (map_eq_of_forall₂ h.parents fun _ _ => ParentRef.Similar.name)

/-- Templates without parameters need no bindings. -/
theorem Similar.bindings_nil {t u : Template} (h : t.Similar names seen u) (hparams : t.params = []) :
    Bindings.Similar seen t.paramNames u.paramNames [] [] := by
  have hu := h.params
  unfold paramNames
  rw [hparams] at hu ⊢
  generalize u.params = ps at hu
  cases hu
  exact .nil

/-- The parameters of the class of a name. -/
def paramsOf (ts : List Template) (name : String) : List String :=
  (ts.find? fun t => t.name = name).elim [] paramNames

theorem paramsOf_eq {ts : List Template} (hnames : (ts.map Template.name).Nodup) {t : Template}
    (ht : t ∈ ts) : paramsOf ts t.name = t.paramNames := by
  have hsome : (ts.find? fun u => u.name = t.name).isSome := List.find?_isSome.2 ⟨t, ht, by simp⟩
  obtain ⟨u, hu⟩ := Option.isSome_iff_exists.1 hsome
  have hname : u.name = t.name := by simpa using List.find?_some hu
  rw [paramsOf, hu, List.inj_on_of_nodup_map hnames (List.mem_of_find?_eq_some hu) ht hname]
  rfl

end Template
end TypedRecords
