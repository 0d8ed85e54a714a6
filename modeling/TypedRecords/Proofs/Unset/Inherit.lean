import TypedRecords.Proofs.Inherit.Visits
import TypedRecords.Proofs.Unset.Bind

/-!
# Inheritance with parts left unset

A template that is built under bindings below others goes through the same classes, with bindings
below theirs, and has the same fields, with expressions that differ in what is bound in them, or it
fails as something wants a value (`Draft.ofTemplate_follows`): an argument, a default, or the question
whether two paths to a class bind it alike, which they may do only as long as every value is set.
-/

namespace TypedRecords
variable {db : Database} {bs bs' : Bindings}

/-! ### Classes under two bindings -/

/-- A class that is inherited, bound without the arguments of an instance and with them. -/
structure Inherited where
  template : Template
  unset : Bindings
  given : Bindings

/-- The templates where a parent is looked up have the class it names in front of `older`. -/
structure ParentRef.Finds (ts : List Template) (p : ParentRef) (t : Template) (older : List Template) :
    Prop where
  found : ∃ newer, ts = newer ++ t :: older ∧ ∀ s ∈ newer, s.name ≠ p.name
  name : t.name = p.name

namespace Inherited
variable (db : Database) (ts : List Template) (c : Inherited)

/-- The class inherits the other one, whose own parents are looked up in the templates listed. -/
inductive Reaches : List Template → Inherited → Prop
  | self : Reaches ts c
  | parent {older older' : List Template} {b a : Inherited} {p : ParentRef} (hb : Reaches older b)
      (hp : p ∈ b.template.parents) (hunset : p.Leads db older b.unset ⟨a.template, a.unset⟩ older')
      (hgiven : p.Leads db older b.given ⟨a.template, a.given⟩ older') : Reaches older' a

/-- What a class inherits wants a value: an argument that is written for a parent, the default of a
parameter that has no argument, or the second of two paths to a class that bind it differently
without the arguments and alike with them. -/
inductive Wants : ParseError → Prop
  | argument {older older' : List Template} {b : Inherited} {p : ParentRef} {t : Template} {i : Nat}
      {e : Expr} {q : Param} {err : ParseError} (hb : Reaches db ts c older b)
      (hp : p ∈ b.template.parents) (ht : p.Finds older t older') (he : p.args[i]? = some e)
      (hq : t.params[i]? = some q) (h : q.Wants db t.name p.place e b.unset b.given err) : Wants err
  | default {older older' : List Template} {b : Inherited} {p : ParentRef} {t : Template} {i : Nat}
      {args args' : List (Option Value)} {bound bound' : Bindings} {e : Expr} {q : Param}
      {err : ParseError} (hb : Reaches db ts c older b) (hp : p ∈ b.template.parents)
      (ht : p.Finds older t older') (hargs : evaluateWritten db b.unset t.params p.args = .ok args)
      (hargs' : evaluateWritten db b.given t.params p.args = .ok args') (hlen : p.args.length ≤ i)
      (hq : t.params[i]? = some q) (he : q.default = some e)
      (hbound : bindParams db t.name p.place .refused [] (t.params.take i) args = .ok bound)
      (hbound' : bindParams db t.name p.place .refused [] (t.params.take i) args' = .ok bound')
      (h : q.Wants db t.name p.place e bound bound' err) : Wants err
  | diamond {older older' earlier : List Template} {b a a₁ : Inherited} {p : ParentRef}
      (hb : Reaches db ts c older b) (hp : p ∈ b.template.parents)
      (hunset : p.Leads db older b.unset ⟨a.template, a.unset⟩ older')
      (hgiven : p.Leads db older b.given ⟨a.template, a.given⟩ older')
      (ha₁ : Reaches db ts c earlier a₁) (hname : a₁.template.name = a.template.name)
      (hdiffer : a₁.unset ≠ a.unset) (hagree : a₁.given = a.given) :
      Wants ⟨.diamond a.template.name, p.place⟩

end Inherited

namespace ParentRef.Finds
variable {ts older : List Template} {p : ParentRef} {t : Template}

theorem leads (h : p.Finds ts t older) {outer : Bindings} {args : List (Option Value)}
    (hargs : evaluateWritten db outer t.params p.args = .ok args)
    (hbs : t.bind db args p.place .refused = .ok bs) : p.Leads db ts outer ⟨t, bs⟩ older :=
  ⟨h.found, h.name, args, hargs, hbs⟩

end ParentRef.Finds

/-- The parameters of a parent are bound to values below, or the parent wants a value. -/
theorem bindParent_follows {ts older older' : List Template} {c b : Inherited} {p : ParentRef}
    {t : Template} (hb : c.Reaches db ts older b) (hp : p ∈ b.template.parents)
    (ht : p.Finds older t older') (hbs : b.unset.Le b.given) :
    Follows (c.Wants db ts) Bindings.Le
      (do
        let args ← evaluateWritten db b.unset t.params p.args
        t.bind db args p.place .refused)
      (do
        let args ← evaluateWritten db b.given t.params p.args
        t.bind db args p.place .refused) := by
  intro bs' hbs'
  -- the instance has a parameter for each argument
  obtain ⟨args', hargs', hbind'⟩ := bind_eq_ok.1 hbs'
  have hlen' : p.args.length ≤ t.params.length :=
    length_of_evaluateWritten hargs' ▸ (Template.bind_eq_ok_iff.1 hbind').1
  have hwritten : ∀ e ∈ p.args, ∀ err,
      e.Wants db.store (Expr.Compares (.closed db) (.closed db) b.unset b.given) err →
        c.Wants db ts err := by
    intro e he err hwants
    obtain ⟨i, hi, rfl⟩ := List.getElem_of_mem he
    exact .argument hb hp ht (List.getElem?_eq_getElem hi)
      (List.getElem?_eq_getElem (hi.trans_le hlen')) (.inside hwants)
  refine ((evaluateWritten_follows hbs t.params p.args hwritten).bind
    fun args args' hargs hx hy => ?_) bs' hbs'
  unfold Template.bind
  rw [hargs.length_eq]
  split
  · exact .error _ _
  · refine bindParams_follows .nil t.params hargs (fun i q v w hq hv hw hlacks => ?_)
      fun i q e bound bound' hq he hi hbound hbound' err hwants => ?_
    · obtain ⟨e, he, hcompares⟩ := compares_of_evaluateWritten hx hy hv hw
      exact .argument hb hp ht he hq (.converted hcompares hlacks)
    · exact .default hb hp ht hx hy (length_of_evaluateWritten hx ▸ hi) hq he hbound hbound' hwants

/-! ### Drafts -/

namespace Expr

mutual

theorem substitute_nil : ∀ e : Expr, e.substitute [] = e
  | unset | int _ | string _ | code _ | bound _ _ => by rw [substitute]
  | reference _ _ => by
    rw [substitute]
    rfl
  | bits items _ => by rw [substitute, substituteAll_nil items]
  | list items _ _ => by rw [substitute, substituteAll_nil items]
  | dag operator args _ => by rw [substitute, substitute_nil operator, substituteArgs_nil args]
  | bang _ args _ => by rw [substitute, substituteAll_nil args]

theorem substituteAll_nil : ∀ es : List Expr, substituteAll [] es = es
  | [] => by rw [substituteAll]
  | e :: es => by rw [substituteAll, substitute_nil e, substituteAll_nil es]

theorem substituteArgs_nil : ∀ as : List (DagArg Expr), substituteArgs [] as = as
  | [] => by rw [substituteArgs]
  | ⟨_, some e⟩ :: as => by rw [substituteArgs, substitute_nil e, substituteArgs_nil as]
  | ⟨_, none⟩ :: as => by rw [substituteArgs, substituteArgs_nil as]

end

/-- The first expression is the second with bindings below in place of those of the second. -/
def Le (e e' : Expr) : Prop :=
  ∃ (written : Expr) (bs bs' : Bindings), bs.Le bs' ∧
    e = written.substitute bs ∧ e' = written.substitute bs'

theorem Le.refl (e : Expr) : e.Le e := ⟨e, [], [], .nil, e.substitute_nil.symm, e.substitute_nil.symm⟩

theorem Le.substitute (hbs : bs.Le bs') (e : Expr) : (e.substitute bs).Le (e.substitute bs') :=
  ⟨e, bs, bs', hbs, rfl, rfl⟩

end Expr

structure DraftField.Le (f f' : DraftField) : Prop where
  name : f.name = f'.name
  type : f.type = f'.type
  value : f.value.Le f'.value
  place : f.place = f'.place

theorem DraftField.Le.write {f f' : DraftField} (h : f.Le f') (name : String) {value value' : Expr}
    (hvalue : value.Le value') (place : Location) :
    (f.write name value place).Le (f'.write name value' place) := by
  unfold DraftField.write
  rw [h.name]
  split
  · exact ⟨rfl, h.type, hvalue, rfl⟩
  · exact h

namespace Draft
variable {d d' : Draft}

/-- The two drafts have the same fields and superclasses, with expressions of the first below those of
the second, and bindings of the superclasses that `O` relates. -/
structure Le (O : String → Bindings → Bindings → Prop) (d d' : Draft) : Prop where
  fields : List.Forall₂ DraftField.Le d.fields d'.fields
  superclasses : d.superclasses = d'.superclasses
  instantiations : List.Forall₂ (fun i i' => i.1 = i'.1 ∧ O i.1 i.2 i'.2)
    d.instantiations d'.instantiations

variable {O : String → Bindings → Bindings → Prop} {N : ParseError → Prop}

theorem Le.field? (h : d.Le O d') (name : String) :
    (d.field? name = none ∧ d'.field? name = none) ∨
      ∃ f f', d.field? name = some f ∧ d'.field? name = some f' ∧ f.Le f' :=
  find?_of_forall₂ h.fields fun f f' hf => by rw [hf.name]

theorem Le.instantiation? (h : d.Le O d') (name : String) :
    (d.instantiation? name = none ∧ d'.instantiation? name = none) ∨
      ∃ bs bs', d.instantiation? name = some bs ∧ d'.instantiation? name = some bs' ∧
        O name bs bs' := by
  unfold Draft.instantiation?
  have hinstances := h.instantiations
  generalize d.instantiations = is, d'.instantiations = is' at hinstances
  induction hinstances with
  | nil => exact .inl ⟨rfl, rfl⟩
  | @cons i i' is is' hi _ ih =>
    obtain ⟨other, bs⟩ := i
    obtain ⟨other', bs'⟩ := i'
    obtain ⟨hname, hbs⟩ := hi
    obtain rfl : other = other' := hname
    rw [List.lookup_cons, List.lookup_cons]
    by_cases hname : name = other
    · subst hname
      rw [beq_self_eq_true]
      exact .inr ⟨bs, bs', rfl, rfl, hbs⟩
    · rw [beq_eq_false_iff_ne.2 hname]
      exact ih

theorem Le.write (h : d.Le O d') (name : String) {value value' : Expr} (hvalue : value.Le value')
    (place : Location) : (d.write name value place).Le O (d'.write name value' place) where
  fields := List.forall₂_map_left_iff.2 (List.forall₂_map_right_iff.2
    (h.fields.imp fun _ _ hf => hf.write name hvalue place))
  superclasses := h.superclasses
  instantiations := h.instantiations

theorem Le.addInstance (h : d.Le O d') {name : String} (hbs : O name bs bs') :
    (d.addInstance name bs).Le O (d'.addInstance name bs') := by
  unfold Draft.addInstance Draft.addSuperclass
  rw [h.superclasses]
  split
  · exact ⟨h.fields, h.superclasses, .cons ⟨rfl, hbs⟩ h.instantiations⟩
  · exact ⟨h.fields, rfl, .cons ⟨rfl, hbs⟩ h.instantiations⟩

theorem override_follows (h : d.Le O d') {name : String} {value value' : Expr}
    (hvalue : value.Le value') {place : Location} :
    Follows N (Le O) (d.override ⟨name, value, place⟩) (d'.override ⟨name, value', place⟩) := by
  unfold Draft.override
  rcases h.field? name with ⟨hf, hf'⟩ | ⟨f, f', hf, hf', -⟩
  · rw [hf, hf']
    exact .error _ _
  · rw [hf, hf']
    exact .ok (h.write name hvalue place)

theorem declare_follows (h : d.Le O d') {name : String} {type : Ty} {place : Location}
    {value value' : Option Expr} (hvalue : Option.Rel Expr.Le value value') :
    Follows N (Le O) (d.declare name type value place) (d'.declare name type value' place) := by
  rcases h.field? name with ⟨hf, hf'⟩ | ⟨f, f', hf, hf', hle⟩
  · obtain ⟨d₁, hd₁, hfields, hs, hi⟩ := declare_of_none hf type value place
    obtain ⟨d₁', hd₁', hfields', hs', hi'⟩ := declare_of_none hf' type value' place
    rw [hd₁, hd₁']
    refine .ok ⟨?_, ?_, ?_⟩
    · rw [hfields, hfields']
      have hnew : (value.getD .unset).Le (value'.getD .unset) := by
        cases hvalue with
        | some hv => exact hv
        | none => exact .refl _
      exact List.rel_append h.fields (.cons ⟨rfl, rfl, hnew, rfl⟩ .nil)
    · rw [hs, hs', h.superclasses]
    · rw [hi, hi']
      exact h.instantiations
  · rw [declare_of_some hf, declare_of_some hf', hle.type]
    split
    · exact .error _ _
    · cases hvalue with
      | some hv => exact .ok (h.write name hv place)
      | none => exact .ok h

theorem applyItem_follows (h : d.Le O d') (hbs : bs.Le bs') (item : BodyItem) :
    Follows N (Le O) (d.applyItem bs item) (d'.applyItem bs' item) := by
  cases item with
  | field name type value place =>
    refine declare_follows h ?_
    cases value with
    | none => exact .none
    | some e => exact .some (.substitute hbs e)
  | override o => exact override_follows h (.substitute hbs o.value)

theorem applyOwn_follows (h : d.Le O d') (hbs : bs.Le bs') (t : Template) :
    Follows N (Le O) (d.applyOwn t bs) (d'.applyOwn t bs') := by
  refine (Follows.foldlM (fun o _ d d' h => ?_) h).bind fun d₁ d₁' h₁ _ _ => ?_
  · exact override_follows h (.refl o.value)
  · exact Follows.foldlM (fun item _ d d' h => applyItem_follows h hbs item) h₁

end Draft

namespace Inherited
variable {ts : List Template} {c : Inherited}

def Binds (db : Database) (ts : List Template) (c : Inherited) (name : String) (bs bs' : Bindings) :
    Prop :=
  ∃ older a, c.Reaches db ts older a ∧ a.template.name = name ∧ a.unset = bs ∧ a.given = bs'

end Inherited

namespace Draft
variable {d d' : Draft} {ts : List Template} {c : Inherited}

theorem inherit_of_finds {all older : List Template} {p : ParentRef} {t : Template}
    (h : p.Finds all t older) (d : Draft) (outer : Bindings) :
    d.inherit db all p outer = (do
      let args ← evaluateWritten db outer t.params p.args
      t.bind db args p.place .refused) >>= fun bs =>
        match d.instantiation? t.name with
        | some previous =>
          if previous = bs then .ok d else .error ⟨.diamond t.name, p.place⟩
        | none => do
          let d ← t.parents.foldlM (fun d p => inherit db older d p bs) d
          let d ← d.applyOwn t bs
          return d.addInstance t.name bs := by
  obtain ⟨⟨newer, rfl, hnewer⟩, hname⟩ := h
  induction newer with
  | nil =>
    rw [List.nil_append, inherit, if_pos hname, bind_assoc]
    rfl
  | cons s newer ih =>
    obtain ⟨hs, hnewer⟩ := List.forall_mem_cons.1 hnewer
    rw [List.cons_append, inherit, if_neg hs]
    exact ih hnewer

theorem exists_finds {all : List Template} {p : ParentRef} {outer : Bindings}
    (h : d.inherit db all p outer = .ok d') : ∃ t older, p.Finds all t older := by
  obtain ⟨a, older, ha⟩ := exists_leads h
  exact ⟨a.template, older, ha.found, ha.gives.1⟩

/-- Parents are bound and applied alike; where a class was applied before, it may differ now what is
bound. -/
theorem inherit_follows {older : List Template} {b : Inherited} (hb : c.Reaches db ts older b)
    (hbs : b.unset.Le b.given) {p : ParentRef} (hp : p ∈ b.template.parents)
    (h : d.Le (c.Binds db ts) d') :
    Follows (c.Wants db ts) (Le (c.Binds db ts)) (d.inherit db older p b.unset)
      (d'.inherit db older p b.given) := by
  -- the parents of a class are looked up in fewer templates than the class
  induction hn : older.length using Nat.strong_induction_on generalizing older b d d' p with
  | h n ih =>
    intro r hr
    obtain ⟨t, older', ht⟩ := exists_finds hr
    revert r
    rw [inherit_of_finds ht, inherit_of_finds ht]
    refine (bindParent_follows hb hp ht hbs).bind fun bs bs' hbs hx hy => ?_
    obtain ⟨args, hargs, hbind⟩ := bind_eq_ok.1 hx
    obtain ⟨args', hargs', hbind'⟩ := bind_eq_ok.1 hy
    have hunset := ht.leads hargs hbind
    have hgiven := ht.leads hargs' hbind'
    have ha : c.Reaches db ts older' ⟨t, bs, bs'⟩ := .parent hb hp hunset hgiven
    rcases h.instantiation? t.name with ⟨hi, hi'⟩ | ⟨_, _, hi, hi', earlier, a₁, ha₁, hname, rfl, rfl⟩
    · rw [hi, hi']
      have hlt : older'.length < n := by
        have := hunset.older_suffix.length_le
        rw [List.length_cons] at this
        omega
      have hparents : ∀ q ∈ t.parents, ∀ d d' : Draft, d.Le (c.Binds db ts) d' →
          Follows (c.Wants db ts) (Le (c.Binds db ts)) (d.inherit db older' q bs)
            (d'.inherit db older' q bs') :=
        fun q hq d d' h => ih _ hlt ha hbs hq h rfl
      refine (Follows.foldlM hparents h).bind fun d₁ d₁' h₁ _ _ => ?_
      refine (applyOwn_follows h₁ hbs t).bind fun d₂ d₂' h₂ _ _ => ?_
      exact .ok (h₂.addInstance ⟨_, _, ha, rfl, rfl, rfl⟩)
    · rw [hi, hi']
      dsimp only
      split
      · split
        · exact .ok h
        · exact .error _ _
      · rename_i hdiffer
        split
        · rename_i hagree
          exact .error_left fun _ _ =>
            .diamond (a := ⟨t, bs, bs'⟩) hb hp hunset hgiven ha₁ hname hdiffer hagree
        · exact .error _ _

theorem ofTemplate_follows (ts : List Template) (t : Template) (hbs : bs.Le bs') :
    Follows (Inherited.Wants db ts ⟨t, bs, bs'⟩) (Le (Inherited.Binds db ts ⟨t, bs, bs'⟩))
      (ofTemplate db ts t bs) (ofTemplate db ts t bs') := by
  have hempty : empty.Le (Inherited.Binds db ts ⟨t, bs, bs'⟩) empty := ⟨.nil, rfl, .nil⟩
  have hself : Inherited.Reaches db ts ⟨t, bs, bs'⟩ ts ⟨t, bs, bs'⟩ := .self
  have hparents : ∀ p ∈ t.parents, ∀ d d' : Draft, d.Le (Inherited.Binds db ts ⟨t, bs, bs'⟩) d' →
      Follows (Inherited.Wants db ts ⟨t, bs, bs'⟩) (Le (Inherited.Binds db ts ⟨t, bs, bs'⟩))
        (d.inherit db ts p bs) (d'.inherit db ts p bs') :=
    fun p hp d d' h => inherit_follows hself hbs hp h
  exact (Follows.foldlM hparents hempty).bind fun d d' h _ _ => applyOwn_follows h hbs t

end Draft
end TypedRecords
