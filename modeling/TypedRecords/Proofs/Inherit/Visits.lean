import Mathlib.Data.List.Nodup
import Mathlib.Data.List.Infix
import TypedRecords.Proofs.Draft.Items
import TypedRecords.Draft.Inherit

/-!
# The order in which classes are inherited

`Visits` is the recursion of inheritance with the draft left out: the classes are visited from the
parents downwards, and each class is listed behind its own parents. A draft that inherits with
success goes through such visits (`inheritAll_visits`), and what it becomes is what the classes that
are new to it do to it one after the other.
-/

namespace TypedRecords

/-- A class as a record inherits it: its template and what its parameters are bound to. -/
@[ext]
structure Ancestor where
  template : Template
  bindings : Bindings

namespace Ancestor

def name (a : Ancestor) : String := a.template.name

def items (a : Ancestor) : List BodyItem := a.template.items a.bindings

end Ancestor

theorem length_of_evaluateWritten {db : Database} {outer : Bindings} {ps : List Param} {es : List Expr}
    {args : List (Option Value)} (h : evaluateWritten db outer ps es = .ok args) :
    args.length = es.length := by
  induction es generalizing ps args with
  | nil => exact Except.ok.inj h ▸ rfl
  | cons e es ih =>
    obtain ⟨v, -, h⟩ := bind_eq_ok.1 h
    obtain ⟨vs, hvs, h⟩ := bind_eq_ok.1 h
    rw [← pure_eq_ok.1 h, List.length_cons, List.length_cons, ih hvs]

namespace ParentRef

/-- The class and the bindings that a parent written under the bindings `outer` stands for. -/
def Gives (db : Database) (outer : Bindings) (p : ParentRef) (a : Ancestor) : Prop :=
  a.name = p.name ∧ ∃ args, evaluateWritten db outer a.template.params p.args = .ok args ∧
    a.template.bind db args p.place .refused = .ok a.bindings

theorem Gives.unique {db : Database} {outer : Bindings} {p : ParentRef} {a b : Ancestor}
    (ha : p.Gives db outer a) (hb : p.Gives db outer b) (h : a.template = b.template) : a = b := by
  obtain ⟨-, args, hargs, hbs⟩ := ha
  obtain ⟨-, args', hargs', hcs⟩ := hb
  rw [← h] at hargs' hcs
  obtain rfl := Except.ok.inj (hargs.symm.trans hargs')
  exact Ancestor.ext h (Except.ok.inj (hbs.symm.trans hcs))

/-- The class that a parent stands for is found in front of the templates `older`. -/
structure Leads (db : Database) (ts : List Template) (outer : Bindings) (p : ParentRef)
    (a : Ancestor) (older : List Template) : Prop where
  found : ∃ newer, ts = newer ++ a.template :: older ∧ ∀ t ∈ newer, t.name ≠ p.name
  gives : p.Gives db outer a

namespace Leads
variable {db : Database} {ts older : List Template} {outer : Bindings} {p : ParentRef} {a : Ancestor}

theorem mem (h : p.Leads db ts outer a older) : a.template ∈ ts := by
  obtain ⟨newer, rfl, -⟩ := h.found
  simp

theorem older_suffix (h : p.Leads db ts outer a older) : a.template :: older <:+ ts := by
  obtain ⟨newer, rfl, -⟩ := h.found
  exact List.suffix_append ..

theorem cons {t : Template} (h : p.Leads db ts outer a older) (ht : t.name ≠ p.name) :
    p.Leads db (t :: ts) outer a older := by
  obtain ⟨⟨newer, rfl, hnewer⟩, hgives⟩ := h
  exact ⟨⟨t :: newer, rfl, List.forall_mem_cons.2 ⟨ht, hnewer⟩⟩, hgives⟩

/-- Where names are distinct, the class is none of those that come from the templates behind it. -/
theorem name_not_mem (h : p.Leads db ts outer a older) (hts : (ts.map Template.name).Nodup)
    {as : List Ancestor} (has : ∀ b ∈ as, b.template ∈ older) : a.name ∉ as.map Ancestor.name := by
  have hnd : ((a.template :: older).map Template.name).Nodup :=
    hts.sublist (h.older_suffix.sublist.map _)
  intro hmem
  obtain ⟨b, hb, hname⟩ := List.mem_map.1 hmem
  exact (List.nodup_cons.1 hnd).1 (List.mem_map.2 ⟨b.template, has b hb, hname⟩)

end Leads
end ParentRef

/-- The classes `as` become `as'` where the parents `ps`, written under the bindings `outer`, are
visited: a class that is listed is passed over, any other is listed behind its own parents. -/
inductive Visits (db : Database) :
    List Template → Bindings → List ParentRef → List Ancestor → List Ancestor → Prop
  | nil {ts : List Template} {outer : Bindings} {as : List Ancestor} : Visits db ts outer [] as as
  | again {ts older : List Template} {outer : Bindings} {p : ParentRef} {ps : List ParentRef}
      {a : Ancestor} {as as' : List Ancestor} (h : p.Leads db ts outer a older) (ha : a ∈ as)
      (rest : Visits db ts outer ps as as') : Visits db ts outer (p :: ps) as as'
  | fresh {ts older : List Template} {outer : Bindings} {p : ParentRef} {ps : List ParentRef}
      {a : Ancestor} {as as₁ as' : List Ancestor} (h : p.Leads db ts outer a older)
      (parents : Visits db older a.bindings a.template.parents as as₁)
      (rest : Visits db ts outer ps (as₁ ++ [a]) as') : Visits db ts outer (p :: ps) as as'

namespace Draft
variable {db : Database}

def inheritAll (db : Database) (ts : List Template) (d : Draft) (ps : List ParentRef)
    (outer : Bindings) : Except ParseError Draft :=
  ps.foldlM (fun d p => inherit db ts d p outer) d

/-- Applies a class alone, without its parents. -/
def applyClass (d : Draft) (a : Ancestor) : Except ParseError Draft := do
  return (← a.items.foldlM execute d).addInstance a.name a.bindings

variable {ts older : List Template} {p : ParentRef} {outer : Bindings} {a : Ancestor}

theorem exists_leads {d d' : Draft} (h : d.inherit db ts p outer = .ok d') :
    ∃ a older, p.Leads db ts outer a older := by
  induction ts with
  | nil => cases h
  | cons t ts ih =>
    rw [inherit] at h
    by_cases ht : t.name = p.name
    · rw [if_pos ht] at h
      obtain ⟨args, hargs, h⟩ := bind_eq_ok.1 h
      obtain ⟨bs, hbs, -⟩ := bind_eq_ok.1 h
      exact ⟨⟨t, bs⟩, ts, ⟨[], rfl, List.forall_mem_nil _⟩, ht, args, hargs, hbs⟩
    · rw [if_neg ht] at h
      obtain ⟨a, older, ha⟩ := ih h
      exact ⟨a, older, ha.cons ht⟩

/-- What a parent does depends on the class that it leads to, on its bindings, and on what the draft has
applied of the class. -/
theorem inherit_of_leads (h : p.Leads db ts outer a older) (d : Draft) :
    d.inherit db ts p outer =
      match d.instantiation? a.name with
      | some previous =>
        if previous = a.bindings then .ok d else .error ⟨.diamond a.name, p.place⟩
      | none => d.inheritAll db older a.template.parents a.bindings >>= (·.applyClass a) := by
  obtain ⟨⟨newer, rfl, hnewer⟩, hname, args, hargs, hbind⟩ := h
  induction newer with
  | nil =>
    have hname : a.template.name = p.name := hname
    rw [List.nil_append, inherit, if_pos hname, bind_of_ok hargs, bind_of_ok hbind]
    simp only [applyClass, Ancestor.items, ← applyOwn_eq]
    rfl
  | cons t newer ih =>
    obtain ⟨ht, hnewer⟩ := List.forall_mem_cons.1 hnewer
    rw [List.cons_append, inherit, if_neg ht]
    exact ih hnewer

/-- What a parent does: the class it stands for was applied with the same bindings and the draft
stays, or the class was not applied and is, behind its own parents. -/
theorem inherit_eq_ok {d d' : Draft} (h : d.inherit db ts p outer = .ok d') :
    ∃ a older, p.Leads db ts outer a older ∧
      ((d.instantiation? a.name = some a.bindings ∧ d' = d) ∨
        (d.instantiation? a.name = none ∧ ∃ d₁,
          d.inheritAll db older a.template.parents a.bindings = .ok d₁ ∧
          d₁.applyClass a = .ok d')) := by
  obtain ⟨a, older, ha⟩ := exists_leads h
  refine ⟨a, older, ha, ?_⟩
  rw [inherit_of_leads ha] at h
  cases hd : d.instantiation? a.name with
  | some previous =>
    rw [hd] at h
    dsimp only at h
    by_cases hp : previous = a.bindings
    · rw [if_pos hp] at h
      exact .inl ⟨congrArg some hp, (Except.ok.inj h).symm⟩
    · rw [if_neg hp] at h
      cases h
  | none =>
    rw [hd] at h
    exact .inr ⟨rfl, bind_eq_ok.1 h⟩

/-- The classes applied to the draft are those listed, with the bindings listed, each once. -/
structure Holds (d : Draft) (as : List Ancestor) : Prop where
  superclasses : d.superclasses = as.map Ancestor.name
  instantiations : d.instantiations = (as.map fun a => (a.name, a.bindings)).reverse
  nodup : (as.map Ancestor.name).Nodup

namespace Holds
variable {d d' : Draft} {as : List Ancestor}

theorem empty : Draft.empty.Holds [] := ⟨rfl, rfl, .nil⟩

theorem mem_of_instantiation? (h : d.Holds as) {name : String} {bs : Bindings}
    (hd : d.instantiation? name = some bs) : ∃ a ∈ as, a.name = name ∧ a.bindings = bs := by
  rw [instantiation?, h.instantiations] at hd
  obtain ⟨before, after, heq, -⟩ := List.lookup_eq_some_iff.1 hd
  have hmem : (name, bs) ∈ (as.map fun a => (a.name, a.bindings)).reverse := by simp [heq]
  obtain ⟨a, ha, he⟩ := List.mem_map.1 (List.mem_reverse.1 hmem)
  exact ⟨a, ha, congrArg Prod.fst he, congrArg Prod.snd he⟩

theorem instantiation?_of_mem (h : d.Holds as) {a : Ancestor} (ha : a ∈ as) :
    d.instantiation? a.name = some a.bindings := by
  cases hd : d.instantiation? a.name with
  | none =>
    rw [instantiation?, h.instantiations, List.lookup_eq_none_iff] at hd
    simpa using hd _ (List.mem_reverse.2 (List.mem_map.2 ⟨a, ha, rfl⟩))
  | some bs =>
    obtain ⟨b, hb, hname, hbs⟩ := h.mem_of_instantiation? hd
    obtain rfl := List.inj_on_of_nodup_map h.nodup hb ha hname
    rw [hbs]

theorem not_mem_of_instantiation? (h : d.Holds as) {name : String}
    (hd : d.instantiation? name = none) : name ∉ as.map Ancestor.name := by
  intro hmem
  obtain ⟨a, ha, rfl⟩ := List.mem_map.1 hmem
  rw [h.instantiation?_of_mem ha] at hd
  cases hd

theorem execute (h : d.Holds as) {items : List BodyItem}
    (hd : items.foldlM Draft.execute d = .ok d') : d'.Holds as := by
  obtain ⟨hs, hi⟩ := foldlM_execute_instances hd
  exact ⟨hs.trans h.superclasses, hi.trans h.instantiations, h.nodup⟩

theorem applyClass (h : d.Holds as) {a : Ancestor} (ha : a.name ∉ as.map Ancestor.name)
    (hd : d.applyClass a = .ok d') : d'.Holds (as ++ [a]) := by
  obtain ⟨d₁, hitems, hd⟩ := bind_eq_ok.1 hd
  have h₁ := h.execute hitems
  obtain rfl := pure_eq_ok.1 hd
  have hnew : ¬d₁.superclasses.contains a.name = true := by
    rw [h₁.superclasses, List.contains_iff_mem]
    exact ha
  have hadd : d₁.addSuperclass a.name =
      { d₁ with superclasses := d₁.superclasses ++ [a.name] } := if_neg hnew
  unfold addInstance
  rw [hadd]
  refine ⟨?_, ?_, ?_⟩
  · simp [h₁.superclasses]
  · simp [h₁.instantiations]
  · rw [List.map_append]
    exact List.concat_eq_append ▸ h.nodup.concat ha

theorem mem_of_applied (h : d.Holds as) {ts : List Template} (hts : (ts.map Template.name).Nodup)
    (has : ∀ b ∈ as, b.template ∈ ts) {a : Ancestor} (ha : a.template ∈ ts)
    (hd : d.instantiation? a.name = some a.bindings) : a ∈ as := by
  obtain ⟨b, hb, hname, hbs⟩ := h.mem_of_instantiation? hd
  have hab : b.template = a.template := List.inj_on_of_nodup_map hts (has b hb) ha hname
  obtain rfl : b = a := Ancestor.ext hab hbs
  exact hb

end Holds

/-- Parents are applied with success by visiting them: the classes that are new to the draft are
applied one after the other, each alone. -/
theorem inheritAll_visits {all : List Template} (hall : (all.map Template.name).Nodup)
    {ts : List Template} (hts : ts <:+ all) {d d' : Draft} {ps : List ParentRef} {outer : Bindings}
    {as : List Ancestor} (hd : d.Holds as) (has : ∀ a ∈ as, a.template ∈ all)
    (h : d.inheritAll db ts ps outer = .ok d') :
    ∃ added, Visits db ts outer ps as (as ++ added) ∧ d'.Holds (as ++ added) ∧
      added.foldlM applyClass d = .ok d' ∧ ∀ a ∈ added, a.template ∈ ts := by
  -- the parents of a class are looked up in fewer templates than the class
  induction hn : ts.length using Nat.strong_induction_on generalizing ts d d' ps outer as with
  | h n ih =>
    induction ps generalizing d as with
    | nil =>
      obtain rfl := foldlM_nil_eq_ok.1 h
      exact ⟨[], by simpa using .nil, by simpa using hd, rfl, by simp⟩
    | cons p ps ihps =>
      obtain ⟨d₁, hp, hps⟩ := foldlM_cons_eq_ok.1 h
      obtain ⟨a, older, ha, ⟨hinst, rfl⟩ | ⟨hinst, d₂, hparents, happly⟩⟩ := inherit_eq_ok hp
      · obtain ⟨added, hvisits, hd', hflat, hmem⟩ := ihps hd has hps
        exact ⟨added, .again ha (hd.mem_of_applied hall has (hts.subset ha.mem) hinst) hvisits, hd',
          hflat, hmem⟩
      · have holder : older <:+ ts := (List.suffix_cons ..).trans ha.older_suffix
        have hlt : older.length < n := by
          have := ha.older_suffix.length_le
          rw [List.length_cons] at this
          omega
        obtain ⟨added₁, hvisits₁, hd₂, hflat₁, hmem₁⟩ :=
          ih older.length hlt (holder.trans hts) hd has hparents rfl
        have hnew : a.name ∉ (as ++ added₁).map Ancestor.name := by
          rw [List.map_append, List.mem_append, not_or]
          exact ⟨hd.not_mem_of_instantiation? hinst,
            ha.name_not_mem (hall.sublist (hts.sublist.map _)) hmem₁⟩
        have hmem₁' : ∀ b ∈ added₁ ++ [a], b.template ∈ ts :=
          List.forall_mem_append.2
            ⟨fun b hb => holder.subset (hmem₁ b hb), List.forall_mem_singleton.2 ha.mem⟩
        have has₁ : ∀ b ∈ as ++ (added₁ ++ [a]), b.template ∈ all :=
          List.forall_mem_append.2 ⟨has, fun b hb => hts.subset (hmem₁' b hb)⟩
        have hd₁ : d₁.Holds (as ++ (added₁ ++ [a])) :=
          List.append_assoc .. ▸ hd₂.applyClass hnew happly
        obtain ⟨added₂, hvisits₂, hd', hflat₂, hmem₂⟩ := ihps hd₁ has₁ hps
        rw [List.append_assoc as] at hvisits₂ hd'
        refine ⟨added₁ ++ [a] ++ added₂, .fresh ha hvisits₁ ?_, hd', ?_,
          List.forall_mem_append.2 ⟨hmem₁', hmem₂⟩⟩
        · rw [List.append_assoc as]
          exact hvisits₂
        · exact foldlM_append_eq_ok.2 ⟨d₁, foldlM_append_eq_ok.2 ⟨d₂, hflat₁,
            foldlM_cons_eq_ok.2 ⟨d₁, happly, rfl⟩⟩, hflat₂⟩

end Draft
end TypedRecords
