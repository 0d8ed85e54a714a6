import Mathlib.Logic.Relation
import TypedRecords.Proofs.Inherit.Visits

/-!
# Lineages

The classes that a record inherits, listed as `Lineage` says: each once, behind its own parents, and
exactly those that lead to it from parent to parent (`Lineage.mem_iff`). A template that is built with
success has a lineage, and its draft is what the classes of the lineage and then its own items make
of the empty one (`ofTemplate_lineage`).
-/

namespace TypedRecords

/-- The class `b` is one that the class `a` names as a parent. -/
def Ancestor.Inherits (db : Database) (ts : List Template) (a b : Ancestor) : Prop :=
  b.template ∈ ts ∧ ∃ p ∈ a.template.parents, p.Gives db a.bindings b

/-- Every class is listed behind all its parents. -/
inductive Ordered (db : Database) : List Ancestor → Prop
  | nil : Ordered db []
  | snoc {as : List Ancestor} {a : Ancestor} (h : Ordered db as)
      (ha : ∀ p ∈ a.template.parents, ∃ b ∈ as, p.Gives db a.bindings b) : Ordered db (as ++ [a])

namespace Ordered
variable {db : Database} {as : List Ancestor}

theorem split (h : Ordered db as) {before after : List Ancestor} {a : Ancestor}
    (heq : as = before ++ a :: after) :
    Ordered db before ∧ ∀ p ∈ a.template.parents, ∃ b ∈ before, p.Gives db a.bindings b := by
  induction h generalizing after with
  | nil => simp at heq
  | @snoc as c h hc ih =>
    rcases List.eq_nil_or_concat after with rfl | ⟨after, z, rfl⟩
    · obtain ⟨rfl, hca⟩ := List.append_inj' heq rfl
      obtain rfl := List.singleton_injective hca
      exact ⟨h, hc⟩
    · have heq' : as ++ [c] = (before ++ a :: after) ++ [z] := by simpa using heq
      exact ih (List.append_inj' heq' rfl).1

theorem parents_mem (h : Ordered db as) {a : Ancestor} (ha : a ∈ as) :
    ∀ p ∈ a.template.parents, ∃ b ∈ as, p.Gives db a.bindings b := by
  obtain ⟨before, after, heq⟩ := List.append_of_mem ha
  intro p hp
  obtain ⟨b, hb, hgives⟩ := (h.split heq).2 p hp
  exact ⟨b, heq ▸ List.mem_append_left _ hb, hgives⟩

end Ordered

namespace Visits
variable {db : Database} {ts : List Template} {outer : Bindings} {ps : List ParentRef}
  {as as' : List Ancestor}

theorem subset (h : Visits db ts outer ps as as') : as ⊆ as' := by
  induction h with
  | nil => exact List.Subset.refl _
  | again _ _ _ ih => exact ih
  | fresh _ _ _ ih₁ ih =>
    exact List.Subset.trans ih₁ (List.Subset.trans (List.subset_append_left ..) ih)

theorem roots (h : Visits db ts outer ps as as') :
    ∀ p ∈ ps, ∃ a ∈ as', p.Gives db outer a := by
  induction h with
  | nil => simp
  | again h ha rest ih => exact List.forall_mem_cons.2 ⟨⟨_, rest.subset ha, h.gives⟩, ih⟩
  | fresh h _ rest _ ih =>
    exact List.forall_mem_cons.2 ⟨⟨_, rest.subset (by simp), h.gives⟩, ih⟩

theorem ordered (h : Visits db ts outer ps as as') (has : Ordered db as) : Ordered db as' := by
  induction h with
  | nil => exact has
  | again _ _ _ ih => exact ih has
  | fresh _ parents _ ih₁ ih => exact ih ((ih₁ has).snoc parents.roots)

/-- What holds of the classes that the parents stand for, and goes on from class to parent, holds of
every class visited. -/
theorem induction_on (h : Visits db ts outer ps as as') {S : Ancestor → Prop}
    (hroot : ∀ p ∈ ps, ∀ a : Ancestor, a.template ∈ ts → p.Gives db outer a → S a)
    (hstep : ∀ a b : Ancestor, S a → a.Inherits db ts b → S b) (has : ∀ a ∈ as, S a) :
    ∀ a ∈ as', S a := by
  induction h with
  | nil => exact has
  | again _ _ _ ih => exact ih (List.forall_mem_cons.1 hroot).2 hstep has
  | @fresh ts older _ p ps a as _ _ h _ _ ih₁ ih =>
    obtain ⟨hp, hps⟩ := List.forall_mem_cons.1 hroot
    have ha : S a := hp a h.mem h.gives
    have hsub : ∀ t ∈ older, t ∈ ts := fun t ht => h.older_suffix.subset (List.mem_cons_of_mem _ ht)
    have has₁ := ih₁ (fun q hq b hb hgives => hstep a b ha ⟨hsub _ hb, q, hq, hgives⟩)
      (fun b c hb hbc => hstep b c hb ⟨hsub _ hbc.1, hbc.2⟩) has
    exact ih hps hstep (List.forall_mem_append.2 ⟨has₁, List.forall_mem_singleton.2 ha⟩)

end Visits

/-- The classes that `root` inherits, in the order in which they are applied. -/
structure Lineage (db : Database) (ts : List Template) (root : Ancestor) (as : List Ancestor) :
    Prop where
  nodup : (as.map Ancestor.name).Nodup
  templates : ∀ a ∈ as, a.template ∈ ts
  ordered : Ordered db as
  roots : ∀ p ∈ root.template.parents, ∃ a ∈ as, p.Gives db root.bindings a
  reached : ∀ a ∈ as, Relation.TransGen (Ancestor.Inherits db ts) root a

namespace Lineage
variable {db : Database} {ts : List Template} {root : Ancestor} {as : List Ancestor}

theorem mem_iff (h : Lineage db ts root as) (hts : (ts.map Template.name).Nodup) {a : Ancestor} :
    a ∈ as ↔ Relation.TransGen (Ancestor.Inherits db ts) root a := by
  refine ⟨h.reached a, fun ha => ?_⟩
  -- templates are found by name, so the class that a parent stands for is the one listed for it
  have unique : ∀ {p : ParentRef} {outer : Bindings} {b c : Ancestor}, b ∈ as →
      p.Gives db outer b → c.template ∈ ts → p.Gives db outer c → c ∈ as := by
    intro p outer b c hb hbgives hc hcgives
    have hbc : b.template = c.template :=
      List.inj_on_of_nodup_map hts (h.templates b hb) hc (hbgives.1.trans hcgives.1.symm)
    exact hbgives.unique hcgives hbc ▸ hb
  induction ha with
  | single hr =>
    obtain ⟨hmem, p, hp, hgives⟩ := hr
    obtain ⟨b, hb, hbgives⟩ := h.roots p hp
    exact unique hb hbgives hmem hgives
  | tail _ hr ih =>
    obtain ⟨hmem, p, hp, hgives⟩ := hr
    obtain ⟨b, hb, hbgives⟩ := h.ordered.parents_mem ih p hp
    exact unique hb hbgives hmem hgives

end Lineage

namespace Draft
variable {db : Database} {ts : List Template}

/-- A template that is built with success has a lineage, which its draft holds and comes from. -/
theorem ofTemplate_lineage (hts : (ts.map Template.name).Nodup) {t : Template} {bs : Bindings}
    {d : Draft} (h : ofTemplate db ts t bs = .ok d) :
    ∃ as, Visits db ts bs t.parents [] as ∧ Lineage db ts ⟨t, bs⟩ as ∧ d.Holds as ∧
      ∃ d₁, as.foldlM applyClass empty = .ok d₁ ∧ (t.items bs).foldlM execute d₁ = .ok d := by
  obtain ⟨d₁, hparents, hown⟩ := bind_eq_ok.1 h
  rw [applyOwn_eq] at hown
  obtain ⟨as, hvisits, hholds, hflat, hmem⟩ :=
    inheritAll_visits hts (List.suffix_refl ts) .empty (by simp) hparents
  rw [List.nil_append] at hvisits hholds
  refine ⟨as, hvisits, ⟨hholds.nodup, hmem, hvisits.ordered .nil, hvisits.roots, ?_⟩,
    hholds.execute hown, d₁, hflat, hown⟩
  exact hvisits.induction_on (fun p hp a ha hgives => .single ⟨ha, p, hp, hgives⟩)
    (fun a b ha hab => ha.tail hab) (by simp)

end Draft
end TypedRecords
