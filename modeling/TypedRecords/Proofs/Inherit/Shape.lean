import TypedRecords.Proofs.Inherit.Linear

/-!
# The shape of a record

The shape of a record is what its fields are called and typed, in their order. An initializer, a let or
an argument has no part in it: the shape is what the classes of the lineage and then the record itself
declare, each field once (`Draft.builtFrom_of_finish`). Which classes these are, and their order, depends
on the templates alone (`Visits.templates_eq`).
-/

namespace TypedRecords

/-- A field's name and declared type. -/
abbrev FieldShape := String × Ty

def DraftField.shape (f : DraftField) : FieldShape := (f.name, f.type)

def Field.shape (f : Field) : FieldShape := (f.name, f.type)

def BodyItem.shape? : BodyItem → Option FieldShape
  | field name type _ _ => some (name, type)
  | override _ => none

def Record.shape (r : Record) : List FieldShape := r.fields.map Field.shape

namespace Template

/-- The fields that a template declares itself. -/
def declares (t : Template) : List FieldShape := t.body.filterMap BodyItem.shape?

theorem declares_eq (t : Template) (bs : Bindings) :
    (t.items bs).filterMap BodyItem.shape? = t.declares := by
  have hbody : BodyItem.shape? ∘ BodyItem.substitute bs = BodyItem.shape? :=
    funext fun i => by cases i <;> rfl
  have hlets : (t.lets.map BodyItem.override).filterMap BodyItem.shape? = [] :=
    List.filterMap_eq_nil_iff.2 (List.forall_mem_map.2 fun _ _ => rfl)
  rw [items, List.filterMap_append, hlets, List.filterMap_map, hbody, List.nil_append, declares]

/-- The fields that templates declare one after the other, each where it is declared first. -/
def shapeOf (ts : List Template) : List FieldShape := (ts.flatMap declares).eraseDups

theorem mem_shapeOf {ts : List Template} {s : FieldShape} :
    s ∈ shapeOf ts ↔ ∃ t ∈ ts, s ∈ t.declares := by
  rw [shapeOf, List.mem_eraseDups, List.mem_flatMap]

theorem shapeOf_mono {ts us : List Template} (h : ts <+: us) : shapeOf ts <+: shapeOf us := by
  obtain ⟨rest, rfl⟩ := h
  rw [shapeOf, shapeOf, List.flatMap_append, List.eraseDups_append]
  exact List.prefix_append ..

end Template

namespace Draft
variable {d d' : Draft}

def shape (d : Draft) : List FieldShape := d.fields.map DraftField.shape

theorem shape_write (d : Draft) (name : String) (value : Expr) (place : Location) :
    (d.write name value place).shape = d.shape := by
  rw [shape, shape, write, List.map_map]
  exact List.map_congr_left fun f _ => Prod.ext (f.name_write ..) (f.type_write ..)

/-- A declaration adds its field, unless the draft has it with this very type. -/
theorem declare_shape {name : String} {type : Ty} {value : Option Expr} {place : Location}
    (h : d.declare name type value place = .ok d') :
    d'.shape = if (name, type) ∈ d.shape then d.shape else d.shape ++ [(name, type)] := by
  cases hf : d.field? name with
  | some f =>
    obtain ⟨hmem, hname⟩ := mem_of_field? hf
    rw [declare_of_some hf] at h
    split at h
    · cases h
    · rename_i htype
      have hold : (name, type) ∈ d.shape :=
        List.mem_map.2 ⟨f, hmem, Prod.ext hname (not_not.1 htype)⟩
      rw [if_pos hold, ← Except.ok.inj h]
      cases value with
      | none => rfl
      | some value => exact d.shape_write ..
  | none =>
    obtain ⟨d₁, hd₁, hfields, -, -⟩ := declare_of_none hf type value place
    obtain rfl := Except.ok.inj (hd₁.symm.trans h)
    have hnew : (name, type) ∉ d.shape := by
      intro hmem
      obtain ⟨f, hmem, heq⟩ := List.mem_map.1 hmem
      have hsome := field?_of_mem hmem
      rw [show f.name = name from congrArg Prod.fst heq, hf] at hsome
      cases hsome
    rw [if_neg hnew, shape, hfields, List.map_append]
    rfl

theorem execute_shape {item : BodyItem} {written : List FieldShape} (h : d.execute item = .ok d')
    (hd : d.shape = written.eraseDups) :
    d'.shape = (written ++ item.shape?.toList).eraseDups := by
  cases item with
  | field name type value place =>
    rw [declare_shape h, hd, BodyItem.shape?, Option.toList_some, List.eraseDups_append]
    by_cases hmem : (name, type) ∈ written <;>
      simp [List.mem_eraseDups, List.removeAll, List.eraseDups_cons, hmem]
  | override o =>
    obtain ⟨-, rfl⟩ := override_eq_ok.1 h
    rw [shape_write, hd, BodyItem.shape?, Option.toList_none, List.append_nil]

theorem foldlM_execute_shape {items : List BodyItem} {written : List FieldShape}
    (h : items.foldlM execute d = .ok d') (hd : d.shape = written.eraseDups) :
    d'.shape = (written ++ items.filterMap BodyItem.shape?).eraseDups := by
  induction items generalizing d written with
  | nil => rw [← foldlM_nil_eq_ok.1 h, hd, List.filterMap_nil, List.append_nil]
  | cons item items ih =>
    obtain ⟨d₁, hitem, h⟩ := foldlM_cons_eq_ok.1 h
    rw [ih h (execute_shape hitem hd), List.append_assoc]
    cases hs : item.shape? <;> simp [hs]

theorem foldlM_applyClass_shape {as : List Ancestor} {written : List FieldShape}
    (h : as.foldlM applyClass d = .ok d') (hd : d.shape = written.eraseDups) :
    d'.shape = (written ++ (as.map Ancestor.template).flatMap Template.declares).eraseDups := by
  induction as generalizing d written with
  | nil => rw [← foldlM_nil_eq_ok.1 h, hd, List.map_nil, List.flatMap_nil, List.append_nil]
  | cons a as ih =>
    obtain ⟨d₁, ha, h⟩ := foldlM_cons_eq_ok.1 h
    obtain ⟨d₂, hitems, ha⟩ := bind_eq_ok.1 ha
    have hd₁ : d₁.shape = (written ++ a.template.declares).eraseDups := by
      rw [← pure_eq_ok.1 ha, shape, fields_addInstance, ← shape, foldlM_execute_shape hitems hd,
        Ancestor.items, Template.declares_eq]
    rw [ih h hd₁, List.append_assoc, List.map_cons, List.flatMap_cons]

end Draft

/-! ### The classes visited -/

/-- The templates behind which a class was found are those behind the first one of its name. -/
theorem ParentRef.Leads.dropWhile {db : Database} {ts older : List Template} {outer : Bindings}
    {p : ParentRef} {a : Ancestor} (h : p.Leads db ts outer a older) :
    ts.dropWhile (fun t => t.name ≠ p.name) = a.template :: older := by
  obtain ⟨newer, rfl, hnewer⟩ := h.found
  have hname : a.template.name = p.name := h.gives.1
  rw [List.dropWhile_append_of_pos (by simpa using hnewer), List.dropWhile_cons_of_neg (by simp [hname])]

namespace Visits
variable {db db' : Database} {ts : List Template} {outer outer' : Bindings} {ps : List ParentRef}
  {as as' bs bs' : List Ancestor}

theorem grows (h : Visits db ts outer ps as as') : as <+: as' := by
  induction h with
  | nil => exact List.prefix_rfl
  | again _ _ _ ih => exact ih
  | fresh _ _ _ ih₁ ih => exact ih₁.trans ((List.prefix_append ..).trans ih)

/-- A class that is listed anew was not listed before. -/
theorem new {a : Ancestor} (h : Visits db ts outer ps (as ++ [a]) as')
    (hnd : (as'.map Ancestor.name).Nodup) :
    (as.map Ancestor.name).Nodup ∧ a.template ∉ as.map Ancestor.template := by
  have hnd' : ((as ++ [a]).map Ancestor.name).Nodup := hnd.sublist (h.grows.sublist.map _)
  rw [List.map_append, List.nodup_append] at hnd'
  refine ⟨hnd'.1, fun hmem => ?_⟩
  obtain ⟨b, hb, heq⟩ := List.mem_map.1 hmem
  exact hnd'.2.2 _ (List.mem_map_of_mem hb) _ (List.mem_singleton_self a.name)
    (congrArg Template.name heq)

/-- What parents are bound to, and in which database, has no part in the classes that are visited. -/
theorem templates_eq (h : Visits db ts outer ps as as') (h' : Visits db' ts outer' ps bs bs')
    (heq : as.map Ancestor.template = bs.map Ancestor.template)
    (hnd : (as'.map Ancestor.name).Nodup) (hnd' : (bs'.map Ancestor.name).Nodup) :
    as'.map Ancestor.template = bs'.map Ancestor.template := by
  induction h generalizing outer' bs bs' with
  | nil =>
    cases h'
    exact heq
  | again hp ha _ ih =>
    cases h' with
    | again _ _ rest' => exact ih rest' heq hnd hnd'
    | fresh hp' parents' rest' =>
      obtain ⟨hfound, -⟩ := List.cons.inj (hp.dropWhile.symm.trans hp'.dropWhile)
      refine absurd ?_ (rest'.new hnd').2
      exact (parents'.grows.sublist.map _).subset (heq ▸ hfound ▸ List.mem_map_of_mem ha)
  | fresh hp parents rest ih₁ ih =>
    cases h' with
    | again hp' hb _ =>
      obtain ⟨hfound, -⟩ := List.cons.inj (hp.dropWhile.symm.trans hp'.dropWhile)
      refine absurd ?_ (rest.new hnd).2
      exact (parents.grows.sublist.map _).subset (heq ▸ hfound ▸ List.mem_map_of_mem hb)
    | fresh hp' parents' rest' =>
      obtain ⟨hfound, rfl⟩ := List.cons.inj (hp.dropWhile.symm.trans hp'.dropWhile)
      have hbefore := ih₁ (hfound ▸ parents') heq (rest.new hnd).1 (rest'.new hnd').1
      refine ih rest' ?_ hnd hnd'
      rw [List.map_append, List.map_append, hbefore, List.map_singleton, List.map_singleton, hfound]

end Visits

namespace Draft
variable {d : Draft} {db : Database} {name : String} {anonymous isClass : Bool} {direct : List String}
  {r : Record}

/-- A finished record has the shape of its draft. -/
theorem shape_of_finish (h : d.finish db name anonymous isClass direct = .ok r) :
    r.shape = d.shape := by
  obtain ⟨m, -, rfl⟩ := finishIn_eq_ok.1 h
  rw [Record.shape, shape, List.map_map]
  rfl

theorem names_of_finish (h : d.finish db name anonymous isClass direct = .ok r) :
    (r.fields.map Field.name).Nodup := by
  obtain ⟨m, -, rfl⟩ := finishIn_eq_ok.1 h
  rw [List.map_map]
  exact d.distinct

end Draft

/-- The record that the template `t` gives where its parents are looked up in `ts`, with the classes
`us` in the order in which it inherits them. -/
structure Record.BuiltFrom (ts : List Template) (t : Template) (us : List Template) (r : Record) :
    Prop where
  visits : ∃ db outer as, Visits db ts outer t.parents [] as ∧ as.map Ancestor.template = us
  templates : ∀ u ∈ us, u ∈ ts
  nodup : (us.map Template.name).Nodup
  superclasses : r.superclasses = us.map Template.name
  direct : r.directSuperclasses = t.directSuperclasses
  shape : r.shape = Template.shapeOf (us ++ [t])
  distinct : (r.fields.map Field.name).Nodup

theorem Draft.builtFrom_of_finish {db : Database} {ts : List Template}
    (hts : (ts.map Template.name).Nodup) {t : Template} {bs : Bindings} {d : Draft}
    (h : ofTemplate db ts t bs = .ok d) {name : String} {anonymous isClass : Bool} {r : Record}
    (hr : d.finish db name anonymous isClass t.directSuperclasses = .ok r) :
    ∃ us, r.BuiltFrom ts t us := by
  obtain ⟨as, hvisits, hlineage, hholds, d₁, hflat, hown⟩ := ofTemplate_lineage hts h
  refine ⟨as.map Ancestor.template, ⟨db, bs, as, hvisits, rfl⟩, List.forall_mem_map.2 hlineage.templates,
    ?_, ?_, ?_, ?_, names_of_finish hr⟩
  · rw [List.map_map]
    exact hlineage.nodup
  · obtain ⟨m, -, rfl⟩ := finishIn_eq_ok.1 hr
    rw [List.map_map]
    exact hholds.superclasses
  · obtain ⟨m, -, rfl⟩ := finishIn_eq_ok.1 hr
    rfl
  · have hempty : empty.shape = [].eraseDups := rfl
    have hshape := foldlM_execute_shape hown (foldlM_applyClass_shape hflat hempty)
    rw [List.nil_append, Template.declares_eq] at hshape
    rw [Template.shapeOf, List.flatMap_append, List.flatMap_singleton, ← hshape, shape_of_finish hr]

namespace Record.BuiltFrom
variable {ts : List Template} {t : Template} {us : List Template} {r : Record}

/-- The classes that a record inherits through its first parent are those of the parent's own record,
and then the parent. -/
theorem classes_of_first (h : r.BuiltFrom ts t us) {q : ParentRef} {qs : List ParentRef}
    (hq : t.parents = q :: qs) : ∃ u older, u :: older <:+ ts ∧ u.name = q.name ∧
      ∀ {vs : List Template} {c : Record}, c.BuiltFrom older u vs → vs ++ [u] <+: us := by
  obtain ⟨db, outer, as, hvisits, rfl⟩ := h.visits
  rw [hq] at hvisits
  have hnd : (as.map Ancestor.name).Nodup := by
    have := h.nodup
    rwa [List.map_map] at this
  cases hvisits with
  | again _ ha _ => cases ha
  | @fresh _ older _ _ _ a _ as₁ _ hp parents rest =>
    refine ⟨a.template, older, hp.older_suffix, hp.gives.1, fun {vs c} hc => ?_⟩
    obtain ⟨db', outer', bs, hvisits', rfl⟩ := hc.visits
    have hnd' : (bs.map Ancestor.name).Nodup := by
      have := hc.nodup
      rwa [List.map_map] at this
    have heq := parents.templates_eq hvisits' rfl (rest.new hnd).1 hnd'
    have hgrows := rest.grows.map Ancestor.template
    rwa [List.map_append, heq] at hgrows

end Record.BuiltFrom
end TypedRecords
