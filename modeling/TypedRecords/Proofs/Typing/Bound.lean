import TypedRecords.Proofs.Inherit.Linear
import TypedRecords.Proofs.Resolve.Solution
import TypedRecords.Proofs.Typing.Written

/-!
# Values on their way into a record

Values reach the fields of a record as arguments, as defaults, through bindings and through other
fields. A property that forming and converting values keeps is kept on each of these ways: it holds
of all bindings (`bind_ensures`, `Visits.bindings_ensures`), of what is bound in the expressions of
a draft (`Draft.ofTemplate_bounds`) and of the values found for its fields (`Draft.Filled.ensures`).
The types on these ways are those that templates write.
-/

namespace TypedRecords
variable {db : Database} {P : Value → Prop} {T : Ty → Prop}

def Bindings.All (P : Value → Prop) (bs : Bindings) : Prop := ∀ b ∈ bs, ∀ v ∈ b.value, P v

/-! ### Bindings -/

theorem evaluateWritten_ensures (hP : Value.Formed db P T) {outer : Bindings}
    (houter : outer.All P) {ps : List Param} (hps : ∀ p ∈ ps, T p.type) {es : List Expr}
    (hes : ∀ e ∈ es, e.Written T) {args : List (Option Value)}
    (h : evaluateWritten db outer ps es = .ok args) : ∀ arg ∈ args, ∀ v ∈ arg, P v := by
  induction es generalizing ps args with
  | nil =>
    obtain rfl := Except.ok.inj h
    nofun
  | cons e es ih =>
    obtain ⟨he, hes⟩ := List.forall_mem_cons.1 hes
    rw [evaluateWritten] at h
    obtain ⟨v, hv, h⟩ := bind_eq_ok.1 h
    obtain ⟨vs, hvs, h⟩ := bind_eq_ok.1 h
    have hhead : ∀ type ∈ ps.head?.map (·.type), T type := by
      intro type htype
      obtain ⟨p, hp, rfl⟩ := Option.map_eq_some_iff.1 htype
      exact hps p (List.mem_of_head? hp)
    exact pure_eq_ok.1 h ▸
      List.forall_mem_cons.2 ⟨evaluateClosed_ensures hP (he.substitute houter) hhead hv,
        ih (fun p hp => hps p (List.mem_of_mem_tail hp)) hes hvs⟩

theorem paramValue_ensures (hP : Value.Formed db P T) {className : String} {place : Location}
    {missing : Missing} {bound : Bindings} (hbound : bound.All P) {p : Param}
    (hp : T p.type ∧ ∀ e ∈ p.default, e.Written T) {args : List (Option Value)}
    (hargs : ∀ arg ∈ args, ∀ v ∈ arg, P v) {value : Option Value}
    (h : paramValue db className place missing bound p args = .ok value) : ∀ v ∈ value, P v := by
  unfold paramValue at h
  split at h
  · exact Except.ok.inj h ▸ hargs _ (List.mem_cons_self ..)
  · rename_i default hdefault
    have htype : ∀ type ∈ some p.type, T type := fun type h => Option.some.inj h ▸ hp.1
    exact evaluateClosed_ensures hP ((hp.2 default hdefault).substitute hbound) htype h
  · cases missing with
    | refused => cases h
    | unset =>
      obtain rfl := Except.ok.inj h
      nofun

theorem bindParams_ensures (hP : Value.Formed db P T) {className : String} {place : Location}
    {missing : Missing} {bound : Bindings} (hbound : bound.All P) {ps : List Param}
    (hps : ∀ p ∈ ps, T p.type ∧ ∀ e ∈ p.default, e.Written T) {args : List (Option Value)}
    (hargs : ∀ arg ∈ args, ∀ v ∈ arg, P v) {bs : Bindings}
    (h : bindParams db className place missing bound ps args = .ok bs) : bs.All P := by
  induction ps generalizing bound args with
  | nil => exact Except.ok.inj h ▸ hbound
  | cons p ps ih =>
    obtain ⟨hp, hps⟩ := List.forall_mem_cons.1 hps
    rw [bindParams] at h
    obtain ⟨raw, hraw, h⟩ := bind_eq_ok.1 h
    obtain ⟨value, hvalue, h⟩ := bind_eq_ok.1 h
    have hv := assign_ensures hP hp.1 (paramValue_ensures hP hbound hp hargs hraw) hvalue
    exact ih (List.forall_mem_append.2 ⟨hbound, List.forall_mem_singleton.2 hv⟩) hps
      (fun arg harg => hargs arg (List.mem_of_mem_tail harg)) h

theorem Template.bind_ensures (hP : Value.Formed db P T) {t : Template} (ht : t.Written T)
    {args : List (Option Value)} (hargs : ∀ arg ∈ args, ∀ v ∈ arg, P v) {place : Location}
    {missing : Missing} {bs : Bindings} (h : t.bind db args place missing = .ok bs) : bs.All P := by
  obtain ⟨-, h⟩ := Template.bind_eq_ok_iff.1 h
  exact bindParams_ensures hP (List.forall_mem_nil _) ht.params hargs h

theorem Visits.bindings_ensures (hP : Value.Formed db P T) {ts : List Template}
    (hts : ∀ t ∈ ts, t.Written T) {t : Template} (ht : t.Written T) {outer : Bindings}
    (houter : outer.All P) {as : List Ancestor} (h : Visits db ts outer t.parents [] as) :
    ∀ a ∈ as, a.template.Written T ∧ a.bindings.All P := by
  have step : ∀ (u : Template) (bs : Bindings), u.Written T → bs.All P → ∀ p ∈ u.parents,
      ∀ a : Ancestor, a.template ∈ ts → p.Gives db bs a →
        a.template.Written T ∧ a.bindings.All P := by
    intro u bs hu hbs p hp a ha hgives
    obtain ⟨-, args, hargs, hbind⟩ := hgives
    have hwritten := hts _ ha
    exact ⟨hwritten, Template.bind_ensures hP hwritten
      (evaluateWritten_ensures hP hbs (fun q hq => (hwritten.params q hq).1) (hu.parents p hp)
        hargs) hbind⟩
  refine h.induction_on (step t outer ht houter) (fun a b ha hab => ?_) nofun
  obtain ⟨hb, p, hp, hgives⟩ := hab
  exact step a.template a.bindings ha.1 ha.2 p hp b hb hgives

/-! ### Expressions of a draft -/

theorem BodyItem.Bounds.substitute {i : BodyItem} (h : i.Bounds (fun _ => False) T) {bs : Bindings}
    (hbs : bs.All P) : (i.substitute bs).Bounds P T := by
  cases i with
  | field name type value place =>
    refine ⟨h.1, fun e he => ?_⟩
    obtain ⟨e', he', rfl⟩ := Option.map_eq_some_iff.1 he
    exact (h.2 e' he').substitute hbs
  | override o => exact Expr.Bounds.substitute h hbs

theorem Template.items_bounds {t : Template} (ht : t.Written T) {bs : Bindings} (hbs : bs.All P) :
    ∀ i ∈ t.items bs, i.Bounds P T := by
  refine List.forall_mem_append.2 ⟨List.forall_mem_map.2 fun o ho => ?_,
    List.forall_mem_map.2 fun i hi => (ht.body i hi).substitute hbs⟩
  exact (ht.lets o ho).mono (fun _ => False.elim) fun _ => id

namespace Draft

/-- The values bound in the expressions of the fields satisfy `P`, and all types `T`. -/
def Bounds (P : Value → Prop) (T : Ty → Prop) (d : Draft) : Prop :=
  ∀ f ∈ d.fields, T f.type ∧ f.value.Bounds P T

theorem Bounds.write {d : Draft} (h : d.Bounds P T) (name : String) {value : Expr}
    (hvalue : value.Bounds P T) (place : Location) : (d.write name value place).Bounds P T := by
  refine List.forall_mem_map.2 fun f hf => ?_
  obtain ⟨htype, hexpr⟩ := h f hf
  rw [DraftField.type_write]
  refine ⟨htype, ?_⟩
  unfold DraftField.write
  split
  · exact hvalue
  · exact hexpr

theorem Bounds.execute {d d' : Draft} (h : d.Bounds P T) {item : BodyItem} (hitem : item.Bounds P T)
    (hd : d.execute item = .ok d') : d'.Bounds P T := by
  cases item with
  | field name type value place =>
    cases declares_of_eq_ok hd with
    | added _ hfields _ _ =>
      unfold Bounds
      rw [hfields]
      refine List.forall_mem_append.2 ⟨h, List.forall_mem_singleton.2 ⟨hitem.1, ?_⟩⟩
      cases value with
      | none => exact .unset
      | some e => exact hitem.2 e rfl
    | written _ hd' => exact hd' ▸ h.write name (hitem.2 _ rfl) place
    | kept _ hd' => exact hd' ▸ h
  | override o => exact (override_eq_ok.1 hd).2 ▸ h.write o.name hitem o.place

theorem Bounds.foldlM_execute {d d' : Draft} (h : d.Bounds P T) {items : List BodyItem}
    (hitems : ∀ i ∈ items, i.Bounds P T) (hd : items.foldlM Draft.execute d = .ok d') :
    d'.Bounds P T := by
  induction items generalizing d with
  | nil => exact foldlM_nil_eq_ok.1 hd ▸ h
  | cons item items ih =>
    obtain ⟨hitem, hitems⟩ := List.forall_mem_cons.1 hitems
    obtain ⟨d₁, hd₁, hd⟩ := foldlM_cons_eq_ok.1 hd
    exact ih (h.execute hitem hd₁) hitems hd

theorem Bounds.foldlM_applyClass {d d' : Draft} (h : d.Bounds P T) {as : List Ancestor}
    (has : ∀ a ∈ as, a.template.Written T ∧ a.bindings.All P)
    (hd : as.foldlM applyClass d = .ok d') : d'.Bounds P T := by
  induction as generalizing d with
  | nil => exact foldlM_nil_eq_ok.1 hd ▸ h
  | cons a as ih =>
    obtain ⟨⟨hwritten, hbindings⟩, has⟩ := List.forall_mem_cons.1 has
    obtain ⟨d₁, ha, hd⟩ := foldlM_cons_eq_ok.1 hd
    obtain ⟨d₂, hitems, ha⟩ := bind_eq_ok.1 ha
    have h₂ : d₂.Bounds P T := h.foldlM_execute (Template.items_bounds hwritten hbindings) hitems
    refine ih ?_ has hd
    unfold Bounds
    rw [← pure_eq_ok.1 ha, fields_addInstance]
    exact h₂

theorem ofTemplate_bounds (hP : Value.Formed db P T) {ts : List Template}
    (hnames : (ts.map Template.name).Nodup) (hts : ∀ t ∈ ts, t.Written T) {t : Template}
    (ht : t.Written T) {bs : Bindings} (hbs : bs.All P) {d : Draft}
    (h : ofTemplate db ts t bs = .ok d) : d.Bounds P T := by
  obtain ⟨as, hvisits, -, -, d₁, has, hown⟩ := ofTemplate_lineage hnames h
  have hempty : empty.Bounds P T := List.forall_mem_nil _
  have h₁ := hempty.foldlM_applyClass (hvisits.bindings_ensures hP hts ht hbs) has
  exact h₁.foldlM_execute (Template.items_bounds ht hbs) hown

/-! ### Values of fields -/

variable {d : Draft}

/-- The value of a field is a conversion, to the type of the field, of a value that satisfies `P`. -/
theorem Computes.converted (hP : Value.Formed db P T) {table : Table}
    (htable : ∀ name v, table name = some v → ∀ w ∈ v, P w) {f : DraftField}
    (hf : T f.type ∧ f.value.Bounds P T) {w : Value} (h : d.Computes db table f (some w)) :
    ∃ u, P u ∧ u.convert db.store f.type = some w := by
  obtain ⟨v, ⟨⟩, hv, h⟩ := run_bind_eq_ok.1 (computes_iff.1 h)
  obtain ⟨u, rfl, hu⟩ := assign_eq_ok (run_lift_eq_ok.1 h).1
  have htype : ∀ type ∈ some f.type, T type := fun type h => Option.some.inj h ▸ hf.1
  refine ⟨u, evaluate_ensures (s := d.scope db (readFrom table)) hP ?_ hf.2 htype () _ () hv u rfl, hu⟩
  intro name type read hread
  obtain ⟨g, -, hg⟩ := Option.map_eq_some_iff.1 hread
  obtain ⟨-, rfl⟩ := Prod.mk.inj hg
  intro _ v _ hread
  exact htable g.name v (readFrom_eq_ok.1 hread)

theorem Filled.ensures (hP : Value.Formed db P T) (hd : d.Bounds P T) {m : Memo}
    (h : d.Filled db m) : ∀ name v, m.table name = some v → ∀ w ∈ v, P w := by
  induction h with
  | nil => nofun
  | @cons m f v hm hf hnew hv ih =>
    intro name u hu w hw
    by_cases hname : name = f.name
    · rw [hname, Memo.table_cons_self] at hu
      obtain rfl : v = some w := (Option.some.inj hu).trans hw
      obtain ⟨x, hx, hconvert⟩ := hv.converted hP ih (hd f hf)
      exact hP.convert hx (hd f hf).1 hconvert
    · exact ih name u (Memo.table_cons_ne m v hname ▸ hu) w hw

/-- The types in a finished record satisfy `T`, and its values are conversions to them of values that
satisfy `P`. -/
theorem finish_ensures (hP : Value.Formed db P T) (hd : d.Bounds P T) {name : String}
    {anonymous isClass : Bool} {direct : List String} {r : Record}
    (h : d.finish db name anonymous isClass direct = .ok r) : ∀ f ∈ r.fields,
      T f.type ∧ ∀ w ∈ f.value, ∃ u, P u ∧ u.convert db.store f.type = some w := by
  obtain ⟨m, hm, rfl⟩ := finishIn_eq_ok.1 h
  obtain ⟨hfilled, -⟩ := values_sound (fun _ => Iff.rfl) hm
  refine List.forall_mem_map.2 fun f hf => ⟨(hd f hf).1, fun w hw => ?_⟩
  have hw : m.table f.name = some (some w) := Option.join_eq_some_iff.1 hw
  exact (hfilled.computes hf hw).converted hP (hfilled.ensures hP hd) (hd f hf)

end Draft
end TypedRecords
