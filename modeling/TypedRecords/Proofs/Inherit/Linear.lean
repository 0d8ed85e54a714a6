import TypedRecords.Draft.Resolve
import TypedRecords.Proofs.Inherit.Lineage

/-!
# Inheritance as one flat pass

The recursion of inheritance does to a draft what one pass over its lineage does: each class once,
its enclosing lets before its body, and what the record says itself behind all of them. So a field
ends with the last expression written for it in that sequence.
-/

namespace TypedRecords

theorem lastWritten_append (name : String) (is js : List BodyItem) :
    lastWritten name (is ++ js) = (lastWritten name js).or (lastWritten name is) := by
  simp [lastWritten, List.getLast?_append]

namespace Draft
variable {db : Database} {ts : List Template}

theorem fields_addInstance (d : Draft) (name : String) (bs : Bindings) :
    (d.addInstance name bs).fields = d.fields := by
  unfold addInstance addSuperclass
  split <;> rfl

theorem expr_addInstance (d : Draft) (name : String) (bs : Bindings) (field : String) :
    (d.addInstance name bs).expr field = d.expr field := by
  rw [expr, field?, fields_addInstance]
  rfl

theorem foldlM_applyClass_expr {as : List Ancestor} {d d' : Draft}
    (h : as.foldlM applyClass d = .ok d') (name : String) :
    d'.expr name = (lastWritten name (as.flatMap Ancestor.items)).getD (d.expr name) := by
  induction as generalizing d with
  | nil =>
    rw [foldlM_nil_eq_ok.1 h]
    rfl
  | cons a as ih =>
    obtain ⟨d₁, ha, h⟩ := foldlM_cons_eq_ok.1 h
    obtain ⟨d₂, hitems, ha⟩ := bind_eq_ok.1 ha
    rw [ih h, ← pure_eq_ok.1 ha, expr_addInstance, foldlM_execute_expr hitems, List.flatMap_cons,
      lastWritten_append]
    cases lastWritten name (as.flatMap Ancestor.items) <;> rfl

theorem value_eq_lastWritten {as : List Ancestor} {items : List BodyItem} {d₁ d : Draft}
    (has : as.foldlM applyClass empty = .ok d₁) (hown : items.foldlM execute d₁ = .ok d)
    {f : DraftField} (hf : f ∈ d.fields) :
    f.value = (lastWritten f.name (as.flatMap Ancestor.items ++ items)).getD .unset := by
  rw [← expr_of_mem hf, foldlM_execute_expr hown, foldlM_applyClass_expr has, lastWritten_append]
  cases lastWritten f.name items <;> rfl

/-- A class that has been applied is not applied again: whatever path reaches it, the draft stays. -/
theorem inherit_again {d d' : Draft} {p : ParentRef} {outer : Bindings}
    (hd : (d.instantiation? p.name).isSome) (h : d.inherit db ts p outer = .ok d') : d' = d := by
  obtain ⟨a, older, ha, ⟨-, hd'⟩ | ⟨hnone, -⟩⟩ := inherit_eq_ok h
  · exact hd'
  · rw [ha.gives.1] at hnone
    rw [hnone] at hd
    cases hd

/-- A declaration of a field that exists changes nothing if it has no initializer. -/
theorem redeclare {d d' : Draft} {name : String} {type : Ty} {place : Location}
    (hd : (d.field? name).isSome) (h : d.execute (.field name type none place) = .ok d') :
    d' = d := by
  have h : d.declare name type none place = .ok d' := h
  cases declares_of_eq_ok h with
  | added hnew _ _ _ =>
    rw [hnew] at hd
    cases hd
  | kept _ hd' => exact hd'

/-- Inheritance is one flat pass over the superclasses of the record, followed by what the record
says itself. The superclasses are the classes that lead to it from parent to parent, each reached
with one set of bindings only, and every field has the last expression written in the pass. Templates
are looked up by name; those of a run have distinct names. -/
theorem ofTemplate_linear (hts : (ts.map Template.name).Nodup) {t : Template} {bs : Bindings}
    {d : Draft} (h : ofTemplate db ts t bs = .ok d) {name : String} {anonymous isClass : Bool}
    {direct : List String} {r : Record} (hr : d.finish db name anonymous isClass direct = .ok r) :
    ∃ as : List Ancestor,
      as.map Ancestor.name = r.superclasses ∧ r.superclasses.Nodup ∧
      (∀ a ∈ as, a.template ∈ ts ∧ d.instantiation? a.name = some a.bindings) ∧
      (as.foldlM applyClass empty >>= fun d₁ => (t.items bs).foldlM execute d₁) = .ok d ∧
      (∀ f ∈ d.fields,
        f.value = (lastWritten f.name (as.flatMap Ancestor.items ++ t.items bs)).getD .unset) ∧
      (∀ (e e' : Draft) (field : String) (type : Ty) (place : Location), (e.field? field).isSome →
        e.execute (.field field type none place) = .ok e' → e' = e) ∧
      (∀ (e e' : Draft) (p : ParentRef) (outer : Bindings), (e.instantiation? p.name).isSome →
        e.inherit db ts p outer = .ok e' → e' = e) ∧
      (∀ a, Relation.TransGen (Ancestor.Inherits db ts) ⟨t, bs⟩ a ↔ a ∈ as) ∧
      ∀ a b, Relation.TransGen (Ancestor.Inherits db ts) ⟨t, bs⟩ a →
        Relation.TransGen (Ancestor.Inherits db ts) ⟨t, bs⟩ b → a.name = b.name → a = b := by
  obtain ⟨as, -, hlineage, hholds, d₁, has, hown⟩ := ofTemplate_lineage hts h
  obtain ⟨m, -, hr⟩ := finishIn_eq_ok.1 hr
  have hsuper : r.superclasses = as.map Ancestor.name := by
    rw [hr]
    exact hholds.superclasses
  have hmem : ∀ a, Relation.TransGen (Ancestor.Inherits db ts) ⟨t, bs⟩ a ↔ a ∈ as :=
    fun a => (hlineage.mem_iff hts).symm
  refine ⟨as, hsuper.symm, hsuper ▸ hlineage.nodup, ?_, bind_eq_ok.2 ⟨d₁, has, hown⟩,
    fun f hf => value_eq_lastWritten has hown hf, fun e e' _ _ _ => redeclare,
    fun e e' _ _ => inherit_again, hmem, ?_⟩
  · exact fun a ha => ⟨hlineage.templates a ha, hholds.instantiation?_of_mem ha⟩
  · intro a b ha hb hab
    exact List.inj_on_of_nodup_map hlineage.nodup ((hmem a).1 ha) ((hmem b).1 hb) hab

/-- Two classes that derive from a third with equal arguments: one overrides its field, the other
declares it again. Newest first. -/
def diamond : List Template :=
  [⟨"Right", [], [⟨"Top", [.int 1], .start ""⟩], [], [.field "v" .int none (.start "")]⟩,
    ⟨"Left", [], [⟨"Top", [.int 1], .start ""⟩], [], [.override ⟨"v", .int 2, .start ""⟩]⟩,
    ⟨"Top", [⟨"x", .int, none⟩], [], [],
      [.field "v" .int (some (.reference "x" (.start ""))) (.start "")]⟩]

def bottom : Template := ⟨"bottom", [], [⟨"Left", [], .start ""⟩, ⟨"Right", [], .start ""⟩], [], []⟩

theorem diamond_linear : (diamond.map Template.name).Nodup ∧
    ∃ (d : Draft) (r : Record) (as : List Ancestor), ofTemplate .empty diamond bottom [] = .ok d ∧
      d.finish .empty "bottom" false false bottom.directSuperclasses = .ok r ∧
      r.superclasses = ["Top", "Left", "Right"] ∧ as.map Ancestor.name = r.superclasses ∧
      (as.foldlM applyClass empty >>= fun d₁ => (bottom.items []).foldlM execute d₁) = .ok d ∧
      ∀ f ∈ d.fields,
        f.value = (lastWritten f.name (as.flatMap Ancestor.items ++ bottom.items [])).getD .unset := by
  have hnames : (diamond.map Template.name).Nodup := by decide
  have hrun : ((ofTemplate .empty diamond bottom []) >>= fun d =>
      d.finish .empty "bottom" false false bottom.directSuperclasses).map Record.superclasses =
        .ok ["Top", "Left", "Right"] := by rfl
  obtain ⟨r, hr, hsuper⟩ := map_eq_ok.1 hrun
  obtain ⟨d, hd, hr⟩ := bind_eq_ok.1 hr
  obtain ⟨as, has, -, -, hflat, hlast, -⟩ := ofTemplate_linear hnames hd hr
  exact ⟨hnames, d, r, as, hd, hr, hsuper, has, hflat, hlast⟩

end Draft
end TypedRecords
