import Mathlib.Data.List.Nodup
import TypedRecords.Draft.Resolve
import TypedRecords.Proofs.Outcome

/-!
# Fields of a draft

No two fields of a draft have one name, so a name and a field determine each other. The finished
record has the same fields, each with its value.
-/

namespace TypedRecords.Draft
variable {d : Draft}

theorem eq_of_name_eq {f g : DraftField} (hf : f ∈ d.fields) (hg : g ∈ d.fields)
    (h : f.name = g.name) : f = g :=
  List.inj_on_of_nodup_map d.distinct hf hg h

theorem mem_of_field? {name : String} {f : DraftField} (h : d.field? name = some f) :
    f ∈ d.fields ∧ f.name = name :=
  ⟨List.mem_of_find?_eq_some h, by simpa using List.find?_some h⟩

theorem field?_of_mem {f : DraftField} (hf : f ∈ d.fields) : d.field? f.name = some f := by
  have hsome : (d.field? f.name).isSome := List.find?_isSome.2 ⟨f, hf, by simp⟩
  obtain ⟨g, hg⟩ := Option.isSome_iff_exists.1 hsome
  obtain ⟨hmem, hname⟩ := mem_of_field? hg
  rw [hg, eq_of_name_eq hmem hf hname]

theorem field?_write (d : Draft) (name other : String) (value : Expr) (place : Location) :
    (d.write name value place).field? other = (d.field? other).map (·.write name value place) := by
  simp only [field?, write, List.find?_map, Function.comp_def, DraftField.name_write]

/-- The expression of a field, unset where there is no such field. -/
def expr (d : Draft) (name : String) : Expr := (d.field? name).elim .unset DraftField.value

theorem expr_of_mem {f : DraftField} (hf : f ∈ d.fields) : d.expr f.name = f.value := by
  rw [expr, field?_of_mem hf]
  rfl

theorem expr_write {name : String} (hd : (d.field? name).isSome) (value : Expr) (place : Location)
    (other : String) :
    (d.write name value place).expr other = if name = other then value else d.expr other := by
  rw [expr, field?_write, expr]
  cases hf : d.field? other with
  | none =>
    rw [if_neg (by rintro rfl; rw [hf] at hd; cases hd)]
    rfl
  | some f =>
    simp only [Option.map_some, Option.elim_some, DraftField.write, (mem_of_field? hf).2, eq_comm]
    split <;> rfl

/-- A record that is finished has the fields of the draft, with the values found for them, and its
superclasses. -/
theorem finishIn_eq_ok {db : Database} {order : List DraftField} {name : String}
    {anonymous isClass : Bool} {direct : List String} {r : Record} :
    d.finishIn db order name anonymous isClass direct = .ok r ↔
      ∃ m, d.values db order = .ok m ∧
        r = ⟨name, anonymous, isClass, d.fields.map fun f => ⟨f.name, f.type, (m.lookup f.name).join⟩,
          d.superclasses, direct, false⟩ := by
  unfold finishIn
  rw [bind_eq_ok]
  exact exists_congr fun m => and_congr_right fun _ => pure_eq_ok.trans eq_comm

end TypedRecords.Draft
