import TypedRecords.Proofs.Draft.Fields
import TypedRecords.Proofs.Outcome

/-!
# Body items executed in sequence

What a template says itself is a sequence of items, its enclosing lets before its body. A sequence
that is executed with success leaves each field with the last expression written for it; a
declaration that has no initializer writes none.
-/

namespace TypedRecords

namespace BodyItem

def substitute (bs : Bindings) : BodyItem → BodyItem
  | field name type value place => .field name type (value.map (·.substitute bs)) place
  | override o => .override { o with value := o.value.substitute bs }

/-- The expression that the item writes for a field. -/
def written? (name : String) : BodyItem → Option Expr
  | field other _ value _ => if other = name then value else none
  | override o => if o.name = name then some o.value else none

end BodyItem

/-- The last expression that the items write for a field. -/
def lastWritten (name : String) (items : List BodyItem) : Option Expr :=
  (items.filterMap (·.written? name)).getLast?

/-- The items of a template under bindings of its parameters, which the enclosing lets do not see. -/
def Template.items (t : Template) (bs : Bindings) : List BodyItem :=
  t.lets.map .override ++ t.body.map (·.substitute bs)

namespace Draft
variable {d d' : Draft}

def execute (d : Draft) : BodyItem → Except ParseError Draft
  | .field name type value place => d.declare name type value place
  | .override o => d.override o

theorem applyOwn_eq (t : Template) (bs : Bindings) (d : Draft) :
    d.applyOwn t bs = (t.items bs).foldlM execute d := by
  have hitem : applyItem bs = fun d i => d.execute (i.substitute bs) :=
    funext fun d => funext fun i => by cases i <;> rfl
  rw [Template.items, List.foldlM_append]
  simp only [List.foldlM_map, applyOwn, hitem]
  rfl

/-! ### One item -/

theorem override_eq_ok {o : Override} :
    d.override o = .ok d' ↔ (d.field? o.name).isSome ∧ d' = d.write o.name o.value o.place := by
  unfold override
  cases d.field? o.name with
  | none => exact ⟨nofun, fun h => nomatch h.1⟩
  | some f => exact ⟨fun h => ⟨rfl, (Except.ok.inj h).symm⟩, fun h => congrArg _ h.2.symm⟩

/-- What a declaration does: it adds a field, or gives one that exists a new expression, or leaves it
as it is where it has no initializer. -/
inductive Declares (d d' : Draft) (name : String) (type : Ty) (place : Location) :
    Option Expr → Prop
  | added {value : Option Expr} (hnew : d.field? name = none)
      (hfields : d'.fields = d.fields ++ [⟨name, type, value.getD .unset, place⟩])
      (hs : d'.superclasses = d.superclasses) (hi : d'.instantiations = d.instantiations) :
      Declares d d' name type place value
  | written {value : Expr} (hold : (d.field? name).isSome) (h : d' = d.write name value place) :
      Declares d d' name type place (some value)
  | kept (hold : (d.field? name).isSome) (h : d' = d) : Declares d d' name type place none

theorem declare_of_some {name : String} {f : DraftField} (hf : d.field? name = some f) (type : Ty)
    (value : Option Expr) (place : Location) :
    d.declare name type value place =
      if f.type ≠ type then .error ⟨.fieldRedeclared name type f.type, place⟩
      else .ok (value.elim d fun value => d.write name value place) := by
  unfold declare
  split
  · rename_i g hg
    obtain rfl : f = g := Option.some.inj (hf.symm.trans hg)
    cases value <;> rfl
  · rename_i hnone
    cases hf.symm.trans hnone

theorem declare_of_none {name : String} (hnew : d.field? name = none) (type : Ty)
    (value : Option Expr) (place : Location) : ∃ d', d.declare name type value place = .ok d' ∧
      d'.fields = d.fields ++ [⟨name, type, value.getD .unset, place⟩] ∧
      d'.superclasses = d.superclasses ∧ d'.instantiations = d.instantiations := by
  unfold declare
  split
  · rename_i f hf
    cases hnew.symm.trans hf
  · exact ⟨_, rfl, rfl, rfl, rfl⟩

theorem declares_of_eq_ok {name : String} {type : Ty} {value : Option Expr} {place : Location}
    (h : d.declare name type value place = .ok d') : d.Declares d' name type place value := by
  cases hf : d.field? name with
  | some f =>
    have hold : (d.field? name).isSome := by rw [hf]; rfl
    rw [declare_of_some hf] at h
    split at h
    · cases h
    · cases value with
      | none => exact .kept hold (Except.ok.inj h).symm
      | some value => exact .written hold (Except.ok.inj h).symm
  | none =>
    obtain ⟨d₁, hd₁, hfields, hs, hi⟩ := declare_of_none hf type value place
    obtain rfl := Except.ok.inj (hd₁.symm.trans h)
    exact .added hf hfields hs hi

theorem execute_instances {item : BodyItem} (h : d.execute item = .ok d') :
    d'.superclasses = d.superclasses ∧ d'.instantiations = d.instantiations := by
  cases item with
  | field name type value place =>
    cases declares_of_eq_ok h with
    | added _ _ hs hi => exact ⟨hs, hi⟩
    | written _ hd => exact hd ▸ ⟨rfl, rfl⟩
    | kept _ hd => exact hd ▸ ⟨rfl, rfl⟩
  | override o => exact (override_eq_ok.1 h).2 ▸ ⟨rfl, rfl⟩

theorem execute_expr {item : BodyItem} (h : d.execute item = .ok d') (name : String) :
    d'.expr name = (item.written? name).getD (d.expr name) := by
  cases item with
  | field other type value place =>
    cases declares_of_eq_ok h with
    | added hnew hfields _ _ =>
      rw [expr, field?, hfields, List.find?_append, ← field?, BodyItem.written?]
      by_cases hn : other = name
      · subst hn
        rw [expr, hnew]
        cases value <;> simp
      · rw [expr]
        cases d.field? name <;> simp [hn]
    | written hold hd =>
      rw [hd, expr_write hold, BodyItem.written?]
      split <;> rfl
    | kept hold hd => rw [hd, BodyItem.written?, ite_self, Option.getD_none]
  | override o =>
    obtain ⟨hold, rfl⟩ := override_eq_ok.1 h
    rw [expr_write hold, BodyItem.written?]
    split <;> rfl

/-! ### A sequence of items -/

theorem foldlM_execute_instances {items : List BodyItem} (h : items.foldlM execute d = .ok d') :
    d'.superclasses = d.superclasses ∧ d'.instantiations = d.instantiations := by
  induction items generalizing d with
  | nil => exact foldlM_nil_eq_ok.1 h ▸ ⟨rfl, rfl⟩
  | cons item items ih =>
    obtain ⟨d₁, hitem, h⟩ := foldlM_cons_eq_ok.1 h
    obtain ⟨hs, hi⟩ := execute_instances hitem
    obtain ⟨hs', hi'⟩ := ih h
    exact ⟨hs'.trans hs, hi'.trans hi⟩

/-- A sequence leaves every field with the last expression it writes for it. -/
theorem foldlM_execute_expr {items : List BodyItem} (h : items.foldlM execute d = .ok d')
    (name : String) : d'.expr name = (lastWritten name items).getD (d.expr name) := by
  induction items generalizing d with
  | nil =>
    rw [foldlM_nil_eq_ok.1 h]
    rfl
  | cons item items ih =>
    obtain ⟨d₁, hitem, h⟩ := foldlM_cons_eq_ok.1 h
    rw [ih h, execute_expr hitem, lastWritten, lastWritten, List.filterMap_cons]
    cases item.written? name with
    | none => rfl
    | some e => simp [List.getLast?_cons]

end Draft
end TypedRecords
