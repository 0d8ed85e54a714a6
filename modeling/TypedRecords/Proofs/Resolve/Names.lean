import Mathlib.Order.WellFounded
import TypedRecords.Proofs.Resolve.Solution

/-!
# Names in the expressions of fields

An evaluation that succeeds has found every name that it comes to, and the field that a name stands
for has its value before. An operation does not evaluate what follows an unset operand, so the names
there are not looked up; a name anywhere else is that of a field or a def, and no field refers to
itself through such names (`Draft.finish_resolved`).
-/

namespace TypedRecords

namespace Expr

/-- The name stands in the expression, in operations only behind operands that are `live`. The
operators of dags count where `operators` holds. -/
inductive Mentions (live : Expr → Prop) (operators : Prop) (name : String) : Expr → Prop
  | reference (place : Location) : Mentions live operators name (.reference name place)
  | bits {items : List Expr} {place : Location} {e : Expr} (he : e ∈ items)
      (h : Mentions live operators name e) : Mentions live operators name (.bits items place)
  | list {items : List Expr} {element : Option Ty} {place : Location} {e : Expr} (he : e ∈ items)
      (h : Mentions live operators name e) :
      Mentions live operators name (.list items element place)
  | operator {operator : Expr} {args : List (DagArg Expr)} {place : Location} (ho : operators)
      (h : Mentions live operators name operator) :
      Mentions live operators name (.dag operator args place)
  | arg {operator : Expr} {args : List (DagArg Expr)} {place : Location} {a : DagArg Expr} {e : Expr}
      (ha : a ∈ args) (he : e ∈ a.value) (h : Mentions live operators name e) :
      Mentions live operators name (.dag operator args place)
  | operand {op : Bang} {before after : List Expr} {place : Location} {e : Expr}
      (hbefore : ∀ x ∈ before, live x) (h : Mentions live operators name e) :
      Mentions live operators name (.bang op (before ++ e :: after) place)

/-- The expression `x` is an operand of an operation in the expression. -/
inductive OperandOf (x : Expr) : Expr → Prop
  | bits {items : List Expr} {place : Location} {e : Expr} (he : e ∈ items) (h : OperandOf x e) :
      OperandOf x (.bits items place)
  | list {items : List Expr} {element : Option Ty} {place : Location} {e : Expr} (he : e ∈ items)
      (h : OperandOf x e) : OperandOf x (.list items element place)
  | operator {operator : Expr} {args : List (DagArg Expr)} {place : Location}
      (h : OperandOf x operator) : OperandOf x (.dag operator args place)
  | arg {operator : Expr} {args : List (DagArg Expr)} {place : Location} {a : DagArg Expr} {e : Expr}
      (ha : a ∈ args) (he : e ∈ a.value) (h : OperandOf x e) : OperandOf x (.dag operator args place)
  | here {op : Bang} {args : List Expr} {place : Location} (hx : x ∈ args) :
      OperandOf x (.bang op args place)
  | inner {op : Bang} {args : List Expr} {place : Location} {e : Expr} (he : e ∈ args)
      (h : OperandOf x e) : OperandOf x (.bang op args place)

variable {live : Expr → Prop} {operators : Prop} {name : String} {e : Expr}

/-- Where every operand is live, a name counts wherever it stands. -/
theorem Mentions.of_operands (h : e.Mentions (fun _ => True) operators name)
    (hlive : ∀ x, OperandOf x e → live x) : e.Mentions live operators name := by
  induction h with
  | reference place => exact .reference place
  | bits he _ ih => exact .bits he (ih fun x hx => hlive x (.bits he hx))
  | list he _ ih => exact .list he (ih fun x hx => hlive x (.list he hx))
  | operator ho _ ih => exact .operator ho (ih fun x hx => hlive x (.operator hx))
  | arg ha he _ ih => exact .arg ha he (ih fun x hx => hlive x (.arg ha he hx))
  | @operand op before after place e _ _ ih =>
    have he : e ∈ before ++ e :: after := by simp
    refine .operand (fun x hx => hlive x (.here ?_)) (ih fun x hx => hlive x (.inner he hx))
    exact List.mem_append_left _ hx

/-! ### Evaluations that succeed -/

/-- The expression evaluates, to a value or unset. -/
def Evaluates (s : Scope Unit) (e : Expr) : Prop :=
  ∃ expected v, (evaluate s e expected).run () = .ok (v, ())

def Unset (s : Scope Unit) (e : Expr) : Prop := (evaluate s e none).run () = .ok (none, ())

end Expr

/-- The name is looked up with success. -/
def Scope.Finds (s : Scope Unit) (name : String) : Prop :=
  ∃ place v, (s.lookup name place).run () = .ok (v, ())

section
variable {s : Scope Unit}

theorem evaluates_of_evaluateBits {place : Location} {es : List Expr} {bits : List (Option Bool)}
    (h : (evaluateBits s place es).run () = .ok (bits, ())) : ∀ e ∈ es, e.Evaluates s := by
  induction es generalizing bits with
  | nil => nofun
  | cons e es ih =>
    rw [evaluateBits] at h
    obtain ⟨v, ⟨⟩, hv, h⟩ := run_bind_eq_ok.1 h
    obtain ⟨first, ⟨⟩, -, h⟩ := run_bind_eq_ok.1 h
    obtain ⟨rest, ⟨⟩, hrest, -⟩ := run_bind_eq_ok.1 h
    exact List.forall_mem_cons.2 ⟨⟨none, v, hv⟩, ih hrest⟩

theorem evaluates_of_evaluateItems {place : Location} {declared : Option Ty} {es : List Expr}
    {vs : List Value} (h : (evaluateItems s place declared es).run () = .ok (vs, ())) :
    ∀ e ∈ es, e.Evaluates s := by
  induction es generalizing vs with
  | nil => nofun
  | cons e es ih =>
    rw [evaluateItems] at h
    obtain ⟨v, ⟨⟩, hv, h⟩ := run_bind_eq_ok.1 h
    cases v with
    | none => exact absurd h run_throw_ne_ok
    | some v =>
      obtain ⟨rest, ⟨⟩, hrest, -⟩ := run_bind_eq_ok.1 h
      exact List.forall_mem_cons.2 ⟨⟨declared, some v, hv⟩, ih hrest⟩

theorem evaluates_of_evaluateArgs {as : List (DagArg Expr)} {bs : List (DagArg Value)}
    (h : (evaluateArgs s as).run () = .ok (bs, ())) :
    ∀ a ∈ as, ∀ e ∈ a.value, e.Evaluates s := by
  induction as generalizing bs with
  | nil => nofun
  | cons a as ih =>
    rcases a with ⟨name, _ | e⟩
    · rw [evaluateArgs] at h
      obtain ⟨rest, ⟨⟩, hrest, -⟩ := run_bind_eq_ok.1 h
      exact List.forall_mem_cons.2 ⟨nofun, ih hrest⟩
    · rw [evaluateArgs] at h
      obtain ⟨v, ⟨⟩, hv, h⟩ := run_bind_eq_ok.1 h
      obtain ⟨rest, ⟨⟩, hrest, -⟩ := run_bind_eq_ok.1 h
      refine List.forall_mem_cons.2 ⟨fun e' he' => ?_, ih hrest⟩
      exact Option.some.inj he' ▸ ⟨none, v, hv⟩

/-- Operands are evaluated as far as none before them is unset. -/
theorem evaluates_of_evaluateOperands {before after : List Expr} {e : Expr}
    {vs : Option (List Value)}
    (h : (evaluateOperands s (before ++ e :: after)).run () = .ok (vs, ()))
    (hbefore : ∀ x ∈ before, ¬x.Unset s) : e.Evaluates s := by
  induction before generalizing vs with
  | nil =>
    rw [List.nil_append, evaluateOperands] at h
    obtain ⟨v, ⟨⟩, hv, -⟩ := run_bind_eq_ok.1 h
    exact ⟨none, v, hv⟩
  | cons x before ih =>
    obtain ⟨hx, hbefore⟩ := List.forall_mem_cons.1 hbefore
    rw [List.cons_append, evaluateOperands] at h
    obtain ⟨v, ⟨⟩, hv, h⟩ := run_bind_eq_ok.1 h
    cases v with
    | none => exact absurd hv hx
    | some v =>
      obtain ⟨rest, ⟨⟩, hrest, -⟩ := run_bind_eq_ok.1 h
      exact ih hrest hbefore

theorem evaluates_of_dag {operator : Expr} {args : List (DagArg Expr)} {place : Location}
    (h : (Expr.dag operator args place).Evaluates s) :
    ((s.plainName? operator).isSome ∨ operator.Evaluates s) ∧
      ∀ a ∈ args, ∀ e ∈ a.value, e.Evaluates s := by
  obtain ⟨expected, v, h⟩ := h
  rw [evaluate] at h
  dsimp only at h
  split at h
  · rename_i name hname
    obtain ⟨op, ⟨⟩, -, h⟩ := run_bind_eq_ok.1 h
    obtain ⟨bs, ⟨⟩, hbs, -⟩ := run_bind_eq_ok.1 h
    exact ⟨.inl (by rw [hname]; rfl), evaluates_of_evaluateArgs hbs⟩
  · obtain ⟨w, ⟨⟩, hw, h⟩ := run_bind_eq_ok.1 h
    obtain ⟨op, ⟨⟩, -, h⟩ := run_bind_eq_ok.1 h
    obtain ⟨bs, ⟨⟩, hbs, -⟩ := run_bind_eq_ok.1 h
    exact ⟨.inr ⟨none, w, hw⟩, evaluates_of_evaluateArgs hbs⟩

theorem Scope.plainName?_eq_some {e : Expr} {name : String} (h : s.plainName? e = some name) :
    (∃ place, e = .reference name place) ∧ s.field name = none ∧ s.db.ref? name = none := by
  cases e with
  | reference other place =>
    rw [Scope.plainName?] at h
    split at h
    · rename_i hfree
      obtain rfl := Option.some.inj h
      simp only [Bool.and_eq_true, Option.isNone_iff_eq_none] at hfree
      exact ⟨⟨place, rfl⟩, hfree⟩
    · cases h
  | _ => cases h

/-- A name that an evaluation comes to is found. Only the operator of a dag may be a name that stands
for neither a field nor a def. -/
theorem Expr.Mentions.finds {live : Expr → Prop} {operators : Prop} {name : String} {e : Expr}
    (h : e.Mentions live operators name) (hlive : ∀ x, live x → ¬x.Unset s) (he : e.Evaluates s) :
    s.Finds name ∨ (operators ∧ s.field name = none ∧ s.db.ref? name = none) := by
  induction h with
  | reference place =>
    obtain ⟨expected, v, hv⟩ := he
    rw [evaluate] at hv
    exact .inl ⟨place, v, hv⟩
  | @bits items place e hmem _ ih =>
    obtain ⟨expected, v, hv⟩ := he
    rw [evaluate] at hv
    obtain ⟨bits, ⟨⟩, hbits, -⟩ := run_bind_eq_ok.1 hv
    exact ih (evaluates_of_evaluateBits hbits e hmem)
  | @list items element place e hmem _ ih =>
    obtain ⟨expected, v, hv⟩ := he
    rw [evaluate] at hv
    obtain ⟨vs, ⟨⟩, hvs, -⟩ := run_bind_eq_ok.1 hv
    exact ih (evaluates_of_evaluateItems hvs e hmem)
  | @operator operator args place ho hname ih =>
    rcases (evaluates_of_dag he).1 with hplain | heval
    · obtain ⟨plain, hplain⟩ := Option.isSome_iff_exists.1 hplain
      obtain ⟨⟨place, rfl⟩, hfree⟩ := Scope.plainName?_eq_some hplain
      cases hname
      exact .inr ⟨ho, hfree⟩
    · exact ih heval
  | arg ha hmem _ ih => exact ih ((evaluates_of_dag he).2 _ ha _ hmem)
  | operand hbefore _ ih =>
    obtain ⟨expected, v, hv⟩ := he
    rw [evaluate] at hv
    obtain ⟨vs, ⟨⟩, hvs, -⟩ := run_bind_eq_ok.1 hv
    exact ih (evaluates_of_evaluateOperands hvs fun x hx => hlive x (hbefore x hx))

end

namespace Draft
variable {d : Draft} {db : Database}

/-- The scope of the record's expressions where the fields have the values `t`. -/
def settled (d : Draft) (db : Database) (t : String → Option Value) : Scope Unit :=
  d.scope db (readFrom fun name => some (t name))

/-- The field `f` mentions the field `g` in its expression. -/
def Refers (d : Draft) (live : Expr → Prop) (f g : String) : Prop :=
  (d.field? g).isSome ∧ ∃ field ∈ d.fields, field.name = f ∧ field.value.Mentions live True g

/-- Each name in the expressions of the fields, other than the operator of a dag, is that of a field
or a def, and no field refers to itself, be it through others. Only the names count that live
operands lead to. -/
structure Resolved (d : Draft) (db : Database) (live : Expr → Prop) : Prop where
  names : ∀ f ∈ d.fields, ∀ name, f.value.Mentions live False name →
    (d.field? name).isSome ∨ (db.ref? name).isSome
  acyclic : ∀ name, ¬Relation.TransGen (d.Refers live) name name

/-- Where every operand is live, the names count wherever they stand. -/
theorem Resolved.of_operands {live : Expr → Prop} (h : d.Resolved db live)
    (hlive : ∀ f ∈ d.fields, ∀ x, x.OperandOf f.value → live x) :
    d.Resolved db fun _ => True where
  names f hf name hname := h.names f hf name (hname.of_operands (hlive f hf))
  acyclic name hcycle := by
    refine h.acyclic name (Relation.TransGen.mono ?_ _ _ hcycle)
    rintro f g ⟨hg, field, hfield, hf, hmentions⟩
    exact ⟨hg, field, hfield, hf, hmentions.of_operands (hlive field hfield)⟩

theorem unset_mono {s t : Table} (hst : s.Le t) {e : Expr} (h : e.Unset (d.scope db (readFrom s))) :
    e.Unset (d.scope db (readFrom t)) := by
  have hread : ∀ f ∈ d.fields, growing.rel (readFrom s f) (readFrom t f) := fun f _ v hv =>
    readFrom_eq_ok.2 (hst f.name v (readFrom_eq_ok.1 hv))
  exact growing.evaluate (scope_scopes growing d rfl hread) e none none h

theorem Computes.evaluates {table : Table} {f : DraftField} {v : Option Value}
    (h : d.Computes db table f v) : f.value.Evaluates (d.scope db (readFrom table)) := by
  obtain ⟨w, ⟨⟩, hw, -⟩ := run_bind_eq_ok.1 (computes_iff.1 h)
  exact ⟨some f.type, w, hw⟩

/-- What is found is a field with a value in the table, or no field but a def. -/
theorem of_finds {table : Table} {name : String}
    (h : (d.scope db (readFrom table)).Finds name) :
    ((d.field? name).isSome ∧ (table name).isSome) ∨
      (d.field? name = none ∧ (db.ref? name).isSome) := by
  obtain ⟨place, v, h⟩ := h
  rw [Scope.lookup] at h
  cases hf : d.field? name with
  | none =>
    have hfield : (d.scope db (readFrom table)).field name = none := by
      simp only [scope, hf, Option.map_none]
    rw [hfield] at h
    dsimp only [scope] at h
    cases hr : db.ref? name with
    | none =>
      rw [hr] at h
      exact absurd h run_throw_ne_ok
    | some ref => exact .inr ⟨rfl, rfl⟩
  | some f =>
    have hfield : (d.scope db (readFrom table)).field name = some (f.type, readFrom table f) := by
      simp only [scope, hf, Option.map_some]
    rw [hfield] at h
    have hv : table name = some v := (mem_of_field? hf).2 ▸ readFrom_eq_ok.1 h
    exact .inl ⟨rfl, by rw [hv]; rfl⟩

/-- The fields of a filled memo refer to older entries of it only, so their references come to an
end. -/
theorem Filled.acc {m : Memo} (h : d.Filled db m) {t : Table} (hle : m.table.Le t) {name : String}
    (hname : (m.table name).isSome) :
    Acc (fun g f => d.Refers (fun x => ¬x.Unset (d.scope db (readFrom t))) f g) name := by
  induction h generalizing name with
  | nil => cases hname
  | @cons m f v _ hf hnew hv ih =>
    have hle' : m.table.Le t := (Memo.le_cons v hnew).trans hle
    by_cases hfn : name = f.name
    · subst hfn
      refine ⟨_, fun g ⟨hg, f', hf', hff', hmentions⟩ => ?_⟩
      obtain rfl := eq_of_name_eq hf' hf hff'
      -- an operand that the older entries leave unset stays unset under `t`
      have hlive : ∀ x : Expr, ¬x.Unset (d.scope db (readFrom t)) →
          ¬x.Unset (d.scope db (readFrom m.table)) := fun x hx h => hx (unset_mono hle' h)
      rcases hmentions.finds hlive hv.evaluates with hfinds | ⟨-, hfree, -⟩
      · rcases of_finds hfinds with ⟨-, htable⟩ | ⟨hnone, -⟩
        · exact ih hle' htable
        · rw [hnone] at hg
          cases hg
      · rw [scope, Option.map_eq_none_iff] at hfree
        rw [hfree] at hg
        cases hg
    · rw [Memo.table_cons_ne m v hfn] at hname
      exact ih hle' hname

/-- The names in a record that was finished are resolved, save those behind an unset operand. -/
theorem finish_resolved {name : String} {anonymous isClass : Bool} {direct : List String}
    {r : Record} (h : d.finish db name anonymous isClass direct = .ok r) :
    ∃ t : String → Option Value, r.fields = d.fields.map (fun f => ⟨f.name, f.type, t f.name⟩) ∧
      d.Solves db t ∧ d.Resolved db fun x => ¬x.Unset (d.settled db t) := by
  obtain ⟨m, hm, rfl⟩ := finishIn_eq_ok.1 h
  obtain ⟨hfilled, hall⟩ := values_sound (fun _ => Iff.rfl) hm
  have hsolves := hfilled.solves hall
  have hle : m.table.Le fun name => some (memoValues m name) := fun _ v hv =>
    (table_eq_memoValues (Option.isSome_iff_exists.2 ⟨v, hv⟩)).symm.trans hv
  refine ⟨memoValues m, rfl, hsolves, fun f hf name hmentions => ?_, fun name => ?_⟩
  · rcases hmentions.finds (fun _ => id) (hsolves f hf).evaluates with hfinds | ⟨hfalse, -⟩
    · exact (of_finds hfinds).imp And.left And.right
    · exact hfalse.elim
  · have hwf : WellFounded fun g f =>
        d.Refers (fun x => ¬x.Unset (d.settled db (memoValues m))) f g := by
      refine ⟨fun f => ⟨f, fun g hfg => ?_⟩⟩
      obtain ⟨field, hfield⟩ := Option.isSome_iff_exists.1 hfg.1
      obtain ⟨hmem, rfl⟩ := mem_of_field? hfield
      exact hfilled.acc hle (hall field hmem)
    intro hcycle
    exact hwf.transGen.irrefl.irrefl name (Relation.transGen_swap.2 hcycle)

end Draft
end TypedRecords
