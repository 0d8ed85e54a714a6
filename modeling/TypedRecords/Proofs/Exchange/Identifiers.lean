import TypedRecords.Proofs.Together.Draft
import TypedRecords.Proofs.Typing.Written

/-!
# What a template names

The identifiers in the expressions of a template are all that it can ask of the defs. So a template that
does not name a def is built alike without it and with it, if none of the templates that it extends names
it either (`Template.built_together`).
-/

namespace TypedRecords

/-! ### Identifiers -/

namespace Expr

mutual

/-- The identifiers that stand in the expression, those of dag operators included. -/
def identifiers : Expr → List String
  | reference name _ => [name]
  | bits items _ | list items _ _ | bang _ items _ => identifiersAll items
  | dag operator args _ => operator.identifiers ++ identifiersArgs args
  | unset | int _ | string _ | code _ | bound .. => []

def identifiersAll : List Expr → List String
  | [] => []
  | e :: es => e.identifiers ++ identifiersAll es

def identifiersArgs : List (DagArg Expr) → List String
  | [] => []
  | ⟨_, some e⟩ :: as => e.identifiers ++ identifiersArgs as
  | ⟨_, none⟩ :: as => identifiersArgs as

end

theorem mem_identifiersAll {a : String} {es : List Expr} :
    a ∈ identifiersAll es ↔ ∃ e ∈ es, a ∈ e.identifiers := by
  induction es with
  | nil => simp [identifiersAll]
  | cons e es ih => simp [identifiersAll, ih]

section
variable {N : String → String → Prop} {seen : Nat → Prop} {T : Ty → Prop}

mutual

/-- A written expression is similar to itself as to all identifiers in it. -/
theorem similar_self : ∀ e : Expr, e.Written T → (∀ a ∈ e.identifiers, N a a) → e.Similar N seen e
  | .unset, _, _ => .unset
  | .int number, _, _ => .int number
  | .string text, _, _ => .string text
  | .code text, _, _ => .code text
  | .reference name _, _, hN => .reference (hN name (List.mem_singleton_self name))
  | .bits items _, .bits hitems, hN => .bits (similarAll_self items hitems hN)
  | .list items _ _, .list _ hitems, hN => .list (similarAll_self items hitems hN)
  | .dag operator args _, .dag ho hargs, hN => by
    rw [identifiers] at hN
    obtain ⟨hNo, hNargs⟩ := List.forall_mem_append.1 hN
    exact .dag (similar_self operator ho hNo) (similarArgs_self args hargs hNargs)
  | .bang _ args _, .bang hargs, hN => .bang (similarAll_self args hargs hN)
  | .bound _ _, .bound hvalue, _ => .bound fun v hv => (hvalue v hv).elim

theorem similarAll_self : ∀ es : List Expr, (∀ e ∈ es, e.Written T) →
    (∀ a ∈ identifiersAll es, N a a) → SimilarAll N seen es es
  | [], _, _ => .nil
  | e :: es, hes, hN => by
    rw [identifiersAll] at hN
    obtain ⟨hNe, hNes⟩ := List.forall_mem_append.1 hN
    obtain ⟨he, hes⟩ := List.forall_mem_cons.1 hes
    exact .cons (similar_self e he hNe) (similarAll_self es hes hNes)

theorem similarArgs_self : ∀ as : List (DagArg Expr), (∀ a ∈ as, ∀ e ∈ a.value, e.Written T) →
    (∀ a ∈ identifiersArgs as, N a a) → SimilarArgs N seen as as
  | [], _, _ => .nil
  | ⟨_, some e⟩ :: as, has, hN => by
    rw [identifiersArgs] at hN
    obtain ⟨hNe, hNas⟩ := List.forall_mem_append.1 hN
    obtain ⟨he, has⟩ := List.forall_mem_cons.1 has
    exact .value (similar_self e (he e rfl) hNe) (similarArgs_self as has hNas)
  | ⟨_, none⟩ :: as, has, hN => .none (similarArgs_self as (List.forall_mem_cons.1 has).2 hN)

end

end

end Expr

namespace BodyItem

def value? : BodyItem → Option Expr
  | field _ _ value _ => value
  | override o => some o.value

end BodyItem

namespace Template

/-- All expressions of the template: defaults, parent arguments, enclosing lets and the body. -/
def exprs (t : Template) : List Expr :=
  t.params.filterMap Param.default ++ t.parents.flatMap ParentRef.args ++ t.lets.map Override.value ++
    t.body.filterMap BodyItem.value?

/-- The identifiers in the expressions of the template. -/
def identifiers (t : Template) : List String := t.exprs.flatMap Expr.identifiers

/-- The template `u` is that of a class that `t` names as a parent. -/
def Extends (ts : List Template) (t u : Template) : Prop := u ∈ ts ∧ ∃ q ∈ t.parents, q.name = u.name

section
variable {names : String → Prop} {seen : Nat → Prop} {T : Ty → Prop} {t : Template}

theorem similarParams_self {ps : List Param}
    (h : ∀ p ∈ ps, ∀ e ∈ p.default, e.Written T ∧ ∀ a ∈ e.identifiers, names a) (xs : List String) :
    SimilarParams names seen xs xs ps ps := by
  induction ps generalizing xs with
  | nil => exact .nil
  | cons p ps ih =>
    obtain ⟨hp, hps⟩ := List.forall_mem_cons.1 h
    refine .cons rfl ?_ (ih hps _)
    cases hdefault : p.default with
    | none => exact .none
    | some e =>
      obtain ⟨he, hnames⟩ := hp e hdefault
      exact .some (e.similar_self he fun a ha => .self ⟨rfl, hnames a ha⟩ xs)

/-- A written template is similar to itself as to all identifiers in it. -/
theorem similar_self (ht : t.Written T) (hnames : ∀ a ∈ t.identifiers, names a) :
    t.Similar names seen t := by
  have hexpr : ∀ e ∈ t.exprs, ∀ a ∈ e.identifiers, names a := fun e he a ha =>
    hnames a (List.mem_flatMap.2 ⟨e, he, ha⟩)
  obtain ⟨hexpr, hbody⟩ := List.forall_mem_append.1 hexpr
  obtain ⟨hexpr, hlets⟩ := List.forall_mem_append.1 hexpr
  obtain ⟨hparams, hparents⟩ := List.forall_mem_append.1 hexpr
  have hself : ∀ xs (e : Expr), e.Written T → (∀ a ∈ e.identifiers, names a) →
      e.Similar (Corresponds (SameName names) xs xs) seen e := fun xs e he hnames =>
    e.similar_self he fun a ha => .self ⟨rfl, hnames a ha⟩ xs
  refine ⟨rfl, similarParams_self (T := T) (fun p hp e he => ⟨(ht.params p hp).2 e he, ?_⟩) [],
    List.forall₂_same.2 fun q hq => ⟨rfl, ?_⟩, List.forall₂_same.2 fun o ho => ⟨rfl, ?_⟩,
    List.forall₂_same.2 fun i hi => ?_⟩
  · exact hparams e (List.mem_filterMap.2 ⟨p, hp, he⟩)
  · refine Expr.similarAll_self q.args (ht.parents q hq) fun a ha => .self ⟨rfl, ?_⟩ _
    obtain ⟨e, he, ha⟩ := Expr.mem_identifiersAll.1 ha
    exact hparents e (List.mem_flatMap.2 ⟨q, hq, he⟩) a ha
  · refine o.value.similar_self (ht.lets o ho) fun a ha => ⟨rfl, ?_⟩
    exact hlets o.value (List.mem_map_of_mem ho) a ha
  · have hwritten := ht.body i hi
    cases i with
    | field name type value place =>
      refine .field ?_
      cases value with
      | none => exact .none
      | some e => exact .some (hself _ e (hwritten.2 e rfl) (hbody e (List.mem_filterMap.2 ⟨_, hi, rfl⟩)))
    | override o =>
      exact .override ⟨rfl, hself _ o.value hwritten (hbody o.value (List.mem_filterMap.2 ⟨_, hi, rfl⟩))⟩

end

/-! ### Building beside a def -/

/-- The classes that matter are those that the template extends. -/
def signature (ts : List Template) (t : Template) : Signature where
  needed name := ∀ u ∈ ts, u.name = name → Relation.ReflTransGen (Extends ts) t u
  left := paramsOf ts
  right := paramsOf ts

section
variable {names : String → Prop} {seen : Nat → Prop} {T : Ty → Prop} {t : Template}

/-- What a template builds, of which it and the templates that it extends name only what satisfies
`names`, is the same over databases that agree. -/
theorem built_together {db db' : Database} (hdb : db.AgreesAt names seen db') {ts : List Template}
    (hdistinct : (ts.map Template.name).Nodup) (hts : ∀ u ∈ ts, u.Written T) (ht : t.Written T)
    (hparams : t.params = [])
    (hnames : ∀ u, Relation.ReflTransGen (Extends ts) t u → ∀ a ∈ u.identifiers, names a)
    (name : String) (anonymous isClass : Bool) :
    Together Eq
      (Draft.ofTemplate db ts t [] >>= fun d =>
        d.finish db name anonymous isClass t.directSuperclasses)
      (Draft.ofTemplate db' ts t [] >>= fun d =>
        d.finish db' name anonymous isClass t.directSuperclasses) := by
  -- a class that the template does not extend may name anything, so nothing is asked of it
  have hcounterpart : ∀ u ∈ ts, u.Counterpart (signature ts t) names seen u := fun u hu =>
    { name := rfl
      similar := fun hneeded => similar_self (hts u hu) (hnames u (hneeded u hu rfl))
      left := paramsOf_eq hdistinct hu
      right := paramsOf_eq hdistinct hu
      parents := fun hneeded q hq w hw hname =>
        (hneeded u hu rfl).tail ⟨hw, q, hq, hname.symm⟩ }
  have hparents : ∀ q ∈ t.parents, (signature ts t).needed q.name := fun q hq u hu hname =>
    .single ⟨hu, q, hq, hname.symm⟩
  have hself : t.Similar names seen t := similar_self ht (hnames t .refl)
  exact (Draft.ofTemplate_together hdb (List.forall₂_same.2 hcounterpart) hself hparents
    (hself.bindings_nil hparams)).bind fun d d' hd =>
      Draft.finish_together hdb hd name anonymous isClass _

end
end Template

namespace Database

/-- A database and the same one with another def differ under the name of that def only. -/
theorem agreesAt_keep {db : Database} {r : Record} (hnew : db.defs.get? r.name = none) :
    db.AgreesAt (· ≠ r.name) (· < db.defs.size) { db with defs := (db.defs.keep r).table } where
  ref? name hname := by
    rw [ref?, ref?, RecordTable.index?, RecordTable.index?, RecordTable.records_keep hnew,
      List.findIdx?_append]
    have hlast : [r].findIdx? (fun s => s.name = name) = none := by simpa using hname.symm
    rw [hlast, Option.map_none, Option.or_none]
  target name ref _ href := by
    obtain ⟨i, hi, rfl⟩ := Option.map_eq_some_iff.1 href
    exact RecordTable.lt_size_of_index? hi
  store i hi := by
    show db.defs.records[i]? = (db.defs.keep r).table.records[i]?
    rw [RecordTable.records_keep hnew, List.getElem?_append_left hi]

end Database
end TypedRecords
