import TypedRecords.Expr.Eval
import TypedRecords.Proofs.Unset.Order

/-!
# What an expression needs

An expression is evaluated twice, first without some of the values that its names stand for and then
with all of them. `Expr.Wants` names the parts of it that need what they have only the second time: an
item of a list, the operator of a dag, a bit of an element or of an operand. Each comes with the error
that says so, at the place of the part.
-/

namespace TypedRecords

namespace Expr

def children : Expr → List Expr
  | bits items _ | list items _ _ | bang _ items _ => items
  | dag operator args _ => operator :: args.filterMap DagArg.value
  | _ => []

/-- The first expression stands somewhere in the second. -/
inductive PartOf : Expr → Expr → Prop
  | self (e : Expr) : PartOf e e
  | child {part x e : Expr} (hx : x ∈ e.children) (hpart : PartOf part x) : PartOf part e

/-- The expression evaluates to the first value in one scope, and to the second in the other. -/
def Compares (s s' : Scope Unit) (bs bs' : Bindings) (e : Expr) (v w : Option Value) : Prop :=
  ∃ expected, (evaluate s (e.substitute bs) expected).run' () = .ok v ∧
    (evaluate s' (e.substitute bs') expected).run' () = .ok w

section
variable (store : Store) (E : Expr → Option Value → Option Value → Prop)

/-- A value that the expression itself needs is missing where its operands have their first values
under `E` and there with the second; the error is what the first evaluation answers. -/
inductive Needs : Expr → ParseError → Prop
  | item {items : List Expr} {element : Option Ty} {place : Location} {x : Expr} {w : Value}
      (hx : x ∈ items) (h : E x none (some w)) :
      Needs (list items element place) ⟨.elementUnset, place⟩
  | element {items : List Expr} {element : Option Ty} {place : Location} {x : Expr} {v w : Value}
      {type : Ty} (htype : ∀ t ∈ element, t = type) (hx : x ∈ items) (h : E x (some v) (some w))
      (hlacks : v.Lacks type w) :
      Needs (list items element place) ⟨.elementIncompatible (v.type store) type, place⟩
  | operator {operator : Expr} {args : List (DagArg Expr)} {place : Location} {w : Value}
      (h : E operator none (some w)) : Needs (dag operator args place) ⟨.badDagOperator none, place⟩
  | operand {op : Bang} {args : List Expr} {place : Location} {x : Expr} {v w : Value}
      (hop : op ≠ .strconcat) (hx : x ∈ args) (h : E x (some v) (some w)) (hlacks : v.Lacks .int w) :
      Needs (bang op args place) ⟨.notInt v.kind, place⟩

def Wants (e : Expr) (err : ParseError) : Prop := ∃ part, PartOf part e ∧ Needs store E part err

/-- The expression wants a value, or the target's type wants a bit of what the expression gives. -/
inductive WantedFor (e : Expr) (target : Target) (type : Ty) (place : Location) : ParseError → Prop
  | inside {err : ParseError} (h : e.Wants store E err) : WantedFor e target type place err
  | converted {v w : Value} (h : E e (some v) (some w)) (hlacks : v.Lacks type w) :
      WantedFor e target type place ⟨.incompatible target type (v.type store), place⟩

variable {store E}

theorem Needs.wants {e : Expr} {err : ParseError} (h : e.Needs store E err) : e.Wants store E err :=
  ⟨e, .self e, h⟩

theorem Wants.child {e x : Expr} {err : ParseError} (hx : x ∈ e.children)
    (h : x.Wants store E err) : e.Wants store E err := by
  obtain ⟨part, hpart, hneeds⟩ := h
  exact ⟨part, .child hx hpart, hneeds⟩

end
end Expr
end TypedRecords
