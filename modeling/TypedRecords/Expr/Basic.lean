import TypedRecords.Value.Basic
import TypedRecords.Location

/-!
# Expressions

What a field is initialized with, before it is evaluated. A name in an expression is a template
parameter, a field of the record or a def; substitution puts the values bound to parameters in
their place, so that evaluation meets only fields and defs.
-/

namespace TypedRecords

inductive Bang
  | add | sub | strconcat
deriving DecidableEq, Repr

namespace Bang

/-- The operation that a name, with its `!`, stands for. -/
def ofName? : String → Option Bang
  | "!add" => some add
  | "!sub" => some sub
  | "!strconcat" => some strconcat
  | _ => none

end Bang

/-- An initializer that still refers to names. -/
inductive Expr
  | unset
  | int (number : Int64)
  | string (text : String)
  | code (text : String)
  /-- A bit initializer, most significant operand first. -/
  | bits (items : List Expr) (place : Location)
  | list (items : List Expr) (element : Option Ty) (place : Location)
  | dag (operator : Expr) (args : List (DagArg Expr)) (place : Location)
  | bang (op : Bang) (args : List Expr) (place : Location)
  | reference (name : String) (place : Location)
  /-- The value bound to a template parameter, with the parameter's type. -/
  | bound (value : Option Value) (type : Ty)

instance : Inhabited Expr := ⟨.unset⟩

structure Binding where
  name : String
  type : Ty
  value : Option Value
deriving DecidableEq

/-- The bindings of a class's parameters, in their order. -/
abbrev Bindings := List Binding

namespace Bindings

def find? (bs : Bindings) (name : String) : Option Binding := List.find? (fun b => b.name = name) bs

end Bindings

namespace Expr

mutual

/-- The expression with each bound name replaced by what it is bound to. -/
def substitute (bs : Bindings) : Expr → Expr
  | reference name place =>
    match bs.find? name with
    | some b => bound b.value b.type
    | none => reference name place
  | bits items place => bits (substituteAll bs items) place
  | list items element place => list (substituteAll bs items) element place
  | dag operator args place => dag (operator.substitute bs) (substituteArgs bs args) place
  | bang op args place => bang op (substituteAll bs args) place
  | unset => unset
  | int number => int number
  | string text => string text
  | code text => code text
  | bound value type => bound value type

def substituteAll (bs : Bindings) : List Expr → List Expr
  | [] => []
  | e :: es => e.substitute bs :: substituteAll bs es

def substituteArgs (bs : Bindings) : List (DagArg Expr) → List (DagArg Expr)
  | [] => []
  | ⟨name, some e⟩ :: as => ⟨name, some (e.substitute bs)⟩ :: substituteArgs bs as
  | ⟨name, none⟩ :: as => ⟨name, none⟩ :: substituteArgs bs as

end

end Expr
end TypedRecords
