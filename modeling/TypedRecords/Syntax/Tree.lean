import TypedRecords.Value.Basic
import TypedRecords.Syntax.Literal

/-!
# Syntax trees

What a text says, before any name in it is looked up. Each node that an error can point at carries
the place where it begins.
-/

namespace TypedRecords

inductive TypeSyntax
  | bit | int | string | code | dag
  | bits (width : Nat) (place : Location)
  | list (element : TypeSyntax)
  | named (name : String) (place : Location)
deriving DecidableEq, Repr

inductive ValueSyntax
  | unset
  | boolean (truth : Bool)
  | integer (literal : IntLiteral) (place : Location)
  /-- A quoted string, escapes as written. -/
  | string (body : List Char) (place : Location)
  | code (body : List Char)
  /-- A bit initializer, most significant operand first. -/
  | bits (items : List ValueSyntax) (place : Location)
  | list (items : List ValueSyntax) (element : Option TypeSyntax) (place : Location)
  | dag (operator : String) (operatorPlace : Location) (args : List (DagArg ValueSyntax))
    (place : Location)
  | bang (operator : String) (args : List ValueSyntax) (place : Location)
  | reference (name : String) (place : Location)

/-- `name = value`, in a body or in front of a scope. -/
structure LetSyntax where
  name : String
  value : ValueSyntax
  place : Location

structure ParamSyntax where
  type : TypeSyntax
  name : String
  default : Option ValueSyntax
  place : Location

structure ParentSyntax where
  name : String
  args : List ValueSyntax
  place : Location

inductive ItemSyntax
  | field (type : TypeSyntax) (name : String) (value : Option ValueSyntax) (place : Location)
  | override (binding : LetSyntax)

structure ClassSyntax where
  name : String
  namePlace : Location
  params : List ParamSyntax
  parents : List ParentSyntax
  body : List ItemSyntax
  place : Location

/-- A def; one without a name is anonymous. -/
structure DefSyntax where
  name : Option String
  parents : List ParentSyntax
  body : List ItemSyntax
  place : Location

/-- A request for the statements of another file. -/
structure IncludeSyntax where
  file : List Char
  filePlace : Location
  place : Location

inductive Statement
  | includeFile (file : IncludeSyntax)
  | classDecl (decl : ClassSyntax)
  | defDecl (decl : DefSyntax)
  | scope (bindings : List LetSyntax) (body : List Statement)

end TypedRecords
