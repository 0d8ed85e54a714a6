/-!
# Kinds and types

`Kind` is the closed set of shapes a value can have, `Ty` the types a field can be declared with.
A type carries what the kind alone does not: a width, an element type, a class.
-/

namespace TypedRecords

/-- The shape of a value. `invalid` answers a question about something absent. -/
inductive Kind
  | bit | bits | code | int | string | list | dag | record | invalid
deriving DecidableEq, Repr, Inhabited

namespace Kind

def name : Kind → String
  | bit => "bit"
  | bits => "bits"
  | code => "code"
  | int => "int"
  | string => "string"
  | list => "list"
  | dag => "dag"
  | record => "record"
  | invalid => "invalid"

def number : Kind → Nat
  | bit => 0
  | bits => 1
  | code => 2
  | int => 3
  | string => 4
  | list => 5
  | dag => 6
  | record => 7
  | invalid => 8

end Kind

/-- The declared type of a field or of a template parameter. -/
inductive Ty
  | bit
  | bits (width : Nat)
  | int
  | string
  | code
  | list (element : Ty)
  | dag
  /-- A record of the class `name`, or of a class that derives from it. -/
  | record (name : String)
  /-- A record of no particular class. -/
  | anyRecord
deriving DecidableEq, Repr, Inhabited

namespace Ty

def kind : Ty → Kind
  | bit => .bit
  | bits _ => .bits
  | int => .int
  | string => .string
  | code => .code
  | list _ => .list
  | dag => .dag
  | record _ | anyRecord => .record

def element? : Ty → Option Ty
  | list element => some element
  | _ => none

def text : Ty → String
  | bit => "bit"
  | bits width => "bits<" ++ toString width ++ ">"
  | int => "int"
  | string => "string"
  | code => "code"
  | list element => "list<" ++ element.text ++ ">"
  | dag => "dag"
  | record name => name
  | anyRecord => "\x7b\x7d"

end Ty
end TypedRecords
