import TypedRecords.ParseError
import TypedRecords.Expr.Basic

/-!
# Expressions of written values

Reading a written value as an expression checks what does not depend on other records: escapes,
the range of integers, operators and the classes that types name.
-/

namespace TypedRecords

namespace TypeSyntax

/-- The type written, where only classes that are `declared` may be named. -/
def toTy (declared : String → Bool) : TypeSyntax → Except ParseError Ty
  | bit => .ok .bit
  | int => .ok .int
  | string => .ok .string
  | code => .ok .code
  | dag => .ok .dag
  | bits width place => if width < Nat.pow 2 64 then .ok (.bits width) else .error ⟨.badWidth, place⟩
  | list element => (element.toTy declared).map .list
  | named name place =>
    if declared name then .ok (.record name) else .error ⟨.classUnknown name, place⟩

end TypeSyntax

def stringText (body : List Char) (place : Location) : Except ParseError String :=
  match unescape body with
  | .ok cs => .ok (String.ofList cs)
  | .error e => .error ⟨.badEscape e, place⟩

def integerValue (literal : IntLiteral) (place : Location) : Except ParseError Int64 :=
  match literal.value? with
  | some number => .ok number
  | none => .error ⟨.badInteger literal.text, place⟩

namespace ValueSyntax

mutual

/-- The expression that a written value stands for. Of several faults the first written counts. -/
def toExpr (declared : String → Bool) : ValueSyntax → Except ParseError Expr
  | unset => .ok .unset
  | boolean truth => .ok (.int (if truth then 1 else 0))
  | integer literal place => (integerValue literal place).map .int
  | string body place => (stringText body place).map .string
  | code body => .ok (.code (String.ofList body))
  | bits items place => do
    return .bits (← toExprs declared items) place
  | list items element place => do
    let items ← toExprs declared items
    match element with
    | none => return .list items none place
    | some type => return .list items (some (← type.toTy declared)) place
  | dag operator operatorPlace args place => do
    return .dag (.reference operator operatorPlace) (← toArgs declared args) place
  | bang operator args place =>
    match Bang.ofName? operator with
    | none => .error ⟨.operatorUnknown operator, place⟩
    | some op => do return .bang op (← toExprs declared args) place
  | reference name place => .ok (.reference name place)

def toExprs (declared : String → Bool) : List ValueSyntax → Except ParseError (List Expr)
  | [] => .ok []
  | v :: vs => do
    let e ← v.toExpr declared
    return e :: (← toExprs declared vs)

def toArgs (declared : String → Bool) :
    List (DagArg ValueSyntax) → Except ParseError (List (DagArg Expr))
  | [] => .ok []
  | ⟨name, some v⟩ :: as => do
    let e ← v.toExpr declared
    return ⟨name, some e⟩ :: (← toArgs declared as)
  | ⟨name, none⟩ :: as => do
    return ⟨name, none⟩ :: (← toArgs declared as)

end

end ValueSyntax
end TypedRecords
