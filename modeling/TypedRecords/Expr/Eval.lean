import TypedRecords.ParseError
import TypedRecords.Database
import TypedRecords.Value.Convert
import TypedRecords.Value.Access
import TypedRecords.Expr.Basic

/-!
# Evaluation

`evaluate` gives an expression its value, or none where it is unset. What a field reads as is left
to the scope, which may keep a state of its own; names that are no field are defs.
-/

namespace TypedRecords

abbrev Eval (σ : Type) := StateT σ (Except ParseError)

/-- What names stand for: a field has a declared type and a way to read it, any other name is a def
of the database. -/
structure Scope (σ : Type) where
  db : Database
  field : String → Option (Ty × Eval σ (Option Value))

namespace Scope

def closed (db : Database) : Scope Unit := ⟨db, fun _ => none⟩

variable {σ : Type}

def lookup (s : Scope σ) (name : String) (place : Location) : Eval σ (Option Value) :=
  match s.field name with
  | some (_, read) => read
  | none =>
    match s.db.ref? name with
    | some ref => pure (some (.record ref))
    | none => throw ⟨.nameUndefined name, place⟩

/-- The name that a dag operator is when it stands for neither a field nor a def. -/
def plainName? (s : Scope σ) : Expr → Option String
  | .reference name _ =>
    if (s.field name).isNone && (s.db.ref? name).isNone then some name else none
  | _ => none

/-- The declared type of a name, where an unset operand has one. -/
def operandType? (s : Scope σ) : Expr → Option Ty
  | .reference name _ => (s.field name).map (·.1)
  | .bound none type => some type
  | _ => none

/-- The bits that an unset operand of a bit initializer stands for. -/
def unsetWidth (s : Scope σ) (e : Expr) : Nat :=
  match s.operandType? e with
  | some (.bits width) => width
  | _ => 1

def operandBits (s : Scope σ) (place : Location) (e : Expr) :
    Option Value → Except ParseError (List (Option Bool))
  | none => .ok (List.replicate (s.unsetWidth e) none)
  | some (.bit b) => .ok [some b]
  | some (.int number) =>
    if number = 0 then .ok [some false]
    else if number = 1 then .ok [some true]
    else .error ⟨.badBit (.int number), place⟩
  | some (.bits lsbFirst) => .ok lsbFirst.reverse
  | some v => .error ⟨.badBit v, place⟩

end Scope

/-! ## Lists -/

/-- The records that values refer to, if all of them refer to one that exists. -/
def referencedRecords (store : Store) : List Value → Option (List Record)
  | [] => some []
  | .record ref :: vs =>
    match ref.get? store with
    | some r => (referencedRecords store vs).map (r :: ·)
    | none => none
  | _ :: _ => none

/-- The element type of a list that declares none: the most derived class that all its defs share,
or the type of its first element. An empty list has none. -/
def commonType (store : Store) (values : List Value) : Option Ty :=
  match values with
  | [] => none
  | first :: _ =>
    match referencedRecords store values with
    | some (r :: rs) =>
      match r.superclasses.reverse.find? fun name => (r :: rs).all (·.isSubclassOf name) with
      | some name => some (.record name)
      | none => some .anyRecord
    | _ => some (first.type store)

def convertElements (store : Store) (element : Ty) (place : Location) :
    List Value → Except ParseError (List Value)
  | [] => .ok []
  | v :: vs =>
    match v.convert store element with
    | some w => (convertElements store element place vs).map (w :: ·)
    | none => .error ⟨.elementIncompatible (v.type store) element, place⟩

def makeList (store : Store) (declared : Option Ty) (place : Location) (values : List Value) :
    Except ParseError Value :=
  match declared.or (commonType store values) with
  | none => .error ⟨.elementTypeUnknown, place⟩
  | some element => (convertElements store element place values).map (.list element)

/-! ## Dags and operations -/

/-- What an evaluated dag operator is: a def, or the name that a string gives. -/
def dagOperatorOf (place : Location) : Option Value → Except ParseError DagOperator
  | some (.record ref) => .ok (.record ref)
  | some (.string text) =>
    if text.toList.contains '\x00' then .error ⟨.nulInName text, place⟩ else .ok (.name text)
  | v => .error ⟨.badDagOperator v, place⟩

def intOperand (store : Store) (place : Location) (v : Value) : Except ParseError Int64 :=
  match v.convert store .int with
  | some (.int number) => .ok number
  | _ => .error ⟨.notInt v.kind, place⟩

def sumOperands (store : Store) (place : Location) : Int64 → List Value → Except ParseError Int64
  | sum, [] => .ok sum
  | sum, v :: vs => do sumOperands store place (sum + (← intOperand store place v)) vs

def concatOperands (place : Location) : String → List Value → Except ParseError String
  | text, [] => .ok text
  | text, v :: vs =>
    match v.asText with
    | .ok part => concatOperands place (text ++ part) vs
    | .error _ => .error ⟨.notText v.kind, place⟩

/-- The value of an operation on set operands. Integers wrap at 64 bits. -/
def Bang.apply (store : Store) (place : Location) : Bang → List Value → Except ParseError Value
  | .add, vs => (sumOperands store place 0 vs).map .int
  | .sub, [v, w] => do
    let a ← intOperand store place v
    let b ← intOperand store place w
    return .int (a - b)
  | .sub, _ => .error ⟨.subOperands, place⟩
  | .strconcat, vs => (concatOperands place "" vs).map .string

/-! ## Expressions -/

section
variable {σ : Type}

mutual

/-- The value of an expression; an untyped list takes its element type from `expected`. -/
def evaluate (s : Scope σ) : Expr → Option Ty → Eval σ (Option Value)
  | .unset, _ => pure none
  | .int number, _ => pure (some (.int number))
  | .string text, _ => pure (some (.string text))
  | .code text, _ => pure (some (.code text))
  | .bound value _, _ => pure value
  | .reference name place, _ => s.lookup name place
  | .bits items place, _ => do
    let msbFirst ← evaluateBits s place items
    return some (.bits msbFirst.reverse)
  | .list items element place, expected => do
    let declared := element.or (expected.bind Ty.element?)
    let values ← evaluateItems s place declared items
    return some (← makeList s.db.store declared place values)
  | .dag operator args place, _ => do
    let op ← match s.plainName? operator with
      | some name => pure (.name name)
      | none => do dagOperatorOf place (← evaluate s operator none)
    return some (.dag op (← evaluateArgs s args))
  | .bang op args place, _ => do
    match ← evaluateOperands s args with
    | none => return none
    | some values => return some (← op.apply s.db.store place values)

def evaluateBits (s : Scope σ) (place : Location) : List Expr → Eval σ (List (Option Bool))
  | [] => pure []
  | e :: es => do
    let bits ← s.operandBits place e (← evaluate s e none)
    return bits ++ (← evaluateBits s place es)

/-- The elements of a list, none of which may be unset. -/
def evaluateItems (s : Scope σ) (place : Location) (declared : Option Ty) :
    List Expr → Eval σ (List Value)
  | [] => pure []
  | e :: es => do
    match ← evaluate s e declared with
    | none => throw ⟨.elementUnset, place⟩
    | some v => return v :: (← evaluateItems s place declared es)

def evaluateArgs (s : Scope σ) : List (DagArg Expr) → Eval σ (List (DagArg Value))
  | [] => pure []
  | ⟨name, some e⟩ :: as => do
    let v ← evaluate s e none
    return ⟨name, v⟩ :: (← evaluateArgs s as)
  | ⟨name, none⟩ :: as => do
    return ⟨name, none⟩ :: (← evaluateArgs s as)

/-- The operands of an operation; the first unset one ends them and leaves no result. -/
def evaluateOperands (s : Scope σ) : List Expr → Eval σ (Option (List Value))
  | [] => pure (some [])
  | e :: es => do
    match ← evaluate s e none with
    | none => return none
    | some v => return (← evaluateOperands s es).map (v :: ·)

end

end

/-- The value of an expression that may name defs only. -/
def evaluateClosed (db : Database) (e : Expr) (expected : Option Ty) :
    Except ParseError (Option Value) :=
  (evaluate (Scope.closed db) e expected).run' ()

/-- A value as what it is assigned to holds it; an unset value stays unset. -/
def assign (store : Store) (target : Target) (type : Ty) (place : Location) :
    Option Value → Except ParseError (Option Value)
  | none => .ok none
  | some v =>
    match v.convert store type with
    | some w => .ok (some w)
    | none => .error ⟨.incompatible target type (v.type store), place⟩

end TypedRecords
