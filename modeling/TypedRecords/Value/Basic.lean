import TypedRecords.Ty

/-!
# Values

A value is never unset: where a value may be missing (a field, a dag argument, one bit of a bit
vector) an `Option` says so. Bit vectors are kept least significant bit first.
-/

namespace TypedRecords

/-- A reference to a def: its name and its position in definition order. The reference does not
hold the record; following it takes the records it points into. -/
structure RecordRef where
  name : String
  target : Nat
deriving DecidableEq, Repr, Inhabited

/-- What stands in front of the arguments of a dag. -/
inductive DagOperator
  | record (ref : RecordRef)
  | name (text : String)
deriving DecidableEq, Repr, Inhabited

namespace DagOperator

def text : DagOperator → String
  | record ref => ref.name
  | name text => text

end DagOperator

/-- One argument of a dag: both its name and its value may be missing. -/
structure DagArg (α : Type) where
  name : Option String
  value : Option α

inductive Value
  | bit (truth : Bool)
  | bits (lsbFirst : List (Option Bool))
  | int (number : Int64)
  | string (text : String)
  | code (text : String)
  | list (element : Ty) (items : List Value)
  | dag (operator : DagOperator) (args : List (DagArg Value))
  | record (ref : RecordRef)

instance : Inhabited Value := ⟨.bit false⟩

namespace Value

def kind : Value → Kind
  | bit _ => .bit
  | bits _ => .bits
  | int _ => .int
  | string _ => .string
  | code _ => .code
  | list .. => .list
  | dag .. => .dag
  | record _ => .record

mutual

/-- Two values are the same: equal in shape and content, with references to the same record. -/
def same : Value → Value → Bool
  | bit a, bit b => a == b
  | bits a, bits b => a == b
  | int a, int b => a == b
  | string a, string b => a == b
  | code a, code b => a == b
  | list e vs, list f ws => e == f && sameItems vs ws
  | dag o as, dag p bs => o == p && sameArgs as bs
  | record a, record b => a == b
  | _, _ => false

def sameItems : List Value → List Value → Bool
  | [], [] => true
  | v :: vs, w :: ws => same v w && sameItems vs ws
  | _, _ => false

def sameArgs : List (DagArg Value) → List (DagArg Value) → Bool
  | [], [] => true
  | ⟨m, some v⟩ :: as, ⟨n, some w⟩ :: bs => m == n && same v w && sameArgs as bs
  | ⟨m, none⟩ :: as, ⟨n, none⟩ :: bs => m == n && sameArgs as bs
  | _, _ => false

end

mutual

theorem same_iff : ∀ v w : Value, same v w = true ↔ v = w
  | bit _, w | bits _, w | int _, w | string _, w | code _, w | record _, w => by
    cases w <;> simp [same]
  | list e vs, w => by
    cases w <;> simp [same, sameItems_iff vs]
  | dag o as, w => by
    cases w <;> simp [same, sameArgs_iff as]

theorem sameItems_iff : ∀ vs ws : List Value, sameItems vs ws = true ↔ vs = ws
  | [], ws => by cases ws <;> simp [sameItems]
  | v :: vs, ws => by
    cases ws <;> simp [sameItems, same_iff v, sameItems_iff vs]

theorem sameArgs_iff : ∀ as bs : List (DagArg Value), sameArgs as bs = true ↔ as = bs
  | [], bs => by cases bs <;> simp [sameArgs]
  | ⟨m, some v⟩ :: as, bs => by
    rcases bs with _ | ⟨⟨n, _ | w⟩, bs⟩ <;>
      simp [sameArgs, same_iff v, sameArgs_iff as, and_assoc]
  | ⟨m, none⟩ :: as, bs => by
    rcases bs with _ | ⟨⟨n, _ | w⟩, bs⟩ <;> simp [sameArgs, sameArgs_iff as]

end

instance : DecidableEq Value := fun v w => decidable_of_iff _ (same_iff v w)

end Value
end TypedRecords
