import TypedRecords.Value.Basic

/-!
# Integers as bit vectors

A 64-bit integer and a vector of bits, least significant first. An integer fits a width when it can
be written there either as a signed or as an unsigned number; beyond bit 63 its sign goes on.
-/

namespace TypedRecords.Bits

/-- The bit of weight `2 ^ i` of an integer, written in two's complement without end. -/
def bitAt (v : Int) (i : Nat) : Bool := (v >>> i) % 2 == 1

/-- Representable in `width` bits, signed or unsigned. Every 64-bit integer fits 64 bits. -/
def fits (v : Int) (width : Nat) : Bool :=
  64 ≤ width
    || (0 ≤ v && v < (Nat.pow 2 width : Int))
    || (0 < width && -(Nat.pow 2 (width - 1) : Int) ≤ v
      && v < (Nat.pow 2 (width - 1) : Int))

/-- The `width` lowest bits of an integer that fits them. -/
def ofInt? (number : Int64) (width : Nat) : Option (List (Option Bool)) :=
  if fits number.toInt width then
    some ((List.range width).map fun i => some (bitAt number.toInt i))
  else none

/-- The number that all-set bits write, with no sign; none when a bit is unset. -/
def magnitude? : List (Option Bool) → Option Nat
  | [] => some 0
  | none :: _ => none
  | some b :: bs => (magnitude? bs).map fun m => b.toNat + 2 * m

/-- At most 64 bits, all set, are read as a two's complement integer. -/
def toInt? (bits : List (Option Bool)) : Option Int64 :=
  if bits.length ≤ 64 then (magnitude? bits).map fun m => Int64.ofInt m else none

end TypedRecords.Bits
