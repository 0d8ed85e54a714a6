import TypedRecords.Decimal.Binary64

/-!
# Shortest decimal text

A number is written with the fewest digits that read back as the same number, and of those with the
nearest to it. The text is positional, however large or small the number is.
-/

namespace TypedRecords.Binary64

/-- A decimal number `digits * 10 ^ exponent`. -/
structure Decimal where
  digits : Nat
  exponent : Int
deriving DecidableEq, Repr

/-- The quotient `num / den` compared with a decimal number, both not negative. -/
def compareWith (num den : Nat) (d : Decimal) : Ordering :=
  if 0 ≤ d.exponent then compare num (d.digits * Nat.pow 10 d.exponent.toNat * den)
  else compare (num * Nat.pow 10 (-d.exponent).toNat) (d.digits * den)

/-- The numbers in quarters of the last binary place: itself and the ends of the interval that is
rounded to it. The lower neighbour of a power of two is nearer. -/
def interval (m : Nat) (e : Int) : Nat × Nat × Nat :=
  (4 * m - (if m = Nat.pow 2 52 && e > -1074 then 1 else 2), 4 * m, 4 * m + 2)

/-- `quarters * 2 ^ (e - 2)` as a quotient. -/
def quartersQuotient (quarters : Nat) (e : Int) : Nat × Nat :=
  if 2 ≤ e then (quarters * Nat.pow 2 (e - 2).toNat, 1)
  else (quarters, Nat.pow 2 (2 - e).toNat)

def readsBack (m : Nat) (e : Int) (d : Decimal) : Bool :=
  let (low, _, high) := interval m e
  let (ln, ld) := quartersQuotient low e
  let (hn, hd) := quartersQuotient high e
  let closed := m % 2 == 0
  let aboveLow := match compareWith ln ld d with
    | .lt => true
    | .eq => closed
    | .gt => false
  let belowHigh := match compareWith hn hd d with
    | .gt => true
    | .eq => closed
    | .lt => false
  aboveLow && belowHigh

/-- The integer part of `num / den` over `10 ^ exponent`. -/
def gridBelow (num den : Nat) (exponent : Int) : Nat :=
  if 0 ≤ exponent then num / (den * Nat.pow 10 exponent.toNat)
  else num * Nat.pow 10 (-exponent).toNat / den

def belowIsNearer (num den : Nat) (exponent : Int) (below : Nat) : Bool :=
  match compareWith (2 * num) den ⟨2 * below + 1, exponent⟩ with
  | .gt => false
  | _ => true

/-- The neighbours on the grid of `10 ^ exponent` that read back, the nearer first choice. -/
def onGrid (m : Nat) (e : Int) (exponent : Int) : Option Decimal :=
  let (num, den) := quartersQuotient (4 * m) e
  let below := gridBelow num den exponent
  let low : Decimal := ⟨below, exponent⟩
  let high : Decimal := ⟨below + 1, exponent⟩
  match readsBack m e low, readsBack m e high with
  | true, true => some (if belowIsNearer num den exponent below then low else high)
  | true, false => some low
  | false, true => some high
  | false, false => none

def searchGrids (m : Nat) (e : Int) : Nat → Int → Decimal
  | 0, exponent =>
    let (num, den) := quartersQuotient (4 * m) e
    ⟨gridBelow num den exponent, exponent⟩
  | finer + 1, exponent =>
    match onGrid m e exponent with
    | some d => d
    | none => searchGrids m e finer (exponent - 1)

/-- The number of decimal digits of the integer part of a quotient, or less than one for a quotient
below a tenth: the least `k` from `start` down with `10 ^ (k - 1) ≤ num / den`. -/
def magnitude (num den : Nat) : Nat → Int → Int
  | 0, k => k
  | fuel + 1, k =>
    match compareWith num den ⟨1, k - 1⟩ with
    | .lt => magnitude num den fuel (k - 1)
    | _ => k

/-- The shortest decimal number that reads back as a positive mantissa at `e`. -/
def shortest (m : Nat) (e : Int) : Decimal :=
  let (num, den) := quartersQuotient (4 * m) e
  searchGrids m e 20 (magnitude num den 700 320)

/-- A natural without its trailing zeros, and how many those were; at most `limit` are taken. -/
def stripZeros : Nat → Nat → Nat × Nat
  | 0, n => (n, 0)
  | limit + 1, n =>
    if n % 10 = 0 && n ≠ 0 then
      let (m, zeros) := stripZeros limit (n / 10)
      (m, zeros + 1)
    else (n, 0)

def positional (d : Decimal) : String :=
  let (digits, zeros) := stripZeros 400 d.digits
  let exponent := d.exponent + zeros
  let cs := Nat.toDigits 10 digits
  if 0 ≤ exponent then String.ofList (cs ++ List.replicate exponent.toNat '0')
  else
    let places := (-exponent).toNat
    let padded := List.replicate (places + 1 - cs.length) '0' ++ cs
    let whole := padded.length - places
    String.ofList (padded.take whole ++ '.' :: padded.drop whole)

def text : Binary64 → String
  | nan => "NaN"
  | infinite negative => if negative then "-inf" else "inf"
  | finite negative mantissa exponent =>
    (if negative then "-" else "")
      ++ (if mantissa = 0 then "0" else positional (shortest mantissa exponent))

end TypedRecords.Binary64
