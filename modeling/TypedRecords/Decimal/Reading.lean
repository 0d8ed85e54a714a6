import TypedRecords.Syntax.Literal
import TypedRecords.Decimal.Binary64

/-!
# Reading decimal numbers

A signed integer that fits 64 bits, and a floating-point number with a sign, a fraction and an
exponent, each of which may be missing.
-/

namespace TypedRecords.Decimal

/-- The sign in front of a number, and what follows it; true for a minus. -/
def splitSign : List Char → Bool × List Char
  | '-' :: cs => (true, cs)
  | '+' :: cs => (false, cs)
  | cs => (false, cs)

def allDigits (cs : List Char) : Bool := !cs.isEmpty && cs.all Char.isDigit

/-- The integer of a magnitude and a sign, if 64 bits hold it. -/
def signedInt64? (negative : Bool) (magnitude : Nat) : Option Int64 :=
  let n : Int := if negative then -(magnitude : Int) else magnitude
  if -(Nat.pow 2 63 : Int) ≤ n && n < (Nat.pow 2 63 : Int) then some (Int64.ofInt n) else none

def int64? (cs : List Char) : Option Int64 :=
  let (negative, digits) := splitSign cs
  if allDigits digits then signedInt64? negative (digitsValue 10 digits) else none

/-- An exponent behind its mark. -/
def exponent? (cs : List Char) : Option Int :=
  let (negative, digits) := splitSign cs
  if allDigits digits then
    let n : Int := digitsValue 10 digits
    some (if negative then -n else n)
  else none

def isExponentMark (c : Char) : Bool := c == 'e' || c == 'E'

/-- A number without its sign: digits on at least one side of the point, then an exponent. -/
def unsignedFloat? (negative : Bool) (cs : List Char) : Option Binary64 :=
  let mantissa := cs.takeWhile (!isExponentMark ·)
  let exponent := match cs.dropWhile (!isExponentMark ·) with
    | [] => some 0
    | _ :: cs => exponent? cs
  let whole := mantissa.takeWhile (· != '.')
  let fraction := (mantissa.dropWhile (· != '.')).tail
  let digits := whole ++ fraction
  if allDigits digits then
    exponent.map fun e =>
      Binary64.ofDecimal negative (digitsValue 10 digits) digits.length (e - fraction.length)
  else none

/-- A floating-point number; the words for infinity and for no number stand in any letter case. -/
def float? (cs : List Char) : Option Binary64 :=
  let (negative, cs) := splitSign cs
  let word := String.ofList (cs.map Char.toLower)
  if word == "inf" || word == "infinity" then some (.infinite negative)
  else if word == "nan" then some .nan
  else unsignedFloat? negative cs

end TypedRecords.Decimal
