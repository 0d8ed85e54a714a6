import TypedRecords.Decimal.Reading
import TypedRecords.Settings.Standard.Toml.Reader

/-!
# Dates and times

A calendar date, a time of day, or both with an offset from universal time. The seconds of a time
may be missing. The written text is canonical: `T` stands between date and time, a fraction of a
second has no zeros at its end, and an offset of nothing is `+00:00`.
-/

namespace TypedRecords.Toml

structure Date where
  year : Nat
  month : Nat
  day : Nat
deriving DecidableEq, Repr

/-- A time of day; a fraction of a second is counted in nanoseconds. -/
structure TimeOfDay where
  hour : Nat
  minute : Nat
  second : Option Nat
  nanosecond : Option Nat
deriving DecidableEq, Repr

inductive Offset
  | universal
  | minutes (ahead : Int)
deriving DecidableEq, Repr

inductive Datetime
  | date (d : Date)
  | time (t : TimeOfDay)
  | moment (d : Date) (t : TimeOfDay) (o : Option Offset)
deriving DecidableEq, Repr

/-! ## Reading -/

def digits (width : Nat) : Reader Nat := do
  let ds ← span Char.isDigit
  if ds.length = width then return digitsValue 10 ds else failure

def daysOf (year month : Nat) : Nat :=
  if month == 2 then
    if year % 4 == 0 && (year % 100 != 0 || year % 400 == 0) then 29 else 28
  else if month == 4 || month == 6 || month == 9 || month == 11 then 30
  else 31

def readDate : Reader Date := do
  let year ← digits 4
  expect "-"
  let month ← digits 2
  expect "-"
  let day ← digits 2
  if 1 ≤ month && month ≤ 12 && 1 ≤ day && day ≤ daysOf year month then return ⟨year, month, day⟩
  else failure

/-- The digits behind the point of a second; places after the ninth do not count. -/
def readFraction : Reader Nat := do
  let ds ← span Char.isDigit
  if ds.isEmpty then failure
  let places := ds.take 9
  return digitsValue 10 (places ++ List.replicate (9 - places.length) '0')

def readTime : Reader TimeOfDay := do
  let hour ← digits 2
  expect ":"
  let minute ← digits 2
  if !(hour ≤ 23 && minute ≤ 59) then failure
  if ← startsWith ":" then
    take 1
    let second ← digits 2
    if second > 60 then failure
    if ← startsWith "." then
      take 1
      return ⟨hour, minute, some second, some (← readFraction)⟩
    else return ⟨hour, minute, some second, none⟩
  else return ⟨hour, minute, none, none⟩

def readOffset : Reader (Option Offset) := do
  match ← next? with
  | none => return none
  | some c =>
    take 1
    if c == 'Z' || c == 'z' then return some .universal
    else if c == '+' || c == '-' then
      let hour ← digits 2
      expect ":"
      let minute ← digits 2
      if !(hour ≤ 23 && minute ≤ 59) then failure
      let distance : Int := hour * 60 + minute
      return some (.minutes (if c == '-' then -distance else distance))
    else failure

def readDatetime : Reader Datetime := (.time <$> readTime) <|> do
  let d ← readDate
  match ← next? with
  | none => return .date d
  | some c =>
    if c == 'T' || c == 't' || c == ' ' then
      take 1
      let t ← readTime
      return .moment d t (← readOffset)
    else failure

/-! ## Text -/

def padded (width n : Nat) : String :=
  let ds := Nat.toDigits 10 n
  String.ofList (List.replicate (width - ds.length) '0' ++ ds)

namespace Date

def text (d : Date) : String := padded 4 d.year ++ "-" ++ padded 2 d.month ++ "-" ++ padded 2 d.day

end Date

/-- The text of a fraction, which has one digit at least. -/
def fractionText (nanosecond : Nat) : String :=
  match (padded 9 nanosecond).toList.reverse.dropWhile (· == '0') with
  | [] => ".0"
  | ds => "." ++ String.ofList ds.reverse

namespace TimeOfDay

def text (t : TimeOfDay) : String :=
  padded 2 t.hour ++ ":" ++ padded 2 t.minute
    ++ (t.second.map fun s => ":" ++ padded 2 s).getD ""
    ++ (t.nanosecond.map fractionText).getD ""

end TimeOfDay

namespace Offset

def text : Offset → String
  | universal => "Z"
  | minutes ahead =>
    (if ahead < 0 then "-" else "+") ++ padded 2 (ahead.natAbs / 60) ++ ":"
      ++ padded 2 (ahead.natAbs % 60)

end Offset

namespace Datetime

def ofChars? (cs : List Char) : Option Datetime := readDatetime.whole? cs

def text : Datetime → String
  | date d => d.text
  | time t => t.text
  | moment d t o => d.text ++ "T" ++ t.text ++ (o.map Offset.text).getD ""

end Datetime
end TypedRecords.Toml
