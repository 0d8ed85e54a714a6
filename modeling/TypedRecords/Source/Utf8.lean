/-!
# Texts in bytes

The text that bytes hold in UTF-8. Bytes that are no text are read all the same: each longest run of
them that could have begun a character is replaced by one mark.
-/

namespace TypedRecords.Utf8

def replacement : Char := '\ufffd'

/-- A character of which some bytes have been read: how many are missing, the code so far, and the
bounds of the next byte. -/
structure Partial where
  missing : Nat
  code : Nat
  low : UInt8
  high : UInt8

inductive Lead
  | whole (c : Char)
  | more (p : Partial)
  | none

/-- What a byte begins. The bounds of the second byte leave out longer forms of short characters,
surrogates and what lies behind the last character. -/
def lead (b : UInt8) : Lead :=
  if b < 0x80 then .whole (Char.ofNat b.toNat)
  else if 0xC2 ≤ b && b ≤ 0xDF then .more ⟨1, b.toNat - 0xC0, 0x80, 0xBF⟩
  else if 0xE0 ≤ b && b ≤ 0xEF then
    .more ⟨2, b.toNat - 0xE0, if b = 0xE0 then 0xA0 else 0x80, if b = 0xED then 0x9F else 0xBF⟩
  else if 0xF0 ≤ b && b ≤ 0xF4 then
    .more ⟨3, b.toNat - 0xF0, if b = 0xF0 then 0x90 else 0x80, if b = 0xF4 then 0x8F else 0xBF⟩
  else .none

/-- A byte where no character has been begun: the characters it completes, latest first in front of
those already read, and the character it begins. -/
def start (done : List Char) (b : UInt8) : List Char × Option Partial :=
  match lead b with
  | .whole c => (c :: done, none)
  | .more p => (done, some p)
  | .none => (replacement :: done, none)

def step : List Char × Option Partial → UInt8 → List Char × Option Partial
  | (done, none), b => start done b
  | (done, some p), b =>
    if p.low ≤ b && b ≤ p.high then
      let code := p.code * 64 + (b.toNat - 0x80)
      if p.missing = 1 then (Char.ofNat code :: done, none)
      else (done, some ⟨p.missing - 1, code, 0x80, 0xBF⟩)
    else start (replacement :: done) b

/-- The text that bytes hold, with marks for what is no text. -/
def decode (bytes : ByteArray) : String :=
  let (done, pending) := bytes.foldl step ([], none)
  String.ofList (if pending.isSome then replacement :: done else done).reverse

end TypedRecords.Utf8
