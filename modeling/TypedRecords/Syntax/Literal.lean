import TypedRecords.Syntax.Word

/-!
# Literals

Integers in three radixes, quoted strings with escapes, code between brackets, and the names that
`$` and `!` introduce.
-/

namespace TypedRecords

def isHexDigit (c : Char) : Bool := c.isDigit || ('a' ≤ c && c ≤ 'f') || ('A' ≤ c && c ≤ 'F')

def isBinDigit (c : Char) : Bool := c == '0' || c == '1'

/-! ## Integers -/

inductive Radix
  | decimal | hex | binary
deriving DecidableEq, Repr

namespace Radix

def base : Radix → Nat
  | decimal => 10
  | hex => 16
  | binary => 2

def mark : Radix → String
  | decimal => ""
  | hex => "0x"
  | binary => "0b"

def isDigit : Radix → Char → Bool
  | decimal, c => c.isDigit
  | hex, c => isHexDigit c
  | binary, c => isBinDigit c

end Radix

/-- The value of one digit, in any radix up to sixteen. -/
def digitValue (c : Char) : Nat :=
  if c.isDigit then c.toNat - '0'.toNat
  else if 'a' ≤ c then c.toNat - 'a'.toNat + 10
  else c.toNat - 'A'.toNat + 10

/-- The number that digits write, most significant first. -/
def digitsValue (base : Nat) (digits : List Char) : Nat :=
  digits.foldl (fun n c => n * base + digitValue c) 0

structure IntLiteral where
  negative : Bool
  radix : Radix
  digits : List Char
deriving DecidableEq, Repr

namespace IntLiteral

def text (l : IntLiteral) : String :=
  (if l.negative then "-" else "") ++ l.radix.mark ++ String.ofList l.digits

def magnitude (l : IntLiteral) : Nat := digitsValue l.radix.base l.digits

/-- The number written, wrapped into the signed 64-bit range; none when its magnitude does not fit
64 bits. -/
def value? (l : IntLiteral) : Option Int64 :=
  if l.magnitude < Nat.pow 2 64 then
    some (Int64.ofInt (if l.negative then -(l.magnitude : Int) else (l.magnitude : Int)))
  else none

end IntLiteral

def scanDigits (radix : Radix) : Scanner (List Char) := fun cs =>
  let mark := radix.mark.toList
  if mark.isPrefixOf cs then
    let digits := (cs.drop mark.length).takeWhile radix.isDigit
    if digits.isEmpty then none else some (digits, mark.length + digits.length)
  else none

/-- Digits in the first of the radixes that reads any. -/
def scanMagnitude : Scanner (Radix × List Char) := fun cs =>
  [Radix.hex, .binary, .decimal].findSome? fun radix =>
    (scanDigits radix cs).map fun (digits, width) => ((radix, digits), width)

/-- An integer, signed or not, that no letter or digit follows. -/
def scanInteger : Scanner IntLiteral := fun cs =>
  let sign := if ['-'].isPrefixOf cs then 1 else 0
  match scanMagnitude (cs.drop sign) with
  | none => none
  | some ((radix, digits), width) =>
    if atWordEnd (cs.drop (sign + width)) then some (⟨sign == 1, radix, digits⟩, sign + width)
    else none

def scanDecimal : Scanner Nat := fun cs =>
  let digits := cs.takeWhile Char.isDigit
  if digits.isEmpty then none else some (digitsValue 10 digits, digits.length)

/-! ## Strings -/

/-- The characters up to the closing quote, escapes as written; none when a line or the text ends
first. -/
def quotedBody : List Char → Option (List Char)
  | [] => none
  | '"' :: _ => some []
  | '\\' :: c :: cs => (quotedBody cs).map ('\\' :: c :: ·)
  | c :: cs => if c = '\\' || c = '\n' then none else (quotedBody cs).map (c :: ·)

/-- A quoted string; its value is what stands between the quotes, as written. -/
def scanString : Scanner (List Char) := fun cs =>
  match cs with
  | '"' :: cs => (quotedBody cs).map fun body => (body, body.length + 2)
  | _ => none

/-- Why a written string has no value: a backslash before a character that it does not escape, or
before nothing. -/
inductive EscapeError
  | unknown (c : Char)
  | dangling
deriving DecidableEq, Repr

def unescapeChar : Char → Option Char
  | 'n' => some '\n'
  | 't' => some '\t'
  | '\\' => some '\\'
  | '"' => some '"'
  | '\'' => some '\''
  | _ => none

def unescape : List Char → Except EscapeError (List Char)
  | [] => .ok []
  | ['\\'] => .error .dangling
  | '\\' :: c :: cs =>
    match unescapeChar c with
    | none => .error (.unknown c)
    | some d => (unescape cs).map (d :: ·)
  | c :: cs => (unescape cs).map (c :: ·)

/-! ## Code and introduced names -/

/-- The characters up to the closing bracket of a code text. -/
def codeBody : List Char → Option (List Char)
  | [] => none
  | '}' :: ']' :: _ => some []
  | c :: cs => (codeBody cs).map (c :: ·)

/-- Code between brackets, taken as it stands. -/
def scanCode : Scanner (List Char) := fun cs =>
  match cs with
  | '[' :: '{' :: cs => (codeBody cs).map fun body => (body, body.length + 4)
  | _ => none

/-- The name of a dag argument; its value has no `$`. -/
def scanVarName : Scanner String := fun cs =>
  match cs with
  | '$' :: c :: cs =>
    if isWordStart c then
      let word := c :: cs.takeWhile isWordChar
      some (String.ofList word, word.length + 1)
    else none
  | _ => none

/-- The name of an operation; its value keeps the `!`. -/
def scanBangName : Scanner String := fun cs =>
  match cs with
  | '!' :: cs =>
    let word := cs.takeWhile Char.isAlpha
    if word.isEmpty then none else some (String.ofList ('!' :: word), word.length + 1)
  | _ => none

end TypedRecords
