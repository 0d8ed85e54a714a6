import TypedRecords.Settings.Standard.Toml.Basic

/-!
# Tokens of a settings file

The four forms of strings, and the tokens for numbers, words, dates and times.
-/

namespace TypedRecords.Toml

/-! ## Strings -/

def codePoint? (digits : List Char) : Option Char :=
  let n := digitsValue 16 digits
  if digits.all isHexDigit && (n < 0xD800 || (0xDFFF < n && n < 0x110000)) then some (Char.ofNat n)
  else none

def hexCode (width : Nat) : Reader Char := do
  let digits := (← get).take width
  if digits.length < width then failure
  take width
  match codePoint? digits with
  | some c => return c
  | none => failure

def escaped : Reader Char := do
  match ← anyChar with
  | 'b' => return '\x08'
  | 't' => return '\t'
  | 'n' => return '\n'
  | 'f' => return '\x0c'
  | 'r' => return '\r'
  | 'e' => return '\x1b'
  | '"' => return '"'
  | '\\' => return '\\'
  | 'x' => hexCode 2
  | 'u' => hexCode 4
  | 'U' => hexCode 8
  | _ => failure

/-- The inside of a quoted string on one line behind the pieces already read, latest first, with its
closing quote. -/
def basicBody : Nat → List (List Char) → Reader (List Char)
  | 0, _ => failure
  | more + 1, pieces => do
    let plain ← span fun c => c != '"' && c != '\\' && !isControl c
    match ← anyChar with
    | '"' => return (plain :: pieces).reverse.flatten
    | '\\' =>
      let c ← escaped
      basicBody more ([c] :: plain :: pieces)
    | _ => failure

def literalBody : Reader (List Char) := do
  let cs ← span fun c => c != '\'' && !isControl c
  expect "'"
  return cs

/-- Up to two quotes that belong to a string of several lines, behind its last three. -/
def closingQuotes (quote : Char) : Reader (List Char) := do
  let cs ← get
  let more := (cs.take 2).takeWhile (· == quote)
  take more.length
  return more

/-- Blanks and line ends behind a backslash at the end of a line. -/
def foldLine : Nat → Reader Unit
  | 0 => return
  | size + 1 => do
    skipSpaces
    if (← startsWith "\n") || (← startsWith "\r\n") then
      lineEnd
      foldLine size

def foldsLine (cs : List Char) : Bool :=
  match cs.dropWhile fun c => c == ' ' || c == '\t' with
  | '\n' :: _ | '\r' :: '\n' :: _ => true
  | _ => false

/-- One piece of a string of several lines: plain text, a lone quote, a line end or an escape. Line
ends are kept as they are written. -/
def multilinePiece (quote : Char) (escapes : Bool) (size : Nat) : Reader (List Char) := do
  let plain ← span fun c =>
    c != quote && !(escapes && c == '\\') && (!isControl c || c == '\n')
  if !plain.isEmpty then return plain
  let c ← anyChar
  if c == quote then return [c]
  else if c == '\\' then
    if foldsLine (← get) then
      foldLine size
      return []
    else return [← escaped]
  else
    expect "\n"
    if c == '\r' then return ['\r', '\n'] else failure

/-- The inside of a string of several lines behind the pieces already read, latest first, with its
closing quotes. -/
def multilineBody (quote : Char) (escapes : Bool) (size : Nat) :
    Nat → List (List Char) → Reader (List Char)
  | 0, _ => failure
  | more + 1, pieces => do
    if ← startsWith (String.ofList [quote, quote, quote]) then
      take 3
      return ((← closingQuotes quote) :: pieces).reverse.flatten
    else
      let piece ← multilinePiece quote escapes size
      multilineBody quote escapes size more (piece :: pieces)

def readString (size : Nat) : Reader String := do
  if ← startsWith "\"\"\"" then
    take 3
    if ← atLineEnd then lineEnd
    return String.ofList (← multilineBody '"' true size size [])
  else if ← startsWith "'''" then
    take 3
    if ← atLineEnd then lineEnd
    return String.ofList (← multilineBody '\'' false size size [])
  else if ← startsWith "\"" then
    take 1
    return String.ofList (← basicBody size [])
  else
    expect "'"
    return String.ofList (← literalBody)

/-! ## Numbers, dates and words -/

/-- Digits with single underscores between them; the value has no underscores. -/
def digitRun? (isDigit : Char → Bool) : List Char → Option (List Char)
  | [] => none
  | [c] => if isDigit c then some [c] else none
  | c :: '_' :: cs => if isDigit c then (digitRun? isDigit cs).map (c :: ·) else none
  | c :: cs => if isDigit c then (digitRun? isDigit cs).map (c :: ·) else none

def noLeadingZero (digits : List Char) : Bool := digits.length == 1 || digits.head? != some '0'

def decimalInteger? (cs : List Char) : Option Int64 := do
  let (negative, cs) := Decimal.splitSign cs
  let digits ← digitRun? Char.isDigit cs
  if noLeadingZero digits then Decimal.signedInt64? negative (digitsValue 10 digits) else none

def isOctDigit (c : Char) : Bool := '0' ≤ c && c ≤ '7'

def integer? : List Char → Option Int64
  | '0' :: 'x' :: cs =>
    (digitRun? isHexDigit cs).bind fun ds => Decimal.signedInt64? false (digitsValue 16 ds)
  | '0' :: 'o' :: cs =>
    (digitRun? isOctDigit cs).bind fun ds => Decimal.signedInt64? false (digitsValue 8 ds)
  | '0' :: 'b' :: cs =>
    (digitRun? isBinDigit cs).bind fun ds => Decimal.signedInt64? false (digitsValue 2 ds)
  | cs => decimalInteger? cs

def finite? (x : Binary64) : Option Binary64 :=
  match x with
  | .infinite _ => none
  | x => some x

/-- A number with a fraction or an exponent, or one of the words for infinity and no number. A
number too large for 64 bits is refused. -/
def float? (cs : List Char) : Option Binary64 := do
  let (negative, cs) := Decimal.splitSign cs
  if cs == "inf".toList then return .infinite negative
  if cs == "nan".toList then return .nan
  let mantissa := cs.takeWhile (!Decimal.isExponentMark ·)
  let exponent := cs.dropWhile (!Decimal.isExponentMark ·)
  let whole ← digitRun? Char.isDigit (mantissa.takeWhile (· != '.'))
  if !noLeadingZero whole then none
  let fraction ← match mantissa.dropWhile (· != '.') with
    | [] => some []
    | _ :: cs => (digitRun? Char.isDigit cs).map ('.' :: ·)
  let exponent ← match exponent with
    | [] => some []
    | mark :: cs =>
      let (down, ds) := Decimal.splitSign cs
      (digitRun? Char.isDigit ds).map fun ds => mark :: (if down then '-' :: ds else ds)
  if fraction.isEmpty && exponent.isEmpty then none
  (Decimal.unsignedFloat? negative (whole ++ fraction ++ exponent)).bind finite?

def isTokenChar (c : Char) : Bool := c.isAlphanum || "+-_.:".toList.contains c

def isDate (cs : List Char) : Bool := (readDate.whole? cs).isSome

def token : Reader (List Char) := do
  let first ← span isTokenChar
  match ← get with
  | ' ' :: c :: _ =>
    if c.isDigit && isDate first then
      take 1
      return first ++ ' ' :: (← span isTokenChar)
    else return first
  | _ => return first

def ofToken? (cs : List Char) : Option Toml :=
  if cs == "true".toList then some (.boolean true)
  else if cs == "false".toList then some (.boolean false)
  else
    ((integer? cs).map .integer).or
      (((float? cs).map .float).or ((Datetime.ofChars? cs).map .datetime))

end TypedRecords.Toml
