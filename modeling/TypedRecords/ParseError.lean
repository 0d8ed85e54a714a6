import TypedRecords.Value.Text
import TypedRecords.Syntax.Grammar

/-!
# Why a description is refused

Every refusal has a cause and a place in one of the texts read. The wording of all causes is here.
-/

namespace TypedRecords

/-- What a value that does not convert was meant for. -/
inductive Target
  | field (name : String)
  | param (className name : String)
deriving DecidableEq, Repr

namespace Target

def text : Target → String
  | field name => "Field '" ++ name ++ "'"
  | param className name => "Template argument '" ++ className ++ ":" ++ name ++ "'"

end Target

inductive Cause
  /-- The text is not a file of the language. -/
  | expected (rules : List Rule)
  | badEscape (error : EscapeError)
  | badInteger (text : String)
  | badWidth
  | includeMissing (file : String)
  | includeCycle (path : String)
  | includeUnreadable (path : String) (reason : String)
  | classDefined (name : String)
  | defDefined (name : String)
  | paramDefined (name : String)
  | classUnknown (name : String)
  | operatorUnknown (name : String)
  | fieldUnknown (name : String)
  | fieldRedeclared (name : String) (declared previous : Ty)
  | tooManyArgs (className : String) (most got : Nat)
  | argMissing (className param : String)
  | diamond (className : String)
  | incompatible (target : Target) (declared found : Ty)
  | elementIncompatible (found element : Ty)
  | nameUndefined (name : String)
  | circular (field : String)
  | badBit (value : Value)
  | elementUnset
  | elementTypeUnknown
  | badDagOperator (value : Option Value)
  | nulInName (name : String)
  | notInt (found : Kind)
  | notText (found : Kind)
  | subOperands
deriving DecidableEq

/-- One character with everything but plain visible ASCII written as an escape. -/
def visibleChar (c : Char) : String :=
  if c = '\t' then "\\t"
  else if c = '\r' then "\\r"
  else if c = '\n' then "\\n"
  else if c = '\'' then "\\'"
  else if c = '"' then "\\\""
  else if c = '\\' then "\\\\"
  else if ' ' ≤ c && c ≤ '~' then String.singleton c
  else "\\u\x7b" ++ String.ofList (Nat.toDigits 16 c.toNat) ++ "\x7d"

namespace EscapeError

/-- The character behind the backslash; a blank where there is none. -/
def char : EscapeError → Char
  | unknown c => c
  | dangling => ' '

end EscapeError

namespace Cause

def message : Cause → String
  | expected rules => "expected " ++ alternatives (rules.map Rule.name)
  | badEscape error => "Invalid escape sequence '\\" ++ String.singleton error.char ++ "'"
  | badInteger text => "Invalid integer '" ++ text ++ "'"
  | badWidth => "Invalid bit width"
  | includeMissing file => "Could not find include file '" ++ file ++ "'"
  | includeCycle path => "Recursive include of '" ++ path ++ "'"
  | includeUnreadable path reason => "Could not read include file '" ++ path ++ "': " ++ reason
  | classDefined name => "Class '" ++ name ++ "' already defined"
  | defDefined name => "def '" ++ name ++ "' already defined"
  | paramDefined name => "Template argument '" ++ name ++ "' already defined"
  | classUnknown name => "Couldn't find class '" ++ name ++ "'"
  | operatorUnknown name => "Unknown operator '" ++ name ++ "'"
  | fieldUnknown name => "Value '" ++ name ++ "' unknown"
  | fieldRedeclared name declared previous =>
    "Field '" ++ name ++ "' redeclared as '" ++ declared.text ++ "', previously declared as '"
      ++ previous.text ++ "'"
  | tooManyArgs className most got =>
    "Too many template arguments for class '" ++ className ++ "': expected at most "
      ++ toString most ++ ", got " ++ toString got
  | argMissing className param =>
    "Value not specified for template argument '" ++ className ++ ":" ++ param ++ "'"
  | diamond className =>
    "Class '" ++ className ++ "' inherited twice with different template arguments"
  | incompatible target declared found =>
    target.text ++ " of type '" ++ declared.text ++ "' is incompatible with initializer of type '"
      ++ found.text ++ "'"
  | elementIncompatible found element =>
    "List element of type '" ++ found.text ++ "' is incompatible with list<" ++ element.text ++ ">"
  | nameUndefined name => "Variable not defined: '" ++ name ++ "'"
  | circular field => "Circular reference to field '" ++ field ++ "'"
  | badBit value => "Invalid bit value '" ++ value.text ++ "'"
  | elementUnset => "List elements cannot be unset"
  | elementTypeUnknown => "Cannot infer the type of an empty list"
  | badDagOperator value => "Invalid dag operator '" ++ Value.textOrUnset value ++ "'"
  | nulInName name =>
    "Name '" ++ String.join (name.toList.map visibleChar) ++ "' contains a NUL byte"
  | notInt found => "Expected an int operand, found " ++ found.name
  | notText found => "Expected a string operand, found " ++ found.name
  | subOperands => "!sub expects two operands"

end Cause

/-- A refusal: its cause and where it lies. -/
structure ParseError where
  cause : Cause
  place : Location
deriving DecidableEq

namespace ParseError

def message (e : ParseError) : String :=
  "Parse error at " ++ e.place.text ++ ": " ++ e.cause.message

end ParseError

namespace SyntaxError

def toParseError (e : SyntaxError) : ParseError := ⟨.expected e.expected, e.place⟩

end SyntaxError
end TypedRecords
