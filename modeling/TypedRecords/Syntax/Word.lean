import TypedRecords.Syntax.Parser

/-!
# Words

A word is a run of letters, digits and underscores. Some words are keywords; any other that does
not begin with a digit is an identifier.
-/

namespace TypedRecords

def isWordChar (c : Char) : Bool := c.isAlphanum || c == '_'

/-- An identifier may begin with it. -/
def isWordStart (c : Char) : Bool := c.isAlpha || c == '_'

inductive Keyword
  | kwInclude | kwInt | kwIn | kwClass | kwDef | kwLet | kwField | kwBits | kwBit | kwString
  | kwCode | kwDag | kwList | kwTrue | kwFalse
deriving DecidableEq, Repr

namespace Keyword

/-- All keywords; one that begins another stands behind it. -/
def all : List Keyword :=
  [kwInclude, kwInt, kwIn, kwClass, kwDef, kwLet, kwField, kwBits, kwBit, kwString, kwCode, kwDag,
   kwList, kwTrue, kwFalse]

def text : Keyword → String
  | kwInclude => "include"
  | kwInt => "int"
  | kwIn => "in"
  | kwClass => "class"
  | kwDef => "def"
  | kwLet => "let"
  | kwField => "field"
  | kwBits => "bits"
  | kwBit => "bit"
  | kwString => "string"
  | kwCode => "code"
  | kwDag => "dag"
  | kwList => "list"
  | kwTrue => "true"
  | kwFalse => "false"

def rule : Keyword → Rule
  | kwInclude => .kwInclude
  | kwInt => .kwInt
  | kwIn => .kwIn
  | kwClass => .kwClass
  | kwDef => .kwDef
  | kwLet => .kwLet
  | kwField => .kwField
  | kwBits => .kwBits
  | kwBit => .kwBit
  | kwString => .kwString
  | kwCode => .kwCode
  | kwDag => .kwDag
  | kwList => .kwList
  | kwTrue => .kwTrue
  | kwFalse => .kwFalse

end Keyword

/-- No word goes on at the head of the text. -/
def atWordEnd : List Char → Bool
  | [] => true
  | c :: _ => !isWordChar c

def scanKeyword (k : Keyword) : Scanner Unit := fun cs =>
  let text := k.text.toList
  if text.isPrefixOf cs && atWordEnd (cs.drop text.length) then some ((), text.length) else none

/-- The first keyword in `Keyword.all` that the text begins with, if the word ends behind it. -/
def scanAnyKeyword : Scanner Keyword := fun cs =>
  match Keyword.all.find? fun k => k.text.toList.isPrefixOf cs with
  | none => none
  | some k =>
    let width := k.text.toList.length
    if atWordEnd (cs.drop width) then some (k, width) else none

/-- An identifier and nothing less: the whole word. -/
def scanIdentifier : Scanner String := fun cs =>
  match scanAnyKeyword cs with
  | some _ => none
  | none =>
    match cs with
    | [] => none
    | c :: cs =>
      if isWordStart c then
        let word := c :: cs.takeWhile isWordChar
        some (String.ofList word, word.length)
      else none

namespace Parser

def keyword (k : Keyword) : Parser Unit := token k.rule (scanKeyword k)

def identifier : Parser String := token .identifier scanIdentifier

end Parser
end TypedRecords
