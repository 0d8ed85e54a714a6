import TypedRecords.Syntax.Literal

/-!
# The rule file

The grammar as it is written down: a pattern for each rule (`Rule.pattern`). Patterns are texts, classes of
characters and rules, put one behind the other, chosen between in order, repeated as often as they go, or
looked for without being read. The rules for tokens read character by character (`++`); in all others blanks
and comments may stand between any two parts (`>>`).
-/

namespace TypedRecords

inductive Pattern
  | text (s : String)
  /-- One character of a class. -/
  | one (accepts : Char → Bool)
  | startOfInput
  | endOfInput
  | seq (first second : Pattern)
  | choice (first second : Pattern)
  | optional (p : Pattern)
  | many (p : Pattern)
  /-- Nothing, where `p` does not match. -/
  | avoid (p : Pattern)
  | rule (r : Rule)

namespace Pattern

/-- One pattern right behind the other. -/
instance : Append Pattern := ⟨seq⟩

/-- The first of two patterns that matches. -/
instance : OrElse Pattern := ⟨fun p q => choice p (q ())⟩

/-! ### Blanks -/

def any : Pattern := one fun _ => true

/-- One character, where `p` does not match. -/
def anyBut (p : Pattern) : Pattern := avoid p ++ any

def whitespace : Pattern := text " " <|> text "\t" <|> text "\r" <|> text "\n"

def comment : Pattern :=
  text "//" ++ many (anyBut (text "\n")) <|> text "/*" ++ (many (anyBut (text "*/")) ++ text "*/")

def blanks : Pattern := many whitespace ++ many (comment ++ many whitespace)

/-- One pattern behind the other, with blanks between. -/
instance : AndThen Pattern := ⟨fun p q => p ++ (blanks ++ q ())⟩

/-- A pattern as often as it goes, with blanks between. -/
def each (p : Pattern) : Pattern := optional (p ++ many (blanks ++ p))

/-! ### Words and digits -/

def wordStart : Pattern := one Char.isAlpha <|> text "_"

def wordChar : Pattern := one Char.isAlphanum <|> text "_"

/-- A word that no letter, digit or underscore follows. -/
def word (s : String) : Pattern := text s ++ avoid wordChar

/-- Longer words stand first, one that begins them would shadow them. -/
def keyword : Pattern :=
  (text "include" <|> text "int" <|> text "in" <|> text "class" <|> text "def" <|> text "let"
    <|> text "field" <|> text "bits" <|> text "bit" <|> text "string" <|> text "code" <|> text "dag"
    <|> text "list" <|> text "true" <|> text "false") ++ avoid wordChar

def digits (accepts : Char → Bool) : Pattern := one accepts ++ many (one accepts)

/-! ### Choices without a rule of their own -/

def value : Pattern :=
  rule .unset <|> rule .boolean <|> rule .integer <|> rule .string <|> rule .code <|> rule .bitsInit
    <|> rule .listInit <|> rule .dagInit <|> rule .bangOp <|> rule .reference

def bodyItem : Pattern := rule .fieldLet <|> rule .fieldDecl

def statement : Pattern :=
  rule .inclusion <|> rule .classDecl <|> rule .defDecl <|> rule .letBlock

end Pattern

open Pattern in
def Rule.pattern : Rule → Pattern
  | endOfInput => .endOfInput
  | identifier => avoid keyword ++ (wordStart ++ many wordChar)
  | kwInclude => word "include"
  | kwClass => word "class"
  | kwDef => word "def"
  | kwLet => word "let"
  | kwIn => word "in"
  | kwField => word "field"
  | kwBits => word "bits"
  | kwBit => word "bit"
  | kwInt => word "int"
  | kwString => word "string"
  | kwCode => word "code"
  | kwDag => word "dag"
  | kwList => word "list"
  | kwTrue => word "true"
  | kwFalse => word "false"
  | file => startOfInput >> each statement >> rule .endOfInput
  | inclusion => rule .kwInclude >> rule .string
  | classDecl =>
    rule .kwClass >> rule .identifier >> optional (rule .templateParams) >> optional (rule .parentList)
      >> rule .body
  | defDecl =>
    rule .kwDef >> optional (rule .identifier) >> optional (rule .parentList) >> rule .body
  | letBlock =>
    rule .kwLet >> rule .letBinding >> each (text "," >> rule .letBinding) >> rule .kwIn
      >> rule .letScope
  | letBinding => rule .identifier >> text "=" >> value
  | letScope => text "\x7b" >> each statement >> text "\x7d" <|> statement
  | templateParams =>
    text "<" >> rule .templateParam >> each (text "," >> rule .templateParam) >> text ">"
  | templateParam => rule .fieldType >> rule .identifier >> optional (text "=" >> value)
  | parentList => text ":" >> rule .parent >> each (text "," >> rule .parent)
  | parent => rule .identifier >> optional (rule .parentArgs)
  | parentArgs => text "<" >> optional (value >> each (text "," >> value)) >> text ">"
  | body => text ";" <|> text "\x7b" >> each bodyItem >> text "\x7d"
  | fieldLet => rule .kwLet >> rule .identifier >> text "=" >> value >> text ";"
  | fieldDecl =>
    optional (rule .kwField) >> rule .fieldType >> rule .identifier >> optional (text "=" >> value)
      >> text ";"
  | fieldType =>
    rule .bitsType <|> rule .listType <|> rule .bitType <|> rule .intType <|> rule .stringType
      <|> rule .codeType <|> rule .dagType <|> rule .classType
  | bitsType => rule .kwBits >> text "<" >> rule .decimal >> text ">"
  | listType => rule .kwList >> text "<" >> rule .fieldType >> text ">"
  | bitType => rule .kwBit
  | intType => rule .kwInt
  | stringType => rule .kwString
  | codeType => rule .kwCode
  | dagType => rule .kwDag
  | classType => rule .identifier
  | decimal => digits Char.isDigit
  | unset => text "?"
  | boolean => rule .kwTrue <|> rule .kwFalse
  | integer =>
    optional (text "-")
      ++ ((text "0x" ++ digits isHexDigit <|> text "0b" ++ digits isBinDigit <|> digits Char.isDigit)
        ++ avoid wordChar)
  | string =>
    text "\""
      ++ (many (text "\\" ++ any <|> anyBut (text "\"" <|> text "\\" <|> text "\n")) ++ text "\"")
  | code => text "[\x7b" ++ (many (anyBut (text "\x7d]")) ++ text "\x7d]")
  | bitsInit => text "\x7b" >> optional (value >> each (text "," >> value)) >> text "\x7d"
  | listInit =>
    text "[" >> optional (value >> each (text "," >> value)) >> text "]" >> optional (rule .listSuffix)
  | listSuffix => text "<" >> rule .fieldType >> text ">"
  | dagInit =>
    text "(" >> rule .dagOperator >> optional (rule .dagArg >> each (text "," >> rule .dagArg))
      >> text ")"
  | dagOperator => rule .reference
  | dagArg => rule .varName <|> value >> optional (text ":" >> rule .varName)
  | varName => text "$" ++ (wordStart ++ many wordChar)
  | bangOp =>
    rule .bangName >> text "(" >> optional (value >> each (text "," >> value)) >> text ")"
  | bangName => text "!" ++ digits Char.isAlpha
  | reference => rule .identifier

theorem Keyword.pattern_rule (k : Keyword) : k.rule.pattern = Pattern.word k.text := by cases k <;> rfl

end TypedRecords
