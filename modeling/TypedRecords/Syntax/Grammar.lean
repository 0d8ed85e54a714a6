import TypedRecords.Syntax.Tree

/-!
# The grammar

One parser for each rule of the language, from types and values to whole files. Rules that contain
themselves take a depth: a text nests no deeper than it has characters.
-/

namespace TypedRecords.Parser

/-! ## Types -/

def bitsType : Parser TypeSyntax := named .bitsType do
  let place ← here
  keyword .kwBits; skip
  symbol "<"; skip
  let width ← token .decimal scanDecimal; skip
  symbol ">"
  return .bits width place

def listType (element : Parser TypeSyntax) : Parser TypeSyntax := named .listType do
  keyword .kwList; skip
  symbol "<"; skip
  let element ← element; skip
  symbol ">"
  return .list element

def plainType (rule : Rule) (k : Keyword) (type : TypeSyntax) : Parser TypeSyntax :=
  named rule do keyword k; return type

def classType : Parser TypeSyntax := named .classType do
  let place ← here
  return .named (← identifier) place

def fieldTypeTo : Nat → Parser TypeSyntax
  | 0 => fail
  | depth + 1 => named .fieldType
    (bitsType
      <|> listType (fieldTypeTo depth)
      <|> plainType .bitType .kwBit .bit
      <|> plainType .intType .kwInt .int
      <|> plainType .stringType .kwString .string
      <|> plainType .codeType .kwCode .code
      <|> plainType .dagType .kwDag .dag
      <|> classType)

def fieldType : Parser TypeSyntax := fun c => fieldTypeTo (c.rest.length + 1) c

/-! ## Values -/

def unset : Parser ValueSyntax := named .unset do symbol "?"; return .unset

def boolean : Parser ValueSyntax := named .boolean
  ((do keyword .kwTrue; return .boolean true) <|> (do keyword .kwFalse; return .boolean false))

def integer : Parser ValueSyntax := do
  let place ← here
  return .integer (← token .integer scanInteger) place

def string : Parser ValueSyntax := do
  let place ← here
  return .string (← token .string scanString) place

def code : Parser ValueSyntax := do
  return .code (← token .code scanCode)

def reference : Parser ValueSyntax := do
  let place ← here
  return .reference (← named .reference identifier) place

def bitsInit (value : Parser ValueSyntax) : Parser ValueSyntax := named .bitsInit do
  let place ← here
  symbol "\x7b"; skip
  let items ← separatedOrNone value; skip
  symbol "\x7d"
  return .bits items place

def listSuffix : Parser TypeSyntax := named .listSuffix do
  symbol "<"; skip
  let element ← fieldType; skip
  symbol ">"
  return element

def listInit (value : Parser ValueSyntax) : Parser ValueSyntax := named .listInit do
  let place ← here
  symbol "["; skip
  let items ← separatedOrNone value; skip
  symbol "]"; skip
  let element ← optional listSuffix
  return .list items element place

def varName : Parser String := token .varName scanVarName

/-- A name alone stands for an unset argument. -/
def dagArg (value : Parser ValueSyntax) : Parser (DagArg ValueSyntax) := named .dagArg
  ((do return ⟨some (← varName), none⟩)
    <|> (do
      let v ← value; skip
      let name ← optional (do symbol ":"; skip; varName)
      return ⟨name, some v⟩))

def dagInit (value : Parser ValueSyntax) : Parser ValueSyntax := named .dagInit do
  let place ← here
  symbol "("; skip
  let operatorPlace ← here
  let operator ← named .dagOperator (named .reference identifier); skip
  let args ← separatedOrNone (dagArg value); skip
  symbol ")"
  return .dag operator operatorPlace args place

def bangOp (value : Parser ValueSyntax) : Parser ValueSyntax := named .bangOp do
  let place ← here
  let operator ← token .bangName scanBangName; skip
  symbol "("; skip
  let args ← separatedOrNone value; skip
  symbol ")"
  return .bang operator args place

def valueTo : Nat → Parser ValueSyntax
  | 0 => fail
  | depth + 1 =>
    unset <|> boolean <|> integer <|> string <|> code
      <|> bitsInit (valueTo depth)
      <|> listInit (valueTo depth)
      <|> dagInit (valueTo depth)
      <|> bangOp (valueTo depth)
      <|> reference

def value : Parser ValueSyntax := fun c => valueTo (c.rest.length + 1) c

/-- `= value`, where it may be missing. -/
def initializer : Parser (Option ValueSyntax) := optional do symbol "="; skip; value

/-! ## Declarations -/

/-- A binding; its place is the start of the rule that holds it. -/
def binding (place : Location) : Parser LetSyntax := do
  let name ← identifier; skip
  symbol "="; skip
  return ⟨name, ← value, place⟩

def letBinding : Parser LetSyntax := named .letBinding do
  binding (← here)

def templateParam : Parser ParamSyntax := named .templateParam do
  let place ← here
  let type ← fieldType; skip
  let name ← identifier; skip
  let default ← initializer
  return ⟨type, name, default, place⟩

def templateParams : Parser (List ParamSyntax) := named .templateParams do
  symbol "<"; skip
  let params ← separated templateParam; skip
  symbol ">"
  return params

def parentArgs : Parser (List ValueSyntax) := named .parentArgs do
  symbol "<"; skip
  let args ← separatedOrNone value; skip
  symbol ">"
  return args

def parent : Parser ParentSyntax := named .parent do
  let place ← here
  let name ← identifier; skip
  let args ← optional parentArgs
  return ⟨name, args.getD [], place⟩

def parentList : Parser (List ParentSyntax) := named .parentList do
  symbol ":"; skip
  separated parent

def fieldLet : Parser ItemSyntax := named .fieldLet do
  let place ← here
  keyword .kwLet; skip
  let binding ← binding place; skip
  symbol ";"
  return .override binding

def fieldDecl : Parser ItemSyntax := named .fieldDecl do
  let place ← here
  let _ ← optional (keyword .kwField); skip
  let type ← fieldType; skip
  let name ← identifier; skip
  let value ← initializer; skip
  symbol ";"
  return .field type name value place

def body : Parser (List ItemSyntax) := named .body
  ((do symbol ";"; return [])
    <|> (do
      symbol "\x7b"; skip
      let items ← many (fieldLet <|> fieldDecl); skip
      symbol "\x7d"
      return items))

/-! ## Statements -/

def inclusion : Parser Statement := named .inclusion do
  let place ← here
  keyword .kwInclude; skip
  let filePlace ← here
  let file ← token .string scanString
  return .includeFile ⟨file, filePlace, place⟩

def classDecl : Parser Statement := named .classDecl do
  let place ← here
  keyword .kwClass; skip
  let namePlace ← here
  let name ← identifier; skip
  let params ← optional templateParams; skip
  let parents ← optional parentList; skip
  let body ← body
  return .classDecl ⟨name, namePlace, params.getD [], parents.getD [], body, place⟩

def defDecl : Parser Statement := named .defDecl do
  let place ← here
  keyword .kwDef; skip
  let name ← optional identifier; skip
  let parents ← optional parentList; skip
  let body ← body
  return .defDecl ⟨name, parents.getD [], body, place⟩

def letScope (statement : Parser Statement) : Parser (List Statement) := named .letScope
  ((do
      symbol "\x7b"; skip
      let body ← many statement; skip
      symbol "\x7d"
      return body)
    <|> (do return [← statement]))

def letBlock (statement : Parser Statement) : Parser Statement := named .letBlock do
  keyword .kwLet; skip
  let bindings ← separated letBinding; skip
  keyword .kwIn; skip
  return .scope bindings (← letScope statement)

def statementTo : Nat → Parser Statement
  | 0 => fail
  | depth + 1 => inclusion <|> classDecl <|> defDecl <|> letBlock (statementTo depth)

def statement : Parser Statement := fun c => statementTo (c.rest.length + 1) c

def endOfInput : Parser Unit := named .endOfInput fun c =>
  ⟨if c.rest.isEmpty then some ((), c) else none, .none⟩

def file : Parser (List Statement) := named .file do
  skip
  let statements ← many statement; skip
  endOfInput
  return statements

end TypedRecords.Parser

namespace TypedRecords

/-- A text that is not a file of the language: where reading stopped and what was asked for. -/
structure SyntaxError where
  place : Location
  expected : List Rule
deriving DecidableEq, Repr

/-- The statements of a text, or where and why it has none. -/
def readStatements (name text : String) : Except SyntaxError (List Statement) :=
  let reply := Parser.file (Cursor.start name text)
  match reply.outcome with
  | some (statements, _) => .ok statements
  | none =>
    let furthest := Furthest.ofAttempts name reply.attempts
    .error ⟨furthest.place, furthest.expected⟩

end TypedRecords
