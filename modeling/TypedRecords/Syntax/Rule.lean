import TypedRecords.Location

/-!
# Grammar rules and the report of a syntax error

A rule is a named part of the grammar. `Attempts` are the rules that were tried and failed, each with
the place and the failures inside it. From the attempts of a whole parse, in order, `Furthest` keeps
the furthest place reached and what was expected there.
-/

namespace TypedRecords

/-- The named parts of the grammar that a syntax error can ask for, in the order it lists them. -/
inductive Rule
  | endOfInput
  | identifier
  | kwInclude | kwClass | kwDef | kwLet | kwIn | kwField | kwBits | kwBit | kwInt | kwString
  | kwCode | kwDag | kwList | kwTrue | kwFalse
  | file | inclusion | classDecl | defDecl
  | letBlock | letBinding | letScope
  | templateParams | templateParam
  | parentList | parent | parentArgs
  | body | fieldLet | fieldDecl
  | fieldType | bitsType | listType | bitType | intType | stringType | codeType | dagType | classType
  | decimal
  | unset | boolean | integer | string | code
  | bitsInit | listInit | listSuffix
  | dagInit | dagOperator | dagArg | varName
  | bangOp | bangName
  | reference
deriving DecidableEq, Repr

namespace Rule

def all : List Rule :=
  [endOfInput, identifier,
   kwInclude, kwClass, kwDef, kwLet, kwIn, kwField, kwBits, kwBit, kwInt, kwString,
   kwCode, kwDag, kwList, kwTrue, kwFalse,
   file, inclusion, classDecl, defDecl,
   letBlock, letBinding, letScope,
   templateParams, templateParam,
   parentList, parent, parentArgs,
   body, fieldLet, fieldDecl,
   fieldType, bitsType, listType, bitType, intType, stringType, codeType, dagType, classType,
   decimal,
   unset, boolean, integer, string, code,
   bitsInit, listInit, listSuffix,
   dagInit, dagOperator, dagArg, varName,
   bangOp, bangName,
   reference]

def name : Rule → String
  | endOfInput => "EOI"
  | identifier => "identifier"
  | kwInclude => "kw_include"
  | kwClass => "kw_class"
  | kwDef => "kw_def"
  | kwLet => "kw_let"
  | kwIn => "kw_in"
  | kwField => "kw_field"
  | kwBits => "kw_bits"
  | kwBit => "kw_bit"
  | kwInt => "kw_int"
  | kwString => "kw_string"
  | kwCode => "kw_code"
  | kwDag => "kw_dag"
  | kwList => "kw_list"
  | kwTrue => "kw_true"
  | kwFalse => "kw_false"
  | file => "file"
  | inclusion => "include"
  | classDecl => "class_decl"
  | defDecl => "def_decl"
  | letBlock => "let_block"
  | letBinding => "let_binding"
  | letScope => "let_scope"
  | templateParams => "template_params"
  | templateParam => "template_param"
  | parentList => "parent_list"
  | parent => "parent"
  | parentArgs => "parent_args"
  | body => "body"
  | fieldLet => "field_let"
  | fieldDecl => "field_decl"
  | fieldType => "field_type"
  | bitsType => "bits_type"
  | listType => "list_type"
  | bitType => "bit_type"
  | intType => "int_type"
  | stringType => "string_type"
  | codeType => "code_type"
  | dagType => "dag_type"
  | classType => "class_type"
  | decimal => "decimal"
  | unset => "unset"
  | boolean => "boolean"
  | integer => "integer"
  | string => "string"
  | code => "code"
  | bitsInit => "bits_init"
  | listInit => "list_init"
  | listSuffix => "list_suffix"
  | dagInit => "dag_init"
  | dagOperator => "dag_operator"
  | dagArg => "dag_arg"
  | varName => "var_name"
  | bangOp => "bang_op"
  | bangName => "bang_name"
  | reference => "reference"

end Rule

/-- The rules that failed while a text was read, in order. A rule failed at a place with the failures
met inside it. -/
inductive Attempts
  | none
  | failed (rule : Rule) (place : Location) (inner : Attempts)
  | both (first second : Attempts)

namespace Attempts

def append : Attempts → Attempts → Attempts
  | none, b => b
  | a, none => a
  | a, b => both a b

instance : Append Attempts := ⟨append⟩

end Attempts

/-- The furthest place at which a rule failed, and the rules to be asked for there. -/
structure Furthest where
  place : Location
  rules : List Rule

namespace Furthest

def countAt (f : Furthest) (place : Location) : Nat :=
  if f.place = place then f.rules.length else 0

/-- Notes that `rule` failed at `place`, where `earlier` rules were noted before it was tried. The
rule stands for the failures inside it at that same place, unless there was just one of them. -/
def note (f : Furthest) (rule : Rule) (place : Location) (earlier : Nat) : Furthest :=
  if f.countAt place = earlier + 1 then f
  else if f.place = place then ⟨place, f.rules.take earlier ++ [rule]⟩
  else if f.place.before place then ⟨place, [rule]⟩
  else f

/-- The furthest failure after more attempts, in order. -/
def add (f : Furthest) : Attempts → Furthest
  | .none => f
  | .failed rule place inner => (f.add inner).note rule place (f.countAt place)
  | .both first second => (f.add first).add second

/-- The furthest failure among the attempts made on the text `file`. -/
def ofAttempts (file : String) (attempts : Attempts) : Furthest :=
  add ⟨Location.start file, []⟩ attempts

/-- The rules asked for, each once and in the order of the grammar. -/
def expected (f : Furthest) : List Rule := Rule.all.filter fun r => f.rules.contains r

end Furthest

/-- Alternatives in a sentence: `a`, `a or b`, `a, b, or c`. -/
def alternatives : List String → String
  | [] => ""
  | [a] => a
  | [a, b] => a ++ " or " ++ b
  | names => String.join (names.dropLast.map (· ++ ", ")) ++ "or " ++ names.getLast?.getD ""

end TypedRecords
