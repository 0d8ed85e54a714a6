import Mathlib.Data.List.DropRight
import TypedRecords.Syntax.Tree
import TypedRecords.Proofs.Reading.Numbers
import TypedRecords.Proofs.RuleFile.Matching

/-!
# Pieces as syntax trees

What the pieces that the rules of a file read say: the syntax tree of its statements, put together part by
part from the rule that read each (`Piece.toStatements`). Where a part is not what its rule reads, the piece
is a misfit.
-/

namespace TypedRecords

/-- Why a piece says nothing. -/
inductive Misfit
  /-- It is not put together as its rule is: what is missing or out of place in it, and where it begins. -/
  | malformed (message : String) (place : Location)
  /-- What is to be cut off is longer than the piece or ends inside a character. -/
  | badCut
deriving DecidableEq, Repr

namespace Misfit

def unexpected (rule : Rule) (place : Location) : Misfit := malformed ("Unexpected " ++ rule.name) place

end Misfit

/-! ### Texts -/

/-- The part of a text from one byte to another; none where one of them is not in the text or lies inside a
character, or where they are not in order. -/
def cut? (text : String) (first last : Nat) : Option String := do
  let p ← text.pos? ⟨first⟩
  let q ← text.pos? ⟨last⟩
  return (← text.slice? p q).copy

theorem exists_pos (front back : String) :
    ∃ p, (front ++ back).pos? ⟨front.utf8ByteSize⟩ = some p ∧ p.Splits front back := by
  have hvalid : String.Pos.Raw.IsValid (front ++ back) front.rawEndPos :=
    String.Pos.Raw.isValid_rawEndPos.append_right back
  refine ⟨(front ++ back).pos front.rawEndPos hvalid, ?_, String.Pos.splits_append_rawEndPos⟩
  have hslice := String.Pos.Raw.isValidForSlice_eq_true_iff.2 hvalid.toSlice
  show Option.map _ (String.Slice.pos? _ _) = _
  rw [String.Slice.pos?]
  exact congrArg (Option.map _) (dif_pos hslice)

theorem cut?_append (front middle back : String) : cut? (front ++ (middle ++ back)) front.utf8ByteSize
    (front.utf8ByteSize + middle.utf8ByteSize) = some middle := by
  generalize htext : front ++ (middle ++ back) = text
  obtain ⟨p, hp, hfirst⟩ := htext ▸ exists_pos front (middle ++ back)
  obtain ⟨q, hq, hlast⟩ := (String.append_assoc ▸ htext) ▸ exists_pos (front ++ middle) back
  obtain ⟨hle, hcopy⟩ := String.copy_slice_eq_iff_splits.2 ⟨front, back, hfirst, hlast⟩
  rw [String.utf8ByteSize_append] at hq
  simp only [cut?, hp, hq, Option.bind_eq_bind, Option.bind_some, String.slice?, dif_pos hle, hcopy,
    Option.pure_def]

/-- White space, in any script. -/
def isSpace (c : Char) : Bool :=
  let n := c.toNat
  (9 ≤ n && n ≤ 13) || n == 32 || n == 0x85 || n == 0xa0 || n == 0x1680 || (0x2000 ≤ n && n ≤ 0x200a)
    || n == 0x2028 || n == 0x2029 || n == 0x202f || n == 0x205f || n == 0x3000

def trim (text : String) : String :=
  String.ofList ((text.toList.dropWhile isSpace).rdropWhile isSpace)

theorem isSpace_of_isWordChar {c : Char} (h : isWordChar c = true) : isSpace c = false := by
  have hrange : (65 ≤ c.toNat ∧ c.toNat ≤ 90 ∨ 97 ≤ c.toNat ∧ c.toNat ≤ 122) ∨
      48 ≤ c.toNat ∧ c.toNat ≤ 57 ∨ c.toNat = 95 := by
    have hchar : isWordChar c = (decide ('A'.val ≤ c.val ∧ c.val ≤ 'Z'.val) ||
        decide ('a'.val ≤ c.val) && decide (c.val ≤ 'z'.val) ||
        decide ('0'.val ≤ c.val) && decide (c.val ≤ '9'.val) || c == '_') := rfl
    simp only [hchar, Bool.or_eq_true, Bool.and_eq_true, decide_eq_true_eq, beq_iff_eq,
      UInt32.le_iff_toNat_le] at h
    rcases h with ((h | h) | h) | rfl
    · exact .inl (.inl h)
    · exact .inl (.inr h)
    · exact .inr (.inl h)
    · exact .inr (.inr rfl)
  simp only [isSpace, Bool.or_eq_false_iff, Bool.and_eq_false_iff, decide_eq_false_iff_not,
    beq_eq_false_iff_ne]
  omega

/-- There is nothing to trim from a word. -/
theorem trim_word {text : String} (h : ∀ c ∈ text.toList, isWordChar c = true) : trim text = text := by
  have hspace : ∀ c ∈ text.toList, ¬isSpace c = true := fun c hc =>
    Bool.eq_false_iff.1 (isSpace_of_isWordChar (h c hc))
  rw [trim, List.dropWhile_eq_self_iff.2 fun hl => hspace _ (List.getElem_mem ..),
    List.rdropWhile_eq_self_iff.2 fun hl => hspace _ (List.getLast_mem hl), String.ofList_toList]

namespace Piece

/-- The characters of a piece behind the first bytes and in front of the last. -/
def between (t : Piece) (front back : Nat) : Except Misfit (List Char) :=
  match cut? t.text front (t.text.utf8ByteSize - back) with
  | some s => .ok s.toList
  | none => .error .badCut

/-- What stands between the quotes of a string, escapes as written. -/
def stringBody (t : Piece) : Except Misfit (List Char) := t.between 1 1

def codeBody (t : Piece) : Except Misfit (List Char) := t.between 2 2

def varName (t : Piece) : Except Misfit String := return String.ofList (← t.between 1 0)

/-! ### Types -/

mutual

/-- The type that the first part says. -/
def toType : Piece → Except Misfit TypeSyntax
  | ⟨_, _, _, []⟩ => .ok .int
  | ⟨_, _, _, t :: _⟩ => t.toTypeOf

/-- The type that a piece says as the rule that read it. -/
def toTypeOf : Piece → Except Misfit TypeSyntax
  | ⟨rule, place, text, parts⟩ =>
    match rule with
    | .bitType => .ok .bit
    | .intType => .ok .int
    | .stringType => .ok .string
    | .codeType => .ok .code
    | .dagType => .ok .dag
    | .bitsType =>
      match parts.find? (·.rule = .decimal) with
      | some t => .ok (.bits (digitsValue 10 t.text.toList) place)
      | none => .error (.malformed "Expected a bit width" place)
    | .listType => return .list (← elementOf place parts)
    | _ => .ok (.named text place)

def elementOf (place : Location) : List Piece → Except Misfit TypeSyntax
  | [] => .error (.malformed "Expected an element type" place)
  | t :: ts => if t.rule = .fieldType then t.toType else elementOf place ts

end

/-! ### Values -/

mutual

def toValue : Piece → Except Misfit ValueSyntax
  | ⟨rule, place, text, parts⟩ =>
    match rule with
    | .unset => .ok .unset
    | .boolean => .ok (.boolean (parts.any (·.rule = .kwTrue)))
    | .integer => .ok (.integer (.ofText text.toList) place)
    | .string => return .string (← stringBody ⟨rule, place, text, parts⟩) place
    | .code => return .code (← codeBody ⟨rule, place, text, parts⟩)
    | .bitsInit => return .bits (← toValues parts) place
    | .listInit => listOf place [] none parts
    | .dagInit => dagOf place none [] parts
    | .bangOp =>
      match parts with
      | [] => .ok (.bang "" [] place)
      | t :: ts => return .bang t.text (← toValues ts) place
    | .reference => .ok (.reference (trim text) place)
    | _ => .error (.unexpected rule place)

def toValues : List Piece → Except Misfit (List ValueSyntax)
  | [] => .ok []
  | t :: ts => do
    let v ← t.toValue
    return v :: (← toValues ts)

/-- The list of the items so far and those of further parts. A suffix among these says the element type. -/
def listOf (place : Location) (items : List ValueSyntax) (element : Option TypeSyntax) :
    List Piece → Except Misfit ValueSyntax
  | [] => .ok (.list items element place)
  | t :: ts =>
    if t.rule = .listSuffix then
      match t.parts with
      | [] => listOf place items element ts
      | type :: _ => do listOf place items (some (← type.toType)) ts
    else do listOf place (items ++ [← t.toValue]) element ts

/-- The dag of the operator and arguments so far and those of further parts. -/
def dagOf (place : Location) (operator : Option (String × Location)) (args : List (DagArg ValueSyntax)) :
    List Piece → Except Misfit ValueSyntax
  | [] =>
    match operator with
    | some (name, operatorPlace) => .ok (.dag name operatorPlace args place)
    | none => .error (.malformed "Expected a dag operator" place)
  | t :: ts =>
    if t.rule = .dagOperator then do dagOf place (← t.operatorOr operator) args ts
    else do dagOf place operator (args ++ [← t.toDagArg]) ts

/-- The name that the first part refers to, and where; the operator before where there is no part. An operator
is a name, so any other value is out of place here. -/
def operatorOr (t : Piece) (before : Option (String × Location)) :
    Except Misfit (Option (String × Location)) :=
  match t with
  | ⟨_, _, _, []⟩ => .ok before
  | ⟨_, _, _, u :: _⟩ => do
    match ← u.toValue with
    | .reference name place => return some (name, place)
    | _ => throw (.unexpected u.rule u.place)

def toDagArg : Piece → Except Misfit (DagArg ValueSyntax)
  | ⟨_, _, _, parts⟩ => dagArgOf ⟨none, none⟩ parts

def dagArgOf (arg : DagArg ValueSyntax) : List Piece → Except Misfit (DagArg ValueSyntax)
  | [] => .ok arg
  | t :: ts =>
    if t.rule = .varName then do dagArgOf { arg with name := some (← t.varName) } ts
    else do dagArgOf { arg with value := some (← t.toValue) } ts

end

/-! ### Declarations

Each is made from its parts in their order, beginning with one that has nothing yet. -/

def letPart (l : LetSyntax) (t : Piece) : Except Misfit LetSyntax :=
  match t.rule with
  | .kwLet => .ok l
  | .identifier => .ok { l with name := t.text }
  | _ => return { l with value := ← t.toValue }

def toLet (t : Piece) : Except Misfit LetSyntax := t.parts.foldlM letPart ⟨"", .unset, t.place⟩

def paramPart (p : ParamSyntax) (t : Piece) : Except Misfit ParamSyntax :=
  match t.rule with
  | .fieldType => return { p with type := ← t.toType }
  | .identifier => .ok { p with name := t.text }
  | _ => return { p with default := some (← t.toValue) }

def toParam (t : Piece) : Except Misfit ParamSyntax := t.parts.foldlM paramPart ⟨.int, "", none, t.place⟩

def toParams (t : Piece) : Except Misfit (List ParamSyntax) := t.parts.mapM toParam

def parentPart (p : ParentSyntax) (t : Piece) : Except Misfit ParentSyntax :=
  match t.rule with
  | .identifier => .ok { p with name := t.text }
  | .parentArgs => return { p with args := p.args ++ (← toValues t.parts) }
  | _ => .ok p

def toParent (t : Piece) : Except Misfit ParentSyntax := t.parts.foldlM parentPart ⟨"", [], t.place⟩

def toParents (t : Piece) : Except Misfit (List ParentSyntax) := t.parts.mapM toParent

/-- A field has the parts of a parameter, and may have a word in front of them. -/
def fieldPart (p : ParamSyntax) (t : Piece) : Except Misfit ParamSyntax :=
  if t.rule = .kwField then .ok p else paramPart p t

def toField (t : Piece) : Except Misfit ItemSyntax := do
  let p ← t.parts.foldlM fieldPart ⟨.int, "", none, t.place⟩
  return .field p.type p.name p.default p.place

def itemsOf : List Piece → Except Misfit (List ItemSyntax)
  | [] => .ok []
  | t :: ts =>
    match t.rule with
    | .fieldLet => do
      let l ← t.toLet
      return .override l :: (← itemsOf ts)
    | .fieldDecl => do
      let item ← t.toField
      return item :: (← itemsOf ts)
    | _ => itemsOf ts

/-! ### Statements -/

def filePart (file : Option (List Char × Location)) (t : Piece) :
    Except Misfit (Option (List Char × Location)) :=
  if t.rule = .string then return some (← t.stringBody, t.place) else .ok file

def toInclude (t : Piece) : Except Misfit IncludeSyntax := do
  match ← t.parts.foldlM filePart none with
  | some (file, filePlace) => return ⟨file, filePlace, t.place⟩
  | none => throw (.malformed "Expected a file name" t.place)

def classPart (c : ClassSyntax) (t : Piece) : Except Misfit ClassSyntax :=
  match t.rule with
  | .identifier => .ok { c with name := t.text, namePlace := t.place }
  | .templateParams => return { c with params := ← t.toParams }
  | .parentList => return { c with parents := ← t.toParents }
  | .body => return { c with body := ← itemsOf t.parts }
  | _ => .ok c

def toClass (t : Piece) : Except Misfit ClassSyntax :=
  t.parts.foldlM classPart ⟨"", t.place, [], [], [], t.place⟩

def defPart (d : DefSyntax) (t : Piece) : Except Misfit DefSyntax :=
  match t.rule with
  | .identifier => .ok { d with name := some t.text }
  | .parentList => return { d with parents := ← t.toParents }
  | .body => return { d with body := ← itemsOf t.parts }
  | _ => .ok d

def toDef (t : Piece) : Except Misfit DefSyntax := t.parts.foldlM defPart ⟨none, [], [], t.place⟩

mutual

def toScope : Piece → Except Misfit Statement
  | ⟨_, _, _, parts⟩ => do
    let bindings ← (parts.filter (·.rule = .letBinding)).mapM toLet
    return .scope bindings (← scopeOf parts)

/-- The statements of the last scope among some parts. -/
def scopeOf : List Piece → Except Misfit (List Statement)
  | [] => .ok []
  | t :: ts =>
    if t.rule = .letScope && !ts.any (·.rule = .letScope) then t.toStatements else scopeOf ts

def toStatements : Piece → Except Misfit (List Statement)
  | ⟨_, _, _, parts⟩ => statementsOf parts

def statementsOf : List Piece → Except Misfit (List Statement)
  | [] => .ok []
  | t :: ts =>
    match t.rule with
    | .inclusion => do
      let i ← t.toInclude
      return .includeFile i :: (← statementsOf ts)
    | .classDecl => do
      let c ← t.toClass
      return .classDecl c :: (← statementsOf ts)
    | .defDecl => do
      let d ← t.toDef
      return .defDecl d :: (← statementsOf ts)
    | .letBlock => do
      let s ← t.toScope
      return s :: (← statementsOf ts)
    | _ => statementsOf ts

end

end Piece
end TypedRecords
