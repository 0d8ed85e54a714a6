import Mathlib.Data.List.Induction
import TypedRecords.Syntax.Grammar

/-!
# The nodes of a text

The places that a syntax tree holds are those of its nodes, each with the rule that reads it. A cursor
stands on a text where what lies before it and what is left make up the text and its place counts the
lines and characters before it (`Location.advanceAll_start`). A node begins on a text where its rule
reads from a cursor on the text at its place.
-/

namespace TypedRecords

/-- A part of a text: the rule that reads it and the place where it begins. -/
structure Node where
  rule : Rule
  place : Location

/-! ### The nodes of a tree -/

namespace TypeSyntax

def nodes : TypeSyntax → List Node
  | bits _ place => [⟨.bitsType, place⟩]
  | list element => element.nodes
  | named _ place => [⟨.classType, place⟩]
  | bit | int | string | code | dag => []

end TypeSyntax

namespace ValueSyntax

mutual

def nodes : ValueSyntax → List Node
  | unset | boolean _ | code _ => []
  | integer _ place => [⟨.integer, place⟩]
  | string _ place => [⟨.string, place⟩]
  | bits items place => ⟨.bitsInit, place⟩ :: nodesAll items
  | list items none place => ⟨.listInit, place⟩ :: nodesAll items
  | list items (some element) place => ⟨.listInit, place⟩ :: (nodesAll items ++ element.nodes)
  | dag _ operatorPlace args place =>
    ⟨.dagInit, place⟩ :: ⟨.dagOperator, operatorPlace⟩ :: nodesArgs args
  | bang _ args place => ⟨.bangOp, place⟩ :: nodesAll args
  | reference _ place => [⟨.reference, place⟩]

def nodesAll : List ValueSyntax → List Node
  | [] => []
  | v :: vs => v.nodes ++ nodesAll vs

def nodesArgs : List (DagArg ValueSyntax) → List Node
  | [] => []
  | ⟨_, some v⟩ :: as => v.nodes ++ nodesArgs as
  | ⟨_, none⟩ :: as => nodesArgs as

end

/-- The nodes of a value that may be missing. -/
def nodesOption (v : Option ValueSyntax) : List Node := v.elim [] nodes

theorem nodesAll_eq (vs : List ValueSyntax) : nodesAll vs = vs.flatMap nodes := by
  induction vs with
  | nil => rfl
  | cons v vs ih => rw [nodesAll, ih, List.flatMap_cons]

theorem nodesArgs_eq (as : List (DagArg ValueSyntax)) :
    nodesArgs as = as.flatMap fun a => nodesOption a.value := by
  induction as with
  | nil => rfl
  | cons a as ih => rcases a with ⟨name, _ | v⟩ <;> rw [nodesArgs, ih, List.flatMap_cons] <;> rfl

end ValueSyntax

/-- The nodes of a binding that `rule` holds. -/
def LetSyntax.nodes (rule : Rule) (l : LetSyntax) : List Node := ⟨rule, l.place⟩ :: l.value.nodes

def ParamSyntax.nodes (p : ParamSyntax) : List Node :=
  ⟨.templateParam, p.place⟩ :: (p.type.nodes ++ ValueSyntax.nodesOption p.default)

def ParentSyntax.nodes (p : ParentSyntax) : List Node :=
  ⟨.parent, p.place⟩ :: ValueSyntax.nodesAll p.args

def ItemSyntax.nodes : ItemSyntax → List Node
  | field type _ value place => ⟨.fieldDecl, place⟩ :: (type.nodes ++ ValueSyntax.nodesOption value)
  | override l => l.nodes .fieldLet

def ClassSyntax.nodes (c : ClassSyntax) : List Node :=
  ⟨.classDecl, c.place⟩ :: ⟨.identifier, c.namePlace⟩ :: (c.params.flatMap ParamSyntax.nodes
    ++ c.parents.flatMap ParentSyntax.nodes ++ c.body.flatMap ItemSyntax.nodes)

def DefSyntax.nodes (d : DefSyntax) : List Node :=
  ⟨.defDecl, d.place⟩ :: (d.parents.flatMap ParentSyntax.nodes ++ d.body.flatMap ItemSyntax.nodes)

def IncludeSyntax.nodes (i : IncludeSyntax) : List Node :=
  [⟨.inclusion, i.place⟩, ⟨.string, i.filePlace⟩]

namespace Statement

mutual

def nodes : Statement → List Node
  | .includeFile i => i.nodes
  | .classDecl c => c.nodes
  | .defDecl d => d.nodes
  | .scope bindings body => bindings.flatMap (LetSyntax.nodes .letBinding) ++ nodesAll body

def nodesAll : List Statement → List Node
  | [] => []
  | s :: ss => s.nodes ++ nodesAll ss

end

theorem nodesAll_eq (ss : List Statement) : nodesAll ss = ss.flatMap nodes := by
  induction ss with
  | nil => rfl
  | cons s ss ih => rw [nodesAll, ih, List.flatMap_cons]

end Statement

/-! ### Places on a text -/

/-- The line and the column behind characters count the line feeds among them and the characters since
the last of these. -/
theorem Location.advanceAll_start (file : String) (cs : List Char) :
    (start file).advanceAll cs =
      ⟨file, cs.count '\n' + 1, (cs.reverse.takeWhile (· ≠ '\n')).length + 1⟩ := by
  induction cs using List.reverseRecOn with
  | nil => rfl
  | append_singleton cs c ih =>
    rw [advanceAll_append, ih, advanceAll_cons, advanceAll_nil, advance, List.count_append,
      List.count_singleton, List.reverse_append, List.reverse_singleton, List.singleton_append,
      List.takeWhile_cons]
    by_cases hc : c = '\n'
    · simp [hc]
    · simp [hc]

/-- A text that is read, and what messages call it. -/
structure Source where
  name : String
  text : String

namespace Source

/-- The cursor stands at a character of the text or at its end. -/
def On (o : Source) (c : Cursor) : Prop :=
  ∃ before, o.text.toList = before ++ c.rest ∧ c.place = (Location.start o.name).advanceAll before

theorem on_start (o : Source) : o.On (Cursor.start o.name o.text) := ⟨[], rfl, rfl⟩

theorem On.advance {o : Source} {c : Cursor} (h : o.On c) (n : Nat) : o.On (c.advance n) := by
  obtain ⟨before, htext, hplace⟩ := h
  refine ⟨before ++ c.rest.take n, ?_, ?_⟩
  · rw [htext, List.append_assoc, Cursor.advance, List.take_append_drop]
  · rw [Cursor.advance, Location.advanceAll_append, hplace]

/-- Some cursor on the text stands at the place. -/
def Has (o : Source) (l : Location) : Prop := ∃ c, o.On c ∧ c.place = l

end Source

/-! ### Where nodes begin -/

/-- The parser reads something from the cursor on. -/
def Parser.Accepts {α : Type} (p : Parser α) (c : Cursor) : Prop := (p c).outcome.isSome = true

/-- The rule reads a part of a text from the cursor on. No node comes from the rules left out. -/
def Rule.Accepts (c : Cursor) : Rule → Prop
  | .bitsType => Parser.bitsType.Accepts c
  | .classType => Parser.classType.Accepts c
  | .integer => (Parser.token .integer scanInteger).Accepts c
  | .string => (Parser.token .string scanString).Accepts c
  | .bitsInit => ∃ depth, (Parser.bitsInit (Parser.valueTo depth)).Accepts c
  | .listInit => ∃ depth, (Parser.listInit (Parser.valueTo depth)).Accepts c
  | .dagInit => ∃ depth, (Parser.dagInit (Parser.valueTo depth)).Accepts c
  | .dagOperator => (Parser.named .dagOperator (Parser.named .reference Parser.identifier)).Accepts c
  | .bangOp => ∃ depth, (Parser.bangOp (Parser.valueTo depth)).Accepts c
  | .reference => (Parser.named .reference Parser.identifier).Accepts c
  | .letBinding => Parser.letBinding.Accepts c
  | .templateParam => Parser.templateParam.Accepts c
  | .parent => Parser.parent.Accepts c
  | .fieldLet => Parser.fieldLet.Accepts c
  | .fieldDecl => Parser.fieldDecl.Accepts c
  | .inclusion => Parser.inclusion.Accepts c
  | .classDecl => Parser.classDecl.Accepts c
  | .identifier => Parser.identifier.Accepts c
  | .defDecl => Parser.defDecl.Accepts c
  | _ => False

namespace Source

/-- The node begins on the text: its rule reads there. -/
def Begins (o : Source) (n : Node) : Prop := ∃ c, o.On c ∧ c.place = n.place ∧ n.rule.Accepts c

abbrev BeginsAll (o : Source) (ns : List Node) : Prop := ∀ n ∈ ns, o.Begins n

end Source

end TypedRecords
