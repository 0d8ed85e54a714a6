import TypedRecords.Template.Basic
import TypedRecords.Expr.Eval

/-!
# Binding template arguments

Arguments are bound by position and converted to the types of their parameters. A parameter
without an argument takes its default, which sees the parameters before it.
-/

namespace TypedRecords

/-- What becomes of a parameter that has neither an argument nor a default. -/
inductive Missing
  | refused
  | unset
deriving DecidableEq, Repr

/-- The value of one parameter before its conversion, next in line `args`. -/
def paramValue (db : Database) (className : String) (place : Location) (missing : Missing)
    (bound : Bindings) (p : Param) (args : List (Option Value)) :
    Except ParseError (Option Value) :=
  match args, p.default with
  | arg :: _, _ => .ok arg
  | [], some default => evaluateClosed db (default.substitute bound) (some p.type)
  | [], none =>
    match missing with
    | .refused => .error ⟨.argMissing className p.name, place⟩
    | .unset => .ok none

/-- Binds parameters behind those already bound. -/
def bindParams (db : Database) (className : String) (place : Location) (missing : Missing) :
    Bindings → List Param → List (Option Value) → Except ParseError Bindings
  | bound, [], _ => .ok bound
  | bound, p :: ps, args => do
    let raw ← paramValue db className place missing bound p args
    let value ← assign db.store (.param className p.name) p.type place raw
    bindParams db className place missing (bound ++ [⟨p.name, p.type, value⟩]) ps args.tail

namespace Template

/-- The bindings of a template's parameters to arguments; errors lie at `place`. -/
def bind (db : Database) (t : Template) (args : List (Option Value)) (place : Location)
    (missing : Missing) : Except ParseError Bindings :=
  if t.params.length < args.length then
    .error ⟨.tooManyArgs t.name t.params.length args.length, place⟩
  else bindParams db t.name place missing [] t.params args

theorem bind_eq_ok_iff {db : Database} {t : Template} {args : List (Option Value)}
    {place : Location} {missing : Missing} {bs : Bindings} :
    t.bind db args place missing = .ok bs ↔
      args.length ≤ t.params.length ∧
        bindParams db t.name place missing [] t.params args = .ok bs := by
  by_cases h : t.params.length < args.length
  · rw [bind, if_pos h]
    constructor
    · intro hok
      cases hok
    · intro ⟨hargs, _⟩
      exact absurd h (Nat.not_lt.2 hargs)
  · rw [bind, if_neg h, and_iff_right (Nat.not_lt.1 h)]

end Template
end TypedRecords
