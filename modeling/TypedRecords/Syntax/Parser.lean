import TypedRecords.Syntax.Rule

/-!
# Parsers

A parser reads from a cursor and answers what it read with the cursor behind it, or nothing, and in
either case the rules that failed on the way. The failed rules never influence the outcome: they
only serve the report of a syntax error.

Conventions: a parser starts at a character that is neither blank nor in a comment and ends right
behind its last token; `skip` stands between any two parts.
-/

namespace TypedRecords

/-- The characters still to read and the place of the first of them. -/
structure Cursor where
  rest : List Char
  place : Location

namespace Cursor

def start (file : String) (text : String) : Cursor := ⟨text.toList, .start file⟩

def advance (c : Cursor) (n : Nat) : Cursor :=
  ⟨c.rest.drop n, c.place.advanceAll (c.rest.take n)⟩

end Cursor

/-- What a parser answers: the value read and the cursor behind it, or none; and the failed rules. -/
structure Reply (α : Type) where
  outcome : Option (α × Cursor)
  attempts : Attempts

def Parser (α : Type) := Cursor → Reply α

/-- A scanner recognises one token at the head of a text: its value and its number of characters. -/
abbrev Scanner (α : Type) := List Char → Option (α × Nat)

namespace Parser

def pure (a : α) : Parser α := fun c => ⟨some (a, c), .none⟩

def bind (p : Parser α) (f : α → Parser β) : Parser β := fun c =>
  let r := p c
  match r.outcome with
  | none => ⟨none, r.attempts⟩
  | some (a, c') =>
    let s := f a c'
    ⟨s.outcome, r.attempts ++ s.attempts⟩

instance : Monad Parser where
  pure := pure
  bind := bind

def fail : Parser α := fun _ => ⟨none, .none⟩

/-- The first of two readings that succeeds. -/
def orElse (p : Parser α) (q : Unit → Parser α) : Parser α := fun c =>
  let r := p c
  match r.outcome with
  | some _ => r
  | none =>
    let s := q () c
    ⟨s.outcome, r.attempts ++ s.attempts⟩

instance : OrElse (Parser α) := ⟨orElse⟩

def here : Parser Location := fun c => ⟨some (c.place, c), .none⟩

def optional (p : Parser α) : Parser (Option α) := fun c =>
  let r := p c
  match r.outcome with
  | some (a, c') => ⟨some (some a, c'), r.attempts⟩
  | none => ⟨some (none, c), r.attempts⟩

/-- Reads a token that no rule names. -/
def scan (s : Scanner α) : Parser α := fun c =>
  match s c.rest with
  | some (a, n) => ⟨some (a, c.advance n), .none⟩
  | none => ⟨none, .none⟩

/-- Names what `p` reads: where it fails, `rule` failed. -/
def named (rule : Rule) (p : Parser α) : Parser α := fun c =>
  let r := p c
  match r.outcome with
  | some _ => r
  | none => ⟨none, .failed rule c.place r.attempts⟩

def token (rule : Rule) (s : Scanner α) : Parser α := named rule (scan s)

end Parser

def scanText (text : List Char) : Scanner Unit := fun cs =>
  if text.isPrefixOf cs then some ((), text.length) else none

namespace Parser

def symbol (text : String) : Parser Unit := scan (scanText text.toList)

end Parser

/-! ## Blanks and comments -/

def isBlank (c : Char) : Bool := c == ' ' || c == '\t' || c == '\r' || c == '\n'

mutual

/-- The number of characters at the head of a text that are blanks and comments. A block comment
that is not closed is not a comment. -/
def blankWidth : List Char → Nat
  | [] => 0
  | '/' :: '/' :: cs => lineCommentWidth cs + 2
  | '/' :: '*' :: cs =>
    match blockCommentWidth cs with
    | some n => n + 2
    | none => 0
  | c :: cs => if isBlank c then blankWidth cs + 1 else 0

/-- The same from inside a comment that ends with its line. -/
def lineCommentWidth : List Char → Nat
  | [] => 0
  | c :: cs => if c = '\n' then blankWidth cs + 1 else lineCommentWidth cs + 1

/-- The same from inside a comment that ends with `*/`; none when nothing closes it. -/
def blockCommentWidth : List Char → Option Nat
  | [] => none
  | '*' :: '/' :: cs => some (blankWidth cs + 2)
  | _ :: cs => (blockCommentWidth cs).map (· + 1)

end

namespace Parser

def skip : Parser Unit := fun c => ⟨some ((), c.advance (blankWidth c.rest)), .none⟩

/-- Reads `p` at most `limit` times, with blanks before each. -/
def manyUpTo (p : Parser α) : Nat → Parser (List α)
  | 0 => pure []
  | limit + 1 => fun c =>
    let r := (skip >>= fun _ => p) c
    match r.outcome with
    | none => ⟨some ([], c), r.attempts⟩
    | some (a, c') =>
      let s := manyUpTo p limit c'
      ⟨s.outcome.map fun (as, c'') => (a :: as, c''), r.attempts ++ s.attempts⟩

/-- Reads `p` as often as it can, with blanks before each. Every `p` takes a character, so the try
after as many as there are characters left is one that fails. -/
def many (p : Parser α) : Parser (List α) := fun c => manyUpTo p (c.rest.length + 1) c

/-- One `p` or more, with commas between. -/
def separated (p : Parser α) : Parser (List α) := do
  let first ← p
  let rest ← many (do symbol ","; skip; p)
  return first :: rest

/-- Any number of `p`, with commas between. -/
def separatedOrNone (p : Parser α) : Parser (List α) := do
  return (← optional (separated p)).getD []

end Parser
end TypedRecords
