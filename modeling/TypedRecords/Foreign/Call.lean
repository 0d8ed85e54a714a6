import TypedRecords.Foreign.Query

/-!
# Calls across the interface

A call opens, parses or frees a session, asks a query, makes an owned result or gives one back. A
refused call has no effect. The ledger moves only where an owned result is made or given back.
-/

namespace TypedRecords.Foreign

/-- Calls that answer an owned result. `length` says that the caller asked for an array's length. -/
inductive Acquire
  | derivedDefs (database : Pointer) (className : Text)
  | keys (table : Pointer) (length : Bool)
  | recordText (record : Pointer)
  | fieldText (field : Pointer)
  | fieldBits (field : Pointer) (length : Bool)
  | valueText (value : Pointer)
  | valueBits (value : Pointer) (length : Bool)
  | dagPair (value : Pointer) (index : Nat)

inductive Call
  /-- Opens a session on a source; the includes may be a null pointer, and `count` of them count. -/
  | create (source : Text) (includes : Option (List Text)) (count : Nat)
  | parse (session : Pointer)
  | free (session : Pointer)
  | ask (q : Query)
  | acquire (a : Acquire)
  | release (shape : Shape) (p : Pointer)

/-- A text as an owned C string holds it. -/
def cText (text : String) : String := String.ofList (text.toList.filter (· ≠ '\x00'))

/-- An error message as a session keeps it. -/
def cMessage (text : String) : String :=
  String.ofList (text.toList.map fun c => if c = '\x00' then ' ' else c)

def allTexts : List Text → Option (List String)
  | [] => some []
  | none :: _ => none
  | some t :: ts => (allTexts ts).map (t :: ·)

namespace State

/-! ## Sessions -/

def openSession (st : State) (source : Text) (includes : Option (List Text)) (count : Nat) :
    Except Refusal (Result × State) :=
  match includes with
  | some texts =>
    if texts.length < count then .error .missingIncludes
    else .ok (make (allTexts (texts.take count)))
  | none => .ok (make (some []))
where
  make (dirs : Option (List String)) : Result × State :=
    match source, dirs with
    | some source, some dirs =>
      (.handle (some (.session st.sessions.length)),
        { st with sessions := st.sessions ++ [⟨source, dirs, none, none, false, false⟩] })
    | _, _ => (.handle none, st)

def setSession (st : State) (id : Nat) (s : SessionState) : State :=
  { st with sessions := st.sessions.set id s }

end State

def alreadyParsed : String := "Source has already been parsed"

namespace SessionState

/-- Parses the source, the first time; any later time fails. -/
def parse (tree : FileTree) (s : SessionState) : Bool × SessionState :=
  if s.attempted then (false, { s with lastError := some alreadyParsed })
  else
    match Session.read ⟨tree, s.includeDirs⟩ unnamedSource s.source with
    | .ok opened =>
      (true, { s with opened := some opened, lastError := none, attempted := true })
    | .error e => (false, { s with lastError := some (cMessage e.message), attempted := true })

end SessionState

namespace State

/-! ## Owned results -/

def handOut (st : State) (session : Nat) (content : Content) : Handle × State :=
  (.owned st.owned.length,
    { st with
      owned := st.owned ++ [⟨session, content, false⟩]
      ledger := st.ledger.acquire content.shape })

def handOutSingle (st : State) : Option (Nat × Content) → Result × State
  | none => (.handle none, st)
  | some (session, content) =>
    let (h, st) := st.handOut session content
    (.handle (some h), st)

def handOutArray (st : State) (length : Bool) : Option (Nat × Content × Nat) → Result × State
  | none => (.array none none, st)
  | some (session, content, size) =>
    let (h, st) := st.handOut session content
    (.array (some h) (if length then some size else none), st)

def textContent (found : Option (Nat × Value)) : Option (Nat × Content) := do
  let (id, v) ← found
  let text ← v.asText.toOption
  return (id, .string (cText text))

def bitsContent (found : Option (Nat × Value)) : Option (Nat × Content × Nat) := do
  let (id, v) ← found
  let bits ← v.asBits.toOption
  return (id, .bits bits, bits.length)

def acquire (st : State) : Acquire → Except Refusal (Result × State)
  | .derivedDefs p name => do
    let found ← st.databaseArg p
    return st.handOutSingle do
      let (id, db) ← found
      let name ← name
      return (id, .records (db.derivedPlaces name))
  | .keys p length => do
    let found ← st.tableArg p
    return st.handOutArray length do
      let (id, _, t) ← found
      return (id, .keys t.names, t.size)
  | .recordText p => do
    let found ← st.recordArg p
    return st.handOutSingle do
      let (id, _, r) ← found
      return (id, .string (cText r.text))
  | .fieldText p => do return st.handOutSingle (textContent (← st.fieldValueArg p))
  | .fieldBits p length => do return st.handOutArray length (bitsContent (← st.fieldValueArg p))
  | .valueText p => do return st.handOutSingle (textContent (← st.valueArg p))
  | .valueBits p length => do return st.handOutArray length (bitsContent (← st.valueArg p))
  | .dagPair p index => do
    let found ← st.valueArg p
    return st.handOutSingle do
      let (id, v) ← found
      let arg ← (v.dagArgAt index).toOption
      return (id, .pair arg.name arg.value)

def takeBack (st : State) (number : Nat) (o : Owned) : State :=
  { st with
    owned := st.owned.set number { o with released := true }
    ledger := st.ledger.release o.content.shape }

/-- Gives back a result of a shape; its session may be gone. -/
def release (st : State) (shape : Shape) : Pointer → Except Refusal State
  | none => .ok st
  | some h =>
    if st.isReleased h then .error (.stale 0)
    else
      match st.ofShape shape h with
      | none => .error .otherKind
      | some (number, o) => .ok (st.takeBack number o)

/-! ## Calls -/

def call (tree : FileTree) (st : State) : Call → Except Refusal (Result × State)
  | .create source includes count => st.openSession source includes count
  | .parse p => do
    match (← st.sessionArg p).bind fun id => st.sessions[id]?.map (id, ·) with
    | none => return (.truth false, st)
    | some (id, s) =>
      let (success, s) := s.parse tree
      return (.truth success, st.setSession id s)
  | .free p => do
    match (← st.sessionArg p).bind fun id => st.sessions[id]?.map (id, ·) with
    | none => return (.done, st)
    | some (id, s) => return (.done, st.setSession id { s with freed := true })
  | .ask q => do return (← st.ask q, st)
  | .acquire a => st.acquire a
  | .release shape p => do return (.done, ← st.release shape p)

end State
end TypedRecords.Foreign
