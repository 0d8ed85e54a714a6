import TypedRecords.Proofs.Foreign.Outstanding

/-!
# What a history tells of a session

The calls since a session was created, those on other handles among them, determine the state that it is
in (`Creation.after`), and one more call moves it (`Creation.after_cons`). What its parses must have
answered is told by the history too (`Creation.Answered`), and these answers tell when the session was
opened and what its last error is.
-/

namespace TypedRecords.Foreign

namespace SessionState
variable {s : SessionState} {tree : FileTree}

theorem parse_again (h : s.attempted = true) :
    s.parse tree = (false, { s with lastError := some alreadyParsed }) := by
  rw [parse, if_pos h]

theorem parse_of_read {session : Session} (h : s.attempted = false)
    (hread : Session.read ⟨tree, s.includeDirs⟩ unnamedSource s.source = .ok session) :
    s.parse tree =
      (true, { s with opened := some session, lastError := none, attempted := true }) := by
  rw [parse, if_neg (Bool.eq_false_iff.1 h), hread]

theorem parse_of_unread {error : ParseError} (h : s.attempted = false)
    (hread : Session.read ⟨tree, s.includeDirs⟩ unnamedSource s.source = .error error) :
    s.parse tree =
      (false, { s with lastError := some (cMessage error.message), attempted := true }) := by
  rw [parse, if_neg (Bool.eq_false_iff.1 h), hread]

end SessionState

/-- A call that was answered, with the files it found. -/
structure Event where
  tree : FileTree
  call : Call
  result : Result

/-- What a session was created as. -/
structure Creation where
  id : Nat
  source : String
  includeDirs : List String

namespace Creation
variable (o : Creation)

def handle : Pointer := some (.session o.id)

def parses : Call → Bool
  | .parse p => p = o.handle
  | _ => false

def frees : Call → Bool
  | .free p => p = o.handle
  | _ => false

def read (tree : FileTree) : Except ParseError Session :=
  Session.read ⟨tree, o.includeDirs⟩ unnamedSource o.source

/-! ### Histories

The events since the creation, latest first. -/

/-- A parse of the session is among the events. -/
def parsed (events : List Event) : Bool := events.any fun e => o.parses e.call

/-- The message that a parse fails with when it is called after the events, if it fails. -/
def failure? (events : List Event) (tree : FileTree) : Option String :=
  if o.parsed events then some alreadyParsed
  else
    match o.read tree with
    | .ok _ => none
    | .error e => some (cMessage e.message)

/-- The message of the latest parse that failed. -/
def lastFailure? : List Event → Option String
  | [] => none
  | e :: events =>
    if o.parses e.call then (o.failure? events e.tree).or (lastFailure? events)
    else lastFailure? events

/-- What the first parse read. -/
def opened? : List Event → Option Session
  | [] => none
  | e :: events =>
    if o.parses e.call && !o.parsed events then (o.read e.tree).toOption else opened? events

/-- The session after the events. -/
def after (events : List Event) : SessionState where
  source := o.source
  includeDirs := o.includeDirs
  opened := o.opened? events
  lastError := o.lastFailure? events
  attempted := o.parsed events
  freed := events.any fun e => o.frees e.call

/-- What an answered call does to the session. -/
def move (e : Event) (s : SessionState) : SessionState :=
  if o.parses e.call then (s.parse e.tree).2
  else if o.frees e.call then { s with freed := true }
  else s

variable {o} {e : Event} {events earlier later : List Event}

theorem parses_iff {c : Call} : o.parses c = true ↔ c = .parse o.handle := by
  cases c <;> simp [parses]

theorem frees_iff {c : Call} : o.frees c = true ↔ c = .free o.handle := by
  cases c <;> simp [frees]

theorem parsed_eq_false : o.parsed events = false ↔ ∀ e ∈ events, e.call ≠ .parse o.handle := by
  simp [parsed, ← parses_iff]

theorem lastFailure?_of_not_parsed (h : o.parsed events = false) : o.lastFailure? events = none := by
  induction events with
  | nil => rfl
  | cons e events ih =>
    obtain ⟨he, hevents⟩ := Bool.or_eq_false_iff.1 h
    rw [lastFailure?, if_neg (by simp [he]), ih hevents]

theorem opened?_of_not_parsed (h : o.parsed events = false) : o.opened? events = none := by
  induction events with
  | nil => rfl
  | cons e events ih =>
    obtain ⟨he, hevents⟩ := Bool.or_eq_false_iff.1 h
    rw [opened?, if_neg (by simp [he]), ih hevents]

/-- Once a parse was called, what is open stays as it is. -/
theorem opened?_append (h : o.parsed events = true) : o.opened? (later ++ events) = o.opened? events := by
  induction later with
  | nil => rfl
  | cons e later ih =>
    have hparsed : o.parsed (later ++ events) = true := by
      rw [parsed, List.any_append, ← parsed, ← parsed, h, Bool.or_true]
    rw [List.cons_append, opened?, if_neg (by simp [hparsed]), ih]

theorem parsed_cons : o.parsed (e :: events) = (o.parses e.call || o.parsed events) := rfl

theorem move_parse {s : SessionState} (h : e.call = .parse o.handle) :
    o.move e s = (s.parse e.tree).2 := by
  rw [move, if_pos (parses_iff.2 h)]

theorem move_free {s : SessionState} (h : e.call = .free o.handle) :
    o.move e s = { s with freed := true } := by
  rw [move, h]
  exact if_pos (frees_iff.2 rfl)

theorem move_of_ne {s : SessionState} (hparse : e.call ≠ .parse o.handle)
    (hfree : e.call ≠ .free o.handle) : o.move e s = s := by
  rw [move, if_neg fun h => hparse (parses_iff.1 h), if_neg fun h => hfree (frees_iff.1 h)]

theorem parse_after {tree : FileTree} :
    ((o.after events).parse tree).1 = (o.failure? events tree).isNone := by
  cases hparsed : o.parsed events with
  | true =>
    have hagain : (o.after events).parse tree = _ := SessionState.parse_again hparsed
    simp [hagain, failure?, hparsed]
  | false =>
    cases hread : o.read tree with
    | ok session =>
      have hfirst : (o.after events).parse tree = _ := SessionState.parse_of_read hparsed hread
      simp [hfirst, failure?, hparsed, hread]
    | error error =>
      have hfirst : (o.after events).parse tree = _ := SessionState.parse_of_unread hparsed hread
      simp [hfirst, failure?, hparsed, hread]

/-- The history with one more event leaves the session where that event moves it. -/
theorem after_cons : o.after (e :: events) = o.move e (o.after events) := by
  by_cases hparse : e.call = .parse o.handle
  · have hparses := parses_iff.2 hparse
    have hfrees : o.frees e.call = false := by rw [hparse]; rfl
    rw [move_parse hparse]
    cases hparsed : o.parsed events with
    | true =>
      have hagain : (o.after events).parse e.tree = _ := SessionState.parse_again hparsed
      rw [hagain]
      simp [after, opened?, lastFailure?, failure?, parsed_cons, hparses, hfrees, hparsed]
    | false =>
      -- No failure is remembered and nothing is open, so what the parse leaves alone is none.
      have hlast := lastFailure?_of_not_parsed hparsed
      have hopened := opened?_of_not_parsed hparsed
      cases hread : o.read e.tree with
      | ok session =>
        have hfirst : (o.after events).parse e.tree = _ := SessionState.parse_of_read hparsed hread
        rw [hfirst]
        simp [after, opened?, lastFailure?, failure?, parsed_cons, hparses, hfrees, hparsed, hlast, hread,
          Except.toOption]
      | error error =>
        have hfirst : (o.after events).parse e.tree = _ := SessionState.parse_of_unread hparsed hread
        rw [hfirst]
        simp [after, opened?, lastFailure?, failure?, parsed_cons, hparses, hfrees, hparsed, hopened, hread,
          Except.toOption]
  · have hparses : o.parses e.call = false := Bool.eq_false_iff.2 fun h => hparse (parses_iff.1 h)
    by_cases hfree : e.call = .free o.handle
    · rw [move_free hfree]
      simp [after, opened?, lastFailure?, parsed_cons, hparses, frees_iff.2 hfree]
    · have hfrees : o.frees e.call = false := Bool.eq_false_iff.2 fun h => hfree (frees_iff.1 h)
      rw [move_of_ne hparse hfree]
      simp [after, opened?, lastFailure?, parsed_cons, hparses, hfrees]

theorem failure?_eq_none {tree : FileTree} : o.failure? events tree = none ↔
    (∀ e ∈ events, e.call ≠ .parse o.handle) ∧ ∃ session, o.read tree = .ok session := by
  rw [← parsed_eq_false, failure?]
  cases o.parsed events <;> cases o.read tree <;> simp

/-! ### What the answers tell -/

variable (o) in
/-- The parses among the events answer whether they succeed, as the events before them tell. -/
def Answered (events : List Event) : Prop :=
  ∀ later e earlier, events = later ++ e :: earlier → e.call = .parse o.handle →
    e.result = .truth (o.failure? earlier e.tree).isNone

namespace Answered

theorem tail (h : o.Answered (e :: events)) : o.Answered events :=
  fun later _ _ hevents => h (e :: later) _ _ (hevents ▸ rfl)

theorem head (h : o.Answered (e :: events)) (hcall : e.call = .parse o.handle) :
    e.result = .truth (o.failure? events e.tree).isNone :=
  h [] _ _ rfl hcall

theorem succeeded (h : o.Answered (later ++ e :: earlier)) (hcall : e.call = .parse o.handle)
    (hresult : e.result = .truth true) :
    (∀ p ∈ earlier, p.call ≠ .parse o.handle) ∧ ∃ session, o.read e.tree = .ok session := by
  rw [h _ _ _ rfl hcall, Result.truth.injEq, Option.isNone_iff_eq_none] at hresult
  exact failure?_eq_none.1 hresult

theorem failed (h : o.Answered (later ++ e :: earlier)) (hcall : e.call = .parse o.handle)
    (hresult : e.result = .truth false) : ∃ message, o.failure? earlier e.tree = some message := by
  rw [h _ _ _ rfl hcall, Result.truth.injEq, Option.isNone_eq_false_iff] at hresult
  exact Option.isSome_iff_exists.1 hresult

/-- After a parse, all parses fail. -/
theorem again (h : o.Answered (later ++ e :: earlier)) (hcall : e.call = .parse o.handle) :
    ∀ p ∈ later, p.call = .parse o.handle → p.result = .truth false := by
  intro p hp hpcall
  obtain ⟨l₁, l₂, rfl⟩ := List.append_of_mem hp
  have hfails : o.failure? (l₂ ++ e :: earlier) p.tree ≠ none := fun hnone =>
    (failure?_eq_none.1 hnone).1 e (by simp) hcall
  rw [h l₁ p (l₂ ++ e :: earlier) (by simp) hpcall,
    Option.isNone_eq_false_iff.2 (Option.isSome_iff_ne_none.2 hfails)]

theorem opened?_eq (h : o.Answered (later ++ e :: earlier)) (hcall : e.call = .parse o.handle)
    (hresult : e.result = .truth true) :
    ∃ session, o.read e.tree = .ok session ∧ o.opened? (later ++ e :: earlier) = some session := by
  obtain ⟨hfirst, session, hread⟩ := h.succeeded hcall hresult
  have hparses := parses_iff.2 hcall
  refine ⟨session, hread, ?_⟩
  rw [opened?_append (by rw [parsed_cons, hparses, Bool.true_or]), opened?,
    if_pos (by simp [hparses, parsed_eq_false.2 hfirst]), hread]
  rfl

theorem opened?_eq_none (h : o.Answered events)
    (hnone : ∀ e ∈ events, e.call = .parse o.handle → e.result ≠ .truth true) :
    o.opened? events = none := by
  induction events with
  | nil => rfl
  | cons e events ih =>
    obtain ⟨he, hevents⟩ := List.forall_mem_cons.1 hnone
    rw [opened?]
    split
    · rename_i hfirst
      obtain ⟨hparses, hparsed⟩ := Bool.and_eq_true_iff.1 hfirst
      have hcall := parses_iff.1 hparses
      have hresult := he hcall
      rw [h.head hcall, failure?, if_neg (by simpa using hparsed)] at hresult
      cases hread : o.read e.tree with
      | ok session => simp [hread] at hresult
      | error _ => rfl
    · exact ih h.tail hevents

theorem lastFailure?_of_not_failed (h : o.Answered (e :: events))
    (hnot : e.call = .parse o.handle → e.result ≠ .truth false) :
    o.lastFailure? (e :: events) = o.lastFailure? events := by
  rw [lastFailure?]
  split
  · rename_i hparses
    have hcall := parses_iff.1 hparses
    have hresult := hnot hcall
    rw [h.head hcall] at hresult
    cases hfailure : o.failure? events e.tree with
    | none => rfl
    | some message => simp [hfailure] at hresult
  · rfl

/-- By induction on the later events: none of them fails, so none takes the message away. -/
theorem lastFailure?_eq (h : o.Answered (later ++ e :: earlier)) (hcall : e.call = .parse o.handle)
    (hresult : e.result = .truth false)
    (hlatest : ∀ p ∈ later, p.call = .parse o.handle → p.result ≠ .truth false) :
    ∃ message, o.failure? earlier e.tree = some message ∧
      o.lastFailure? (later ++ e :: earlier) = some message := by
  obtain ⟨message, hmessage⟩ := h.failed hcall hresult
  refine ⟨message, hmessage, ?_⟩
  induction later with
  | nil =>
    rw [List.nil_append, lastFailure?, if_pos (parses_iff.2 hcall), hmessage]
    rfl
  | cons p later ih =>
    obtain ⟨hp, hlater⟩ := List.forall_mem_cons.1 hlatest
    exact (h.lastFailure?_of_not_failed hp).trans (ih h.tail hlater)

theorem lastFailure?_eq_none (h : o.Answered events)
    (hnone : ∀ e ∈ events, e.call = .parse o.handle → e.result ≠ .truth false) :
    o.lastFailure? events = none := by
  induction events with
  | nil => rfl
  | cons e events ih =>
    obtain ⟨he, hevents⟩ := List.forall_mem_cons.1 hnone
    exact (h.lastFailure?_of_not_failed he).trans (ih h.tail hevents)

end Answered

end Creation

end TypedRecords.Foreign
