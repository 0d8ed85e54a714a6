import TypedRecords.Proofs.Foreign.History

/-!
# A source is parsed once

Each answered call moves a session as its history says (`getElem?_of_call`), so any run of calls leaves it
where its history does (`Leads.getElem?`). Only the first parse can succeed, and what it opens stays open,
whatever is called later. The last error is that of the latest parse that failed (`State.parses_once`).
-/

namespace TypedRecords.Foreign

namespace State

/-- The events lead from one state to another. They are listed latest first. -/
inductive Leads (st : State) : List Event → State → Prop
  | start : Leads st [] st
  | call {events : List Event} {st₁ st₂ : State} {e : Event} (h : Leads st events st₁)
      (hc : st₁.call e.tree e.call = .ok (e.result, st₂)) : Leads st (e :: events) st₂

variable {st st₁ st₂ : State} {tree : FileTree} {c : Call} {r : Result} {o : Creation}
  {e : Event} {events earlier later : List Event} {s : SessionState}

/-! ### What one call does -/

theorem sessionArg_session_eq_ok {id : Nat} {found : Option Nat} :
    st.sessionArg (some (.session id)) = .ok found ↔
      ∃ s, st.sessions[id]? = some s ∧ s.freed = false ∧ found = some id := by
  have hfreed : st.isFreed id = false ↔ ∃ s, st.sessions[id]? = some s ∧ s.freed = false := by
    unfold isFreed
    cases st.sessions[id]? <;> simp
  constructor
  · intro h
    obtain ⟨⟨⟩, -⟩ | ⟨id, ⟨⟩, rfl, hid⟩ := sessionArg_eq_ok.1 h
    obtain ⟨s, hs, hs'⟩ := hfreed.1 hid
    exact ⟨s, hs, hs', rfl⟩
  · rintro ⟨s, hs, hs', rfl⟩
    exact sessionArg_eq_ok.2 (.inr ⟨id, rfl, rfl, hfreed.2 ⟨s, hs, hs'⟩⟩)

theorem bind_sessionArg_eq_ok {α : Type} {id : Nat} {f : Option Nat → Except Refusal α} {a : α} :
    st.sessionArg (some (.session id)) >>= f = .ok a ↔
      ∃ s, st.sessions[id]? = some s ∧ s.freed = false ∧ f (some id) = .ok a := by
  rw [bind_eq_ok]
  constructor
  · rintro ⟨found, hfound, ha⟩
    obtain ⟨s, hs, hfreed, rfl⟩ := sessionArg_session_eq_ok.1 hfound
    exact ⟨s, hs, hfreed, ha⟩
  · rintro ⟨s, hs, hfreed, ha⟩
    exact ⟨some id, sessionArg_session_eq_ok.2 ⟨s, hs, hfreed, rfl⟩, ha⟩

theorem call_parse_eq_ok {id : Nat} : st.call tree (.parse (some (.session id))) = .ok (r, st₂) ↔
    ∃ s, st.sessions[id]? = some s ∧ s.freed = false ∧ r = .truth (s.parse tree).1 ∧
      st₂ = st.setSession id (s.parse tree).2 := by
  refine bind_sessionArg_eq_ok.trans (exists_congr fun s => and_congr_right fun hs =>
    and_congr_right fun _ => ?_)
  simp only [Option.bind_some, hs, Option.map_some]
  rw [pure_eq_ok, Prod.mk.injEq, eq_comm, @eq_comm _ _ st₂]

theorem call_ask_eq_ok {q : Query} :
    st.call tree (.ask q) = .ok (r, st₂) ↔ st.ask q = .ok r ∧ st₂ = st := by
  constructor
  · intro h
    obtain ⟨answer, hanswer, h⟩ := bind_eq_ok.1 h
    cases h
    exact ⟨hanswer, rfl⟩
  · rintro ⟨h, rfl⟩
    exact bind_of_ok h _

theorem ask_database_eq_ok {id : Nat} : st.ask (.database (some (.session id))) = .ok r ↔
    ∃ s, st.sessions[id]? = some s ∧ s.freed = false ∧
      r = .handle (s.opened.map fun _ => .database id) := by
  refine bind_sessionArg_eq_ok.trans (exists_congr fun s => and_congr_right fun hs =>
    and_congr_right fun _ => ?_)
  rw [pure_eq_ok, Option.bind_some, db?, hs, Option.bind_some, Option.map_map, eq_comm]
  rfl

theorem ask_lastError_eq_ok {id : Nat} : st.ask (.lastError (some (.session id))) = .ok r ↔
    ∃ s, st.sessions[id]? = some s ∧ s.freed = false ∧ r = .text s.lastError := by
  refine bind_sessionArg_eq_ok.trans (exists_congr fun s => and_congr_right fun hs =>
    and_congr_right fun _ => ?_)
  rw [pure_eq_ok, Option.bind_some, hs, Option.bind_some, eq_comm]

theorem create_eq_ok {text : Text} {includes : Option (List Text)} {count : Nat}
    (h : st.call tree (.create text includes count) = .ok (r, st₂)) :
    (r = .handle none ∧ st₂ = st) ∨ ∃ o : Creation, r = .handle o.handle ∧ o.id = st.sessions.length ∧
      text = some o.source ∧ allTexts ((includes.getD []).take count) = some o.includeDirs ∧
      st₂.sessions = st.sessions ++ [o.after []] := by
  have hmake : ∀ dirs, openSession.make st text dirs = (r, st₂) →
      (r = .handle none ∧ st₂ = st) ∨
        ∃ o : Creation, r = .handle o.handle ∧ o.id = st.sessions.length ∧ text = some o.source ∧
          dirs = some o.includeDirs ∧ st₂.sessions = st.sessions ++ [o.after []] := by
    intro dirs h
    unfold openSession.make at h
    split at h <;> cases h
    · exact .inr ⟨⟨st.sessions.length, _, _⟩, rfl, rfl, rfl, rfl, rfl⟩
    · exact .inl ⟨rfl, rfl⟩
  simp only [call, openSession] at h
  split at h
  · split at h
    · cases h
    · exact hmake _ (Except.ok.inj h)
  · rw [Option.getD_none, List.take_nil]
    exact hmake _ (Except.ok.inj h)

theorem sessions_of_acquire {a : Acquire} (h : st.acquire a = .ok (r, st₂)) :
    st₂.sessions = st.sessions := by
  cases effect_of_acquire h with
  | handsOut | nothing => rfl
  | ofSession _ hacquire => exact absurd rfl (hacquire a)

theorem getElem?_setSession {id : Nat} {t : SessionState} (hs : st.sessions[o.id]? = some s) :
    (st.setSession id t).sessions[o.id]? = some (if id = o.id then t else s) := by
  split
  · rename_i hid
    exact hid ▸ List.getElem?_set_self (hid ▸ (List.getElem?_eq_some_iff.1 hs).1)
  · rename_i hid
    exact (List.getElem?_set_ne hid).trans hs

/-- By what one call does: only creating, parsing and freeing reach the sessions, and creating adds one
behind those that exist. -/
theorem getElem?_of_call (hs : st₁.sessions[o.id]? = some s)
    (hc : st₁.call e.tree e.call = .ok (e.result, st₂)) :
    st₂.sessions[o.id]? = some (o.move e s) := by
  cases hcall : e.call <;> rw [hcall] at hc
  case create text includes count =>
    rw [Creation.move_of_ne (by simp [hcall]) (by simp [hcall])]
    obtain ⟨-, rfl⟩ | ⟨o', -, -, -, -, hsessions⟩ := create_eq_ok hc
    · exact hs
    · rw [hsessions, List.getElem?_append_left (List.getElem?_eq_some_iff.1 hs).1, hs]
  case parse p =>
    obtain ⟨found, hfound, h⟩ := bind_eq_ok.1 hc
    obtain ⟨rfl, rfl⟩ | ⟨id, rfl, -, -⟩ := sessionArg_eq_ok.1 hfound
    · obtain ⟨-, rfl⟩ := Prod.mk.inj (Except.ok.inj h)
      rwa [Creation.move_of_ne (by simp [hcall, Creation.handle]) (by simp [hcall])]
    · obtain ⟨s', hs', -, -, rfl⟩ := call_parse_eq_ok.1 hc
      rw [getElem?_setSession hs]
      by_cases hid : id = o.id
      · subst hid
        cases hs.symm.trans hs'
        rw [Creation.move_parse hcall, if_pos rfl]
      · rw [Creation.move_of_ne (by simp [hcall, Creation.handle, hid]) (by simp [hcall]), if_neg hid]
  case free p =>
    obtain ⟨-, ⟨rfl, rfl⟩ | ⟨id, s', rfl, hs', -, rfl⟩⟩ := free_eq_ok.1 hc
    · rwa [Creation.move_of_ne (by simp [hcall]) (by simp [hcall, Creation.handle])]
    · rw [getElem?_setSession hs]
      by_cases hid : id = o.id
      · subst hid
        cases hs.symm.trans hs'
        rw [Creation.move_free hcall, if_pos rfl]
      · rw [Creation.move_of_ne (by simp [hcall]) (by simp [hcall, Creation.handle, hid]), if_neg hid]
  case ask q =>
    obtain ⟨-, rfl⟩ := call_ask_eq_ok.1 hc
    rwa [Creation.move_of_ne (by simp [hcall]) (by simp [hcall])]
  case acquire a =>
    rwa [Creation.move_of_ne (by simp [hcall]) (by simp [hcall]), sessions_of_acquire hc]
  case release shape p =>
    rw [Creation.move_of_ne (by simp [hcall]) (by simp [hcall])]
    obtain ⟨-, rfl⟩ | ⟨number, o', -, -, -, -, rfl⟩ :=
      release_eq_ok.1 (call_release_eq_ok.1 hc).2 <;> exact hs

/-! ### What a run of calls leaves -/

theorem Leads.split (h : Leads st (later ++ e :: earlier) st₂) : ∃ before afterwards,
    Leads st earlier before ∧ before.call e.tree e.call = .ok (e.result, afterwards) := by
  induction later generalizing st₂ with
  | nil =>
    cases h with
    | call h hc => exact ⟨_, _, h, hc⟩
  | cons p later ih =>
    cases h with
    | call h _ => exact ih h

theorem Leads.getElem? (hs : st.sessions[o.id]? = some (o.after [])) (h : Leads st events st₂) :
    st₂.sessions[o.id]? = some (o.after events) := by
  induction h with
  | start => exact hs
  | call _ hc ih => rw [Creation.after_cons, getElem?_of_call ih hc]

def Answers (st : State) (c : Call) (r : Result) : Prop :=
  ∀ tree r' st', st.call tree c = .ok (r', st') → r' = r

structure ParsedOnce (o : Creation) (events : List Event) (st : State) : Prop where
  /-- A parse succeeds just if it is the first one and the source can be read. -/
  answered : o.Answered events
  once : ∀ later e earlier, events = later ++ e :: earlier → e.call = .parse o.handle →
    e.result = .truth true → (∀ p ∈ earlier, p.call ≠ .parse o.handle) ∧
      ∀ p ∈ later, p.call = .parse o.handle → p.result = .truth false
  /-- The database is null as long as no parse has succeeded. -/
  closed : (∀ e ∈ events, e.call = .parse o.handle → e.result ≠ .truth true) →
    st.db? o.id = none ∧ st.Answers (.ask (.database o.handle)) (.handle none)
  /-- From the parse that succeeds on it is what that parse read, whatever is called later. -/
  opened : ∀ later e earlier, events = later ++ e :: earlier → e.call = .parse o.handle →
    e.result = .truth true → (∃ session, o.read e.tree = .ok session ∧ st.db? o.id = some session.db) ∧
      st.Answers (.ask (.database o.handle)) (.handle (some (.database o.id)))
  /-- After a first parse that fails it is null for ever. -/
  failed : ∀ later e earlier, events = later ++ e :: earlier → e.call = .parse o.handle →
    e.result = .truth false → (∀ p ∈ earlier, p.call ≠ .parse o.handle) →
      st.db? o.id = none ∧ st.Answers (.ask (.database o.handle)) (.handle none) ∧
        ∀ p ∈ later, p.call = .parse o.handle → p.result = .truth false
  /-- The last error is null as long as no parse has failed. -/
  silent : (∀ e ∈ events, e.call = .parse o.handle → e.result ≠ .truth false) →
    st.Answers (.ask (.lastError o.handle)) (.text none)
  /-- From a parse that fails on it is the message of that parse, up to the next that fails. -/
  lastError : ∀ later e earlier, events = later ++ e :: earlier → e.call = .parse o.handle →
    e.result = .truth false → (∀ p ∈ later, p.call = .parse o.handle → p.result ≠ .truth false) →
      ∃ message, o.failure? earlier e.tree = some message ∧
        st.Answers (.ask (.lastError o.handle)) (.text (some message))
  answers : (∀ e ∈ events, e.call ≠ .free o.handle) → ∀ tree c,
    c = .parse o.handle ∨ c = .ask (.database o.handle) ∨ c = .ask (.lastError o.handle) →
      ∃ r st', st.call tree c = .ok (r, st')

theorem db?_eq (hs : st.sessions[o.id]? = some s) : st.db? o.id = s.opened.map Session.db := by
  rw [db?, hs, Option.bind_some]

theorem answers_database (hs : st.sessions[o.id]? = some s) :
    st.Answers (.ask (.database o.handle)) (.handle (s.opened.map fun _ => .database o.id)) := by
  intro tree r st' hc
  obtain ⟨s', hs', -, rfl⟩ := ask_database_eq_ok.1 (call_ask_eq_ok.1 hc).1
  cases hs.symm.trans hs'
  rfl

theorem answers_lastError (hs : st.sessions[o.id]? = some s) :
    st.Answers (.ask (.lastError o.handle)) (.text s.lastError) := by
  intro tree r st' hc
  obtain ⟨s', hs', -, rfl⟩ := ask_lastError_eq_ok.1 (call_ask_eq_ok.1 hc).1
  cases hs.symm.trans hs'
  rfl

theorem Leads.answered (hs : st.sessions[o.id]? = some (o.after [])) (h : Leads st events st₂) :
    o.Answered events := by
  rintro later e earlier rfl hcall
  obtain ⟨before, afterwards, hbefore, hc⟩ := h.split
  rw [hcall] at hc
  obtain ⟨s, hs', -, hresult, -⟩ := call_parse_eq_ok.1 hc
  cases (hbefore.getElem? hs).symm.trans hs'
  rw [hresult, Creation.parse_after]

/-- By the state that the events leave the session in, and what their answers tell of it. -/
theorem parsedOnce_of_after (hs : st.sessions[o.id]? = some (o.after events))
    (h : o.Answered events) : ParsedOnce o events st := by
  have hdb : st.db? o.id = (o.opened? events).map Session.db := db?_eq hs
  have hdatabase : st.Answers _ (.handle ((o.opened? events).map _)) := answers_database hs
  have hlast : st.Answers _ (.text (o.lastFailure? events)) := answers_lastError hs
  have hclosed (hnone : ∀ e ∈ events, e.call = .parse o.handle → e.result ≠ .truth true) :
      st.db? o.id = none ∧ st.Answers (.ask (.database o.handle)) (.handle none) := by
    rw [h.opened?_eq_none hnone] at hdb hdatabase
    exact ⟨hdb, hdatabase⟩
  refine ⟨h, ?once, hclosed, ?opened, ?failed, ?silent, ?lastError, ?answers⟩
  case once =>
    rintro later e earlier rfl hcall hresult
    exact ⟨(h.succeeded hcall hresult).1, h.again hcall⟩
  case opened =>
    rintro later e earlier rfl hcall hresult
    obtain ⟨session, hread, hopened⟩ := h.opened?_eq hcall hresult
    rw [hopened] at hdb hdatabase
    exact ⟨⟨session, hread, hdb⟩, hdatabase⟩
  case failed =>
    rintro later e earlier rfl hcall hresult hfirst
    have hnone : ∀ p ∈ later ++ e :: earlier, p.call = .parse o.handle → p.result ≠ .truth true := by
      intro p hp hpcall
      rcases List.mem_append.1 hp with hp | hp
      · simp [h.again hcall p hp hpcall]
      · rcases List.mem_cons.1 hp with rfl | hp
        · simp [hresult]
        · exact absurd hpcall (hfirst p hp)
    exact ⟨(hclosed hnone).1, (hclosed hnone).2, h.again hcall⟩
  case silent =>
    intro hnone
    rwa [h.lastFailure?_eq_none hnone] at hlast
  case lastError =>
    rintro later e earlier rfl hcall hresult hlatest
    obtain ⟨message, hmessage, hlatest⟩ := h.lastFailure?_eq hcall hresult hlatest
    rw [hlatest] at hlast
    exact ⟨message, hmessage, hlast⟩
  case answers =>
    intro hfree tree c hc
    have hfreed : (o.after events).freed = false := by
      simpa [Creation.after, ← Creation.frees_iff] using hfree
    rcases hc with rfl | rfl | rfl
    · exact ⟨_, _, call_parse_eq_ok.2 ⟨_, hs, hfreed, rfl, rfl⟩⟩
    · exact ⟨_, st, call_ask_eq_ok.2 ⟨ask_database_eq_ok.2 ⟨_, hs, hfreed, rfl⟩, rfl⟩⟩
    · exact ⟨_, st, call_ask_eq_ok.2 ⟨ask_lastError_eq_ok.2 ⟨_, hs, hfreed, rfl⟩, rfl⟩⟩

/-- After any calls on any handles, a session that was created has parsed its source once at most. -/
theorem parses_once {text : Text} {includes : Option (List Text)} {count : Nat} {h : Handle}
    (hcreate : st.call tree (.create text includes count) = .ok (.handle (some h), st₁))
    (hevents : Leads st₁ events st₂) : ∃ o : Creation, h = .session o.id ∧ text = some o.source ∧
      allTexts ((includes.getD []).take count) = some o.includeDirs ∧ ParsedOnce o events st₂ := by
  obtain ⟨⟨⟩, -⟩ | ⟨o, hhandle, hid, htext, hdirs, hsessions⟩ := create_eq_ok hcreate
  have hs : st₁.sessions[o.id]? = some (o.after []) := by
    rw [hsessions, hid, List.getElem?_concat_length]
  cases hhandle
  exact ⟨o, rfl, htext, hdirs, parsedOnce_of_after (hevents.getElem? hs) (hevents.answered hs)⟩

deriving instance DecidableEq for Result

/-- The calls with what they answer, latest first, and the state that they lead to; none where one of
them is refused. -/
def events? (tree : FileTree) (st : State) : List Call → Option (List Event × State)
  | [] => some ([], st)
  | c :: cs => do
    let (events, before) ← events? tree st cs
    let (r, afterwards) ← (before.call tree c).toOption
    return (⟨tree, c, r⟩ :: events, afterwards)

theorem leads_of_events? {cs : List Call} (h : events? tree st cs = some (events, st₂)) :
    Leads st events st₂ := by
  induction cs generalizing events st₂ with
  | nil => cases h; exact .start
  | cons c cs ih =>
    obtain ⟨⟨earlier, before⟩, hearlier, h⟩ := Option.bind_eq_some_iff.1 h
    obtain ⟨⟨r, afterwards⟩, hcall, h⟩ := Option.bind_eq_some_iff.1 h
    cases h
    exact (ih hearlier).call (ok_of_toOption hcall)

/-- A session is parsed twice, and asked for its database and its error before, in between and
afterwards. Another one is created meanwhile. -/
def rereading : List Call :=
  let asked : List Call := [.ask (.lastError (some (.session 0))), .ask (.database (some (.session 0)))]
  asked ++ .parse (some (.session 0)) :: .create (some "def B;") none 0 ::
    asked ++ .parse (some (.session 0)) :: asked

theorem rereading_parses_once :
    (∃ events st, ParsedOnce ⟨0, "def A;", []⟩ events st ∧ events.map Event.result =
      [.text (some alreadyParsed), .handle (some (.database 0)), .truth false,
        .handle (some (.session 1)), .text none, .handle (some (.database 0)), .truth true,
        .text none, .handle none]) ∧
    ∃ events st, ParsedOnce ⟨0, "def X : Missing;", []⟩ events st ∧ events.map Event.result =
      [.text (some alreadyParsed), .handle none, .truth false, .handle (some (.session 1)),
        .text (some "Parse error at <source>:1:9: Couldn't find class 'Missing'"), .handle none,
        .truth false, .text none, .handle none] := by
  have hcreate (source : String) : State.empty.call (FileTree.emptyAt []) (.create (some source) none 0) =
      .ok (.handle (some (.session 0)), ⟨[⟨source, [], none, none, false, false⟩], [], .empty⟩) := rfl
  have hrun {source : String} {results : List Result}
      (h : (events? (FileTree.emptyAt []) ⟨[⟨source, [], none, none, false, false⟩], [], .empty⟩
        rereading).map (fun (events, _) => events.map Event.result) = some results) :
      ∃ events st, ParsedOnce ⟨0, source, []⟩ events st ∧ events.map Event.result = results := by
    obtain ⟨⟨events, st⟩, hevents, hresults⟩ := Option.map_eq_some_iff.1 h
    obtain ⟨⟨id, text, dirs⟩, hid, htext, hdirs, honce⟩ :=
      parses_once (hcreate source) (leads_of_events? hevents)
    cases hid
    cases htext
    cases hdirs
    exact ⟨events, st, honce, hresults⟩
  exact ⟨hrun (by decide +kernel), hrun (by decide +kernel)⟩

end State
end TypedRecords.Foreign
