import Mathlib.Data.List.Nodup
import TypedRecords.Foreign.Call
import TypedRecords.Proofs.Outcome

/-!
# Owned results that are outstanding

A caller sees the calls that were made and what they answered. `held` tells from these alone which
owned results have been handed out and not given back. After every call the ledger counts them, shape by
shape, and exactly they can be given back (`State.ledger_counts`).
-/

namespace TypedRecords.Foreign

deriving instance DecidableEq for Handle

def Acquire.shape : Acquire → Shape
  | derivedDefs .. => .records
  | keys .. => .keys
  | recordText _ | fieldText _ | valueText _ => .string
  | fieldBits .. | valueBits .. => .bits
  | dagPair .. => .pair

def Result.pointer : Result → Pointer
  | handle p | array p _ => p
  | _ => none

structure Made where
  call : Call
  result : Result

/-- The owned results that the caller has after one more call: what is handed out comes in, and what
is given back goes. -/
def Made.after (m : Made) (held : List (Handle × Shape)) : List (Handle × Shape) :=
  match m.call with
  | .acquire a => (m.result.pointer.map (·, a.shape)).toList ++ held
  | .release shape (some h) => held.erase (h, shape)
  | _ => held

/-- The owned results handed out so far and not yet given back; the calls are listed latest first. -/
def held (calls : List Made) : List (Handle × Shape) := calls.foldr Made.after []

namespace State

/-- The calls lead one after the other to the state, from that in which nothing has been made. They are
listed latest first, and each finds some files. -/
inductive Comes : List Made → State → Prop
  | start : Comes [] .empty
  | call {calls : List Made} {st st' : State} {tree : FileTree} {c : Call} {r : Result}
      (h : Comes calls st) (hc : st.call tree c = .ok (r, st')) : Comes (⟨c, r⟩ :: calls) st'

/-! ### What one call does -/

def Quiet : Call → Result → Prop
  | .ask _, _ => True
  | .create .., r | .acquire _, r => r.pointer = none
  | .parse p, _ | .free p, _ | .release _ p, _ => p = none

/-- A call moves the ledger in two ways only: it hands out a result, or takes one back. -/
inductive Effect (st : State) : Call → Result → State → Prop
  | handsOut {a : Acquire} {r : Result} {session : Nat} {content : Content}
      (hshape : content.shape = a.shape) (hr : r.pointer = some (.owned st.owned.length)) :
      Effect st (.acquire a) r (st.handOut session content).2
  | takesBack {shape : Shape} {number : Nat} {o : Owned} (ho : st.owned[number]? = some o)
      (hreleased : o.released = false) (hshape : o.content.shape = shape) :
      Effect st (.release shape (some (.owned number))) .done (st.takeBack number o)
  | ofSession {c : Call} {r : Result} {sessions : List SessionState} (hc : ¬ Quiet c r)
      (hacquire : ∀ a, c ≠ .acquire a) (hrelease : ∀ shape p, c ≠ .release shape p) :
      Effect st c r { st with sessions }
  | nothing {c : Call} {r : Result} (hc : Quiet c r) : Effect st c r st

namespace Effect
variable {st st' : State} {r : Result}

theorem handOutSingle {a : Acquire} {found : Option (Nat × Content)}
    (hshape : ∀ x ∈ found, x.2.shape = a.shape) :
    st.Effect (.acquire a) (st.handOutSingle found).1 (st.handOutSingle found).2 := by
  cases found with
  | none => exact .nothing rfl
  | some x => exact .handsOut (hshape x rfl) rfl

theorem handOutArray {a : Acquire} {length : Bool} {found : Option (Nat × Content × Nat)}
    (hshape : ∀ x ∈ found, x.2.1.shape = a.shape) :
    st.Effect (.acquire a) (st.handOutArray length found).1 (st.handOutArray length found).2 := by
  cases found with
  | none => exact .nothing rfl
  | some x => exact .handsOut (hshape x rfl) rfl

end Effect

theorem shape_textContent {found : Option (Nat × Value)} :
    ∀ x ∈ textContent found, x.2.shape = .string := by
  intro x hx
  obtain ⟨y, -, hx⟩ := Option.bind_eq_some_iff.1 hx
  obtain ⟨text, -, hx⟩ := Option.bind_eq_some_iff.1 hx
  exact Option.some.inj hx ▸ rfl

theorem shape_bitsContent {found : Option (Nat × Value)} :
    ∀ x ∈ bitsContent found, x.2.1.shape = .bits := by
  intro x hx
  obtain ⟨y, -, hx⟩ := Option.bind_eq_some_iff.1 hx
  obtain ⟨bits, -, hx⟩ := Option.bind_eq_some_iff.1 hx
  exact Option.some.inj hx ▸ rfl

variable {st st' : State} {r : Result}

theorem effect_of_acquire {a : Acquire} (h : st.acquire a = .ok (r, st')) :
    st.Effect (.acquire a) r st' := by
  have single : ∀ {found : Option (Nat × Content)}, st.handOutSingle found = (r, st') →
      (∀ x ∈ found, x.2.shape = a.shape) → st.Effect (.acquire a) r st' := fun heq hshape => by
    have heffect := @Effect.handOutSingle st _ _ hshape
    rwa [heq] at heffect
  have array : ∀ {length : Bool} {found : Option (Nat × Content × Nat)},
      st.handOutArray length found = (r, st') → (∀ x ∈ found, x.2.1.shape = a.shape) →
        st.Effect (.acquire a) r st' := fun {length} _ heq hshape => by
    have heffect := @Effect.handOutArray st _ length _ hshape
    rwa [heq] at heffect
  cases a with
  | derivedDefs p name =>
    obtain ⟨found, -, h⟩ := bind_eq_ok.1 h
    refine single (pure_eq_ok.1 h) fun x hx => ?_
    obtain ⟨y, -, hx⟩ := Option.bind_eq_some_iff.1 hx
    obtain ⟨z, -, hx⟩ := Option.bind_eq_some_iff.1 hx
    exact Option.some.inj hx ▸ rfl
  | keys p length =>
    obtain ⟨found, -, h⟩ := bind_eq_ok.1 h
    refine array (pure_eq_ok.1 h) fun x hx => ?_
    obtain ⟨y, -, hx⟩ := Option.bind_eq_some_iff.1 hx
    exact Option.some.inj hx ▸ rfl
  | recordText p =>
    obtain ⟨found, -, h⟩ := bind_eq_ok.1 h
    refine single (pure_eq_ok.1 h) fun x hx => ?_
    obtain ⟨y, -, hx⟩ := Option.bind_eq_some_iff.1 hx
    exact Option.some.inj hx ▸ rfl
  | fieldText p =>
    obtain ⟨found, -, h⟩ := bind_eq_ok.1 h
    exact single (pure_eq_ok.1 h) shape_textContent
  | fieldBits p length =>
    obtain ⟨found, -, h⟩ := bind_eq_ok.1 h
    exact array (pure_eq_ok.1 h) shape_bitsContent
  | valueText p =>
    obtain ⟨found, -, h⟩ := bind_eq_ok.1 h
    exact single (pure_eq_ok.1 h) shape_textContent
  | valueBits p length =>
    obtain ⟨found, -, h⟩ := bind_eq_ok.1 h
    exact array (pure_eq_ok.1 h) shape_bitsContent
  | dagPair p index =>
    obtain ⟨found, -, h⟩ := bind_eq_ok.1 h
    refine single (pure_eq_ok.1 h) fun x hx => ?_
    obtain ⟨y, -, hx⟩ := Option.bind_eq_some_iff.1 hx
    obtain ⟨z, -, hx⟩ := Option.bind_eq_some_iff.1 hx
    exact Option.some.inj hx ▸ rfl

theorem release_eq_ok {shape : Shape} {p : Pointer} :
    st.release shape p = .ok st' ↔ (p = none ∧ st' = st) ∨
      ∃ number o, p = some (.owned number) ∧ st.owned[number]? = some o ∧ o.released = false ∧
        o.content.shape = shape ∧ st' = st.takeBack number o := by
  constructor
  · intro h
    cases p with
    | none => exact .inl ⟨rfl, (Except.ok.inj h).symm⟩
    | some handle =>
      cases handle with
      | owned number =>
        simp only [release, isReleased, ofShape] at h
        cases ho : st.owned[number]? with
        | none => simp [ho] at h
        | some o =>
          cases hreleased : o.released with
          | true => simp [ho, hreleased] at h
          | false =>
            by_cases hshape : o.content.shape = shape
            · simp only [ho, hreleased, hshape, if_true, Bool.false_eq_true, if_false] at h
              exact .inr ⟨number, o, rfl, ho, hreleased, hshape, (Except.ok.inj h).symm⟩
            · simp [ho, hreleased, hshape] at h
      | _ => simp [release, isReleased, ofShape] at h
  · rintro (⟨rfl, rfl⟩ | ⟨number, o, rfl, ho, hreleased, hshape, rfl⟩)
    · rfl
    · simp [release, isReleased, ofShape, ho, hreleased, hshape]

theorem effect_of_call {tree : FileTree} {c : Call} (h : st.call tree c = .ok (r, st')) :
    st.Effect c r st' := by
  cases c with
  | create source includes count =>
    have heffect : ∀ dirs, openSession.make st source dirs = (r, st') →
        st.Effect (.create source includes count) r st' := by
      intro dirs heq
      unfold openSession.make at heq
      split at heq <;> cases heq
      · exact .ofSession nofun nofun nofun
      · exact .nothing rfl
    simp only [call, openSession] at h
    split at h
    · split at h
      · cases h
      · exact heffect _ (Except.ok.inj h)
    · exact heffect _ (Except.ok.inj h)
  | parse p =>
    obtain ⟨id, hid, hst⟩ := bind_eq_ok.1 h
    cases p with
    | none => cases hid; cases hst; exact .nothing rfl
    | some p => split at hst <;> cases hst <;> exact .ofSession nofun nofun nofun
  | free p =>
    obtain ⟨id, hid, hst⟩ := bind_eq_ok.1 h
    cases p with
    | none => cases hid; cases hst; exact .nothing rfl
    | some p => split at hst <;> cases hst <;> exact .ofSession nofun nofun nofun
  | ask q =>
    obtain ⟨answer, -, h⟩ := bind_eq_ok.1 h
    cases h
    exact .nothing trivial
  | acquire a => exact effect_of_acquire h
  | release shape p =>
    obtain ⟨back, hback, h⟩ := bind_eq_ok.1 h
    cases h
    obtain ⟨rfl, rfl⟩ | ⟨number, o, rfl, ho, hreleased, hshape, rfl⟩ := release_eq_ok.1 hback
    · exact .nothing rfl
    · exact .takesBack ho hreleased hshape

theorem call_release_eq_ok {tree : FileTree} {shape : Shape} {p : Pointer} :
    st.call tree (.release shape p) = .ok (r, st') ↔ r = .done ∧ st.release shape p = .ok st' := by
  refine ⟨fun h => ?_, fun ⟨hr, h⟩ => hr ▸ bind_of_ok h _⟩
  obtain ⟨back, hback, h⟩ := bind_eq_ok.1 h
  cases h
  exact ⟨rfl, hback⟩

/-! ### What any calls leave -/

/-- The held results are those that the state has as not given back, and the ledger counts them. -/
structure Accounted (held : List (Handle × Shape)) (st : State) : Prop where
  nodup : held.Nodup
  mem : ∀ h shape, (h, shape) ∈ held ↔ ∃ number o, h = .owned number ∧ st.owned[number]? = some o ∧
    o.released = false ∧ o.content.shape = shape
  count : ∀ shape, st.ledger.count shape = held.countP (·.2 = shape)

namespace Accounted
variable {held : List (Handle × Shape)}

theorem start : Accounted [] .empty := ⟨.nil, by simp [empty], fun _ => Ledger.count_empty _⟩

theorem handOut (h : Accounted held st) (session : Nat) (content : Content) :
    Accounted ((.owned st.owned.length, content.shape) :: held) (st.handOut session content).2 where
  nodup := by
    refine List.nodup_cons.2 ⟨fun hmem => ?_, h.nodup⟩
    obtain ⟨number, o, hnumber, ho, -⟩ := (h.mem _ _).1 hmem
    cases hnumber
    simp at ho
  mem handle shape := by
    have hold : ∀ {number : Nat} {o : Owned}, st.owned[number]? = some o →
        (st.handOut session content).2.owned[number]? = some o :=
      fun ho => List.getElem?_append_left (List.getElem?_eq_some_iff.1 ho).1 ▸ ho
    have hnew : (st.handOut session content).2.owned[st.owned.length]? =
        some ⟨session, content, false⟩ := List.getElem?_concat_length
    rw [List.mem_cons, h.mem]
    constructor
    · rintro (heq | ⟨number, o, rfl, ho, hrest⟩)
      · cases heq
        exact ⟨_, _, rfl, hnew, rfl, rfl⟩
      · exact ⟨number, o, rfl, hold ho, hrest⟩
    · rintro ⟨number, o, rfl, ho, hreleased, rfl⟩
      obtain hlt | rfl | hgt := Nat.lt_trichotomy number st.owned.length
      · exact .inr ⟨number, o, rfl, List.getElem?_append_left hlt ▸ ho, hreleased, rfl⟩
      · cases hnew.symm.trans ho
        exact .inl rfl
      · have hlen := (List.getElem?_eq_some_iff.1 ho).1
        simp only [State.handOut, List.length_append, List.length_singleton] at hlen
        omega
  count shape := by
    rw [State.handOut, Ledger.acquire, Ledger.count_move, h.count, List.countP_cons]
    by_cases hshape : content.shape = shape <;> simp [hshape]

theorem takeBack (h : Accounted held st) {number : Nat} {o : Owned}
    (ho : st.owned[number]? = some o) (hreleased : o.released = false) :
    Accounted (held.erase (.owned number, o.content.shape)) (st.takeBack number o) where
  nodup := h.nodup.erase _
  mem handle shape := by
    have hlt := (List.getElem?_eq_some_iff.1 ho).1
    rw [h.nodup.mem_erase_iff, h.mem]
    constructor
    · rintro ⟨hne, n, o', rfl, ho', hrest⟩
      refine ⟨n, o', rfl, ?_, hrest⟩
      have hn : number ≠ n := by
        rintro rfl
        cases ho.symm.trans ho'
        exact hne (by rw [hrest.2])
      exact (List.getElem?_set_ne hn).trans ho'
    · rintro ⟨n, o', rfl, ho', hrest⟩
      have hn : number ≠ n := by
        rintro rfl
        rw [State.takeBack, List.getElem?_set_self hlt] at ho'
        cases ho'
        exact Bool.noConfusion hrest.1
      exact ⟨fun heq => hn (by cases heq; rfl), n, o', rfl, (List.getElem?_set_ne hn).symm.trans ho',
        hrest⟩
  count shape := by
    have hmem : (Handle.owned number, o.content.shape) ∈ held :=
      (h.mem _ _).2 ⟨number, o, rfl, ho, hreleased, rfl⟩
    have hcons := (List.perm_cons_erase hmem).countP_eq (fun x => decide (x.2 = shape))
    rw [State.takeBack, Ledger.release, Ledger.count_move, h.count, hcons, List.countP_cons]
    by_cases hshape : o.content.shape = shape
    · simp only [hshape, decide_true, if_true]
      omega
    · simp [hshape]

theorem effect (h : Accounted held st) {c : Call} (hc : st.Effect c r st') :
    Accounted (Made.after ⟨c, r⟩ held) st' := by
  cases hc with
  | handsOut hshape hr =>
    simp only [Made.after, hr, ← hshape]
    exact h.handOut _ _
  | takesBack ho hreleased hshape => exact hshape ▸ h.takeBack ho hreleased
  | ofSession hc hacquire hrelease =>
    have hafter : Made.after ⟨c, r⟩ held = held := by
      cases c with
      | acquire a => exact absurd rfl (hacquire a)
      | release shape p => exact absurd rfl (hrelease shape p)
      | _ => rfl
    rw [hafter]
    exact ⟨h.nodup, h.mem, h.count⟩
  | nothing hc =>
    have hafter : Made.after ⟨c, r⟩ held = held := by
      cases c with
      | acquire a => simp [Made.after, show r.pointer = none from hc]
      | release shape p => cases (show p = none from hc); rfl
      | _ => rfl
    rwa [hafter]

end Accounted

theorem Comes.accounted {calls : List Made} (h : Comes calls st) : Accounted (held calls) st := by
  induction h with
  | start => exact .start
  | call _ hc ih => exact ih.effect (effect_of_call hc)

/-! ### Freeing a session -/

theorem sessionArg_eq_ok {p : Pointer} {found : Option Nat} :
    st.sessionArg p = .ok found ↔ (p = none ∧ found = none) ∨
      ∃ id, p = some (.session id) ∧ found = some id ∧ st.isFreed id = false := by
  constructor
  · intro h
    cases p with
    | none => exact .inl ⟨rfl, (Except.ok.inj h).symm⟩
    | some handle =>
      simp only [sessionArg, check] at h
      split at h
      · cases h
      · cases handle with
        | session id =>
          cases hfreed : st.isFreed id with
          | true => simp [sessionOf, hfreed] at h
          | false =>
            simp only [sessionOf, Option.any_some, hfreed] at h
            exact .inr ⟨id, rfl, (Except.ok.inj h).symm, hfreed⟩
        | _ => cases h
  · rintro (⟨rfl, rfl⟩ | ⟨id, rfl, rfl, hfreed⟩)
    · rfl
    · simp [sessionArg, check, isReleased, sessionOf, hfreed]

theorem free_eq_ok {tree : FileTree} {p : Pointer} :
    st.call tree (.free p) = .ok (r, st') ↔ r = .done ∧ ((p = none ∧ st' = st) ∨
      ∃ id s, p = some (.session id) ∧ st.sessions[id]? = some s ∧ s.freed = false ∧
        st' = st.setSession id { s with freed := true }) := by
  constructor
  · intro h
    obtain ⟨found, hfound, h⟩ := bind_eq_ok.1 h
    obtain ⟨rfl, rfl⟩ | ⟨id, rfl, rfl, hfreed⟩ := sessionArg_eq_ok.1 hfound
    · cases h
      exact ⟨rfl, .inl ⟨rfl, rfl⟩⟩
    · cases hs : st.sessions[id]? with
      | none => simp [isFreed, hs] at hfreed
      | some s =>
        simp only [Option.bind_some, hs, Option.map_some] at h
        simp only [isFreed, hs] at hfreed
        cases h
        exact ⟨rfl, .inr ⟨id, s, rfl, hs, hfreed, rfl⟩⟩
  · rintro ⟨rfl, ⟨rfl, rfl⟩ | ⟨id, s, rfl, hs, hfreed, rfl⟩⟩
    · rfl
    · have hfound : st.sessionArg (some (.session id)) = .ok (some id) :=
        sessionArg_eq_ok.2 (.inr ⟨id, rfl, rfl, by simp [isFreed, hs, hfreed]⟩)
      refine (bind_of_ok hfound _).trans ?_
      simp only [Option.bind_some, hs, Option.map_some]
      rfl

/-- Freeing a session and giving a result back lead to the same state in either order. -/
theorem free_release {tree : FileTree} {p q : Pointer} {shape : Shape} {freed back : State}
    {r₁ r₂ : Result} (hfree : st.call tree (.free p) = .ok (r₁, freed))
    (hback : st.call tree (.release shape q) = .ok (r₂, back)) :
    ∃ both, freed.call tree (.release shape q) = .ok (r₂, both) ∧
      back.call tree (.free p) = .ok (r₁, both) := by
  obtain ⟨rfl, hrelease⟩ := call_release_eq_ok.1 hback
  obtain ⟨rfl, ⟨rfl, rfl⟩ | ⟨id, s, rfl, hs, hfreed, rfl⟩⟩ := free_eq_ok.1 hfree
  · exact ⟨back, hback, rfl⟩
  · have hfreed' : ∀ st₁ : State, st₁.sessions = st.sessions →
        st₁.call tree (.free (some (.session id))) =
          .ok (.done, st₁.setSession id { s with freed := true }) := fun st₁ hsessions =>
      free_eq_ok.2 ⟨rfl, .inr ⟨id, s, rfl, hsessions ▸ hs, hfreed, rfl⟩⟩
    obtain ⟨rfl, rfl⟩ | ⟨number, o, rfl, ho, hreleased, hshape, rfl⟩ :=
        release_eq_ok.1 hrelease
    · exact ⟨_, rfl, hfreed' _ rfl⟩
    · exact ⟨_, call_release_eq_ok.2
        ⟨rfl, release_eq_ok.2 (.inr ⟨number, o, rfl, ho, hreleased, hshape, rfl⟩)⟩, hfreed' _ rfl⟩

/-! ### The ledger -/

structure Balanced (calls : List Made) (st : State) : Prop where
  nodup : (held calls).Nodup
  count : ∀ shape, st.ledger.count shape = (held calls).countP (·.2 = shape)
  nonneg : ∀ shape, 0 ≤ st.ledger.count shape
  total : st.ledger.total = (held calls).length
  /-- The total is zero just where everything was handed back. -/
  total_eq_zero : st.ledger.total = 0 ↔ held calls = []
  /-- A release is given null, or a result of its shape that is not yet released. -/
  releases : ∀ tree shape p, (∃ st', st.call tree (.release shape p) = .ok (.done, st')) ↔
    ∀ h ∈ p, (h, shape) ∈ held calls
  /-- A call that answers null or a borrowed handle changes nothing. -/
  quiet : ∀ tree c r st', st.call tree c = .ok (r, st') → Quiet c r →
    st' = st ∧ held (⟨c, r⟩ :: calls) = held calls
  /-- Freeing a session leaves the ledger, and what is outstanding. -/
  free : ∀ tree p r freed, st.call tree (.free p) = .ok (r, freed) →
    freed.ledger = st.ledger ∧ held (⟨.free p, r⟩ :: calls) = held calls
  /-- A result can be released before a session is freed or after it, to the same effect. -/
  exchange : ∀ tree p shape q r freed, st.call tree (.free p) = .ok (r, freed) →
    (∀ h ∈ q, (h, shape) ∈ held calls) → ∃ back both,
      st.call tree (.release shape q) = .ok (.done, back) ∧
      freed.call tree (.release shape q) = .ok (.done, both) ∧
      back.call tree (.free p) = .ok (r, both) ∧ both.ledger = back.ledger

theorem Accounted.total {held : List (Handle × Shape)} (h : Accounted held st) :
    st.ledger.total = held.length := by
  have hsum : ∀ xs : List (Handle × Shape), xs.length = xs.countP (·.2 = .string) +
      xs.countP (·.2 = .keys) + xs.countP (·.2 = .bits) + xs.countP (·.2 = .records) +
      xs.countP (·.2 = .pair) := by
    intro xs
    induction xs with
    | nil => rfl
    | cons x xs ih =>
      obtain ⟨handle, shape⟩ := x
      cases shape <;> simp [ih] <;> omega
  have hstring := h.count .string
  have hkeys := h.count .keys
  have hbits := h.count .bits
  have hrecords := h.count .records
  have hpair := h.count .pair
  simp only [Ledger.count] at hstring hkeys hbits hrecords hpair
  rw [Ledger.total, hstring, hkeys, hbits, hrecords, hpair, hsum]
  push_cast
  rfl

theorem Accounted.releases {held : List (Handle × Shape)} (h : Accounted held st) {tree : FileTree}
    {shape : Shape} {p : Pointer} : (∃ st', st.call tree (.release shape p) = .ok (.done, st')) ↔
      ∀ handle ∈ p, (handle, shape) ∈ held := by
  constructor
  · rintro ⟨st', hst⟩ handle rfl
    obtain ⟨hp, -⟩ | ⟨number, o, hp, ho, hreleased, hshape, -⟩ :=
      release_eq_ok.1 (call_release_eq_ok.1 hst).2
    · cases hp
    · cases hp
      exact (h.mem _ _).2 ⟨number, o, rfl, ho, hreleased, hshape⟩
  · intro hp
    cases p with
    | none => exact ⟨st, rfl⟩
    | some handle =>
      obtain ⟨number, o, rfl, ho, hreleased, hshape⟩ := (h.mem _ _).1 (hp handle rfl)
      exact ⟨_, call_release_eq_ok.2
        ⟨rfl, release_eq_ok.2 (.inr ⟨number, o, rfl, ho, hreleased, hshape, rfl⟩)⟩⟩

/-- After any calls, on any sessions, in which a release is given null or a result of its shape not yet
released, the ledger counts what is outstanding. -/
theorem ledger_counts {calls : List Made} (h : Comes calls st) : Balanced calls st where
  nodup := h.accounted.nodup
  count := h.accounted.count
  nonneg shape := by
    rw [h.accounted.count]
    exact Int.natCast_nonneg _
  total := h.accounted.total
  total_eq_zero := by
    rw [h.accounted.total, Int.natCast_eq_zero, List.length_eq_zero_iff]
  releases _ _ _ := h.accounted.releases
  quiet tree c r st' hc hquiet := by
    cases effect_of_call hc with
    | handsOut hshape hr => cases hr.symm.trans hquiet
    | takesBack => cases hquiet
    | ofSession hloud => exact absurd hquiet hloud
    | nothing =>
      refine ⟨rfl, ?_⟩
      cases c with
      | acquire a => simp [held, Made.after, show r.pointer = none from hquiet]
      | release shape p => cases (show p = none from hquiet); rfl
      | _ => rfl
  free tree p r freed hc := by
    obtain ⟨-, ⟨-, rfl⟩ | ⟨id, s, -, -, -, rfl⟩⟩ := free_eq_ok.1 hc <;> exact ⟨rfl, rfl⟩
  exchange tree p shape q r freed hfree hq := by
    obtain ⟨back, hback⟩ : ∃ back, st.call tree (.release shape q) = .ok (.done, back) :=
      h.accounted.releases.2 hq
    obtain ⟨both, hrelease, hboth⟩ := free_release hfree hback
    refine ⟨back, both, hback, hrelease, hboth, ?_⟩
    obtain ⟨-, ⟨-, rfl⟩ | ⟨id, s, -, -, -, rfl⟩⟩ := free_eq_ok.1 hboth <;> rfl

/-- The calls with what they answer, latest first, and the state they lead to; none where one of them is
refused. -/
def made? (tree : FileTree) : List Call → Option (List Made × State)
  | [] => some ([], .empty)
  | c :: cs => do
    let (calls, st) ← made? tree cs
    let (r, st) ← (st.call tree c).toOption
    return (⟨c, r⟩ :: calls, st)

theorem comes_of_made? {tree : FileTree} {cs : List Call} {calls : List Made}
    (h : made? tree cs = some (calls, st)) : Comes calls st := by
  induction cs generalizing calls st with
  | nil => cases h; exact .start
  | cons c cs ih =>
    obtain ⟨⟨before, st₁⟩, hbefore, h⟩ := Option.bind_eq_some_iff.1 h
    obtain ⟨⟨r, st₂⟩, hcall, h⟩ := Option.bind_eq_some_iff.1 h
    cases h
    exact (ih hbefore).call (ok_of_toOption hcall)

def sampleCalls : List Call :=
  [.release .bits none, .release .keys (some (.owned 0)), .free (some (.session 0)),
    .acquire (.fieldBits (some (.field 1 ⟨⟨.defs, 0⟩, 0⟩)) true),
    .acquire (.fieldText (some (.field 1 ⟨⟨.defs, 0⟩, 0⟩))),
    .acquire (.derivedDefs (some (.database 1)) (some "A")),
    .acquire (.keys (some (.table 0 .defs)) false), .parse (some (.session 1)),
    .create (some "class A \x7b bits<2> b = 2; \x7d def X : A;") none 0, .parse (some (.session 0)),
    .create (some "def Y;") (some []) 0]

theorem sampleCalls_counted : ∃ calls st, Comes calls st ∧
    held calls = [(.owned 2, .bits), (.owned 1, .records)] ∧ st.ledger = ⟨0, 0, 1, 1, 0⟩ ∧
    Balanced calls st := by
  have hmade : (made? (FileTree.emptyAt []) sampleCalls).map
      (fun (calls, st) => (held calls, st.ledger)) =
        some ([(.owned 2, .bits), (.owned 1, .records)], ⟨0, 0, 1, 1, 0⟩) := by
    decide +kernel
  obtain ⟨⟨calls, st⟩, hmade, heq⟩ := Option.map_eq_some_iff.1 hmade
  obtain ⟨hheld, hledger⟩ := Prod.mk.inj heq
  have hcomes := comes_of_made? hmade
  exact ⟨calls, st, hcomes, hheld, hledger, ledger_counts hcomes⟩

end State
end TypedRecords.Foreign
