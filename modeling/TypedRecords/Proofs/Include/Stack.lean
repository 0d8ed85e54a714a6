import Mathlib.Data.List.Dedup
import Mathlib.Data.List.Perm.Subperm
import Mathlib.Logic.Relation
import TypedRecords.Proofs.Outcome
import TypedRecords.Run

/-!
# The stack of files being included

A run taken step by step: each text and each scope that is open has statements left to run, and an
include opens another text. The files among what is open are the include stack. No file is on it
twice, so it is never longer than the number of files, and the steps come to an end, with the answer
of the run (`SearchPath.run_ends`).
-/

namespace TypedRecords

/-- A text or a scope that is open: the file that it is, where it is an included one, the lets that
enclose its statements, and those left to run. -/
structure Frame where
  file : Option TreePath
  lets : List Override
  rest : List Statement

/-- A moment of a run: what the declarations so far have left, and what is open, innermost first. -/
structure Moment where
  progress : Progress
  frames : List Frame

namespace Moment

def start (statements : List Statement) : Moment := ⟨.start, [⟨none, [], statements⟩]⟩

/-- The files being included, innermost first. -/
def stack (m : Moment) : List TreePath := m.frames.filterMap Frame.file

/-- The moment after one step; none at the end of the run. -/
def next (s : SearchPath) (m : Moment) : Except ParseError (Option Moment) :=
  match m.frames with
  | [] => .ok none
  | ⟨_, _, []⟩ :: frames => .ok (some ⟨m.progress, frames⟩)
  | ⟨file, lets, .includeFile i :: rest⟩ :: frames => do
    let entered ← s.fetch m.stack i
    return some ⟨m.progress,
      ⟨some entered.place, lets, entered.statements⟩ :: ⟨file, lets, rest⟩ :: frames⟩
  | ⟨file, lets, .classDecl c :: rest⟩ :: frames => do
    let p ← m.progress.addClass lets c
    return some ⟨p, ⟨file, lets, rest⟩ :: frames⟩
  | ⟨file, lets, .defDecl d :: rest⟩ :: frames => do
    let p ← m.progress.addDef lets d
    return some ⟨p, ⟨file, lets, rest⟩ :: frames⟩
  | ⟨file, lets, .scope bindings body :: rest⟩ :: frames => do
    let inner ← bindings.mapM (·.toOverride m.progress.declared)
    return some ⟨m.progress, ⟨none, lets ++ inner, body⟩ :: ⟨file, lets, rest⟩ :: frames⟩

/-- The statement that the next step runs. -/
def statement? (m : Moment) : Option Statement := m.frames.head?.bind (·.rest.head?)

def Step (s : SearchPath) (m m' : Moment) : Prop := m.next s = .ok (some m')

/-- Finitely many steps lead from a moment to the end of the run, with its answer. -/
inductive Ends (s : SearchPath) : Moment → Except ParseError Progress → Prop
  | done {m : Moment} (h : m.next s = .ok none) : Ends s m (.ok m.progress)
  | failed {m : Moment} {e : ParseError} (h : m.next s = .error e) : Ends s m (.error e)
  | step {m m' : Moment} {x : Except ParseError Progress} (h : m.Step s m') (h' : Ends s m' x) :
      Ends s m x

theorem Ends.not_endless {s : SearchPath} {m : Moment} {x : Except ParseError Progress}
    (h : m.Ends s x) : ¬∃ f : Nat → Moment, f 0 = m ∧ ∀ n, (f n).Step s (f (n + 1)) := by
  induction h with
  | done h =>
    rintro ⟨f, rfl, hf⟩
    cases h.symm.trans (hf 0)
  | failed h =>
    rintro ⟨f, rfl, hf⟩
    cases h.symm.trans (hf 0)
  | step h _ ih =>
    rintro ⟨f, rfl, hf⟩
    have hfirst : f 1 = _ := Option.some.inj (Except.ok.inj ((hf 0).symm.trans h))
    exact ih ⟨fun n => f (n + 1), hfirst, fun n => hf (n + 1)⟩

/-- The steps of a run come to a last moment, which ends it or fails. -/
theorem Ends.exists_last {s : SearchPath} {m : Moment} {x : Except ParseError Progress}
    (h : m.Ends s x) : ∃ m', Relation.ReflTransGen (Step s) m m' ∧
      ((m'.next s = .ok none ∧ x = .ok m'.progress) ∨ ∃ e, m'.next s = .error e ∧ x = .error e) := by
  induction h with
  | @done m h => exact ⟨m, .refl, .inl ⟨h, rfl⟩⟩
  | @failed m e h => exact ⟨m, .refl, .inr ⟨e, h, rfl⟩⟩
  | step h _ ih =>
    obtain ⟨m', hm', hlast⟩ := ih
    exact ⟨m', .head h hm', hlast⟩

end Moment

namespace SearchPath
variable {s : SearchPath}

/-- The canonical places of all files. -/
def places (s : SearchPath) : List TreePath := s.tree.files.map Prod.fst

/-- The include leads to the file at `place`, which is found as `path`. -/
def Leads (s : SearchPath) (i : IncludeSyntax) (path : String) (place : TreePath) : Prop :=
  ∃ name, stringText i.file i.filePlace = .ok name ∧ s.locate name = some (path, place)

end SearchPath

theorem FileTree.mem_of_walk {t : FileTree} {dir place : TreePath} {components : List String}
    (h : t.walk dir components = some place) : place ∈ t.files.map Prod.fst := by
  induction components generalizing dir with
  | nil => cases h
  | cons c cs ih =>
    rw [walk] at h
    split at h
    · exact ih h
    · split at h
      · exact ih h
      · split at h
        · rename_i hfile
          obtain ⟨-, hfile⟩ := Bool.and_eq_true_iff.1 hfile
          obtain ⟨file, hmem, hplace⟩ := List.any_eq_true.1 hfile
          exact Option.some.inj h ▸ of_decide_eq_true hplace ▸ List.mem_map_of_mem hmem
        · split at h
          · exact ih h
          · cases h

namespace SearchPath
variable {s : SearchPath}

theorem mem_places_of_locate {name path : String} {place : TreePath}
    (h : s.locate name = some (path, place)) : place ∈ s.places := by
  obtain ⟨candidate, -, hcandidate⟩ := List.exists_of_findSome?_eq_some h
  obtain ⟨found, hfound, hpair⟩ := Option.map_eq_some_iff.1 hcandidate
  obtain ⟨-, rfl⟩ := Prod.mk.inj hpair
  exact FileTree.mem_of_walk hfound

/-- Fetching a file: it is not on the stack, and what is entered are the statements of its text. -/
theorem fetch_eq_ok {stack : List TreePath} {i : IncludeSyntax} {file : Included} :
    s.fetch stack i = .ok file ↔ s.Leads i file.path file.place ∧ file.place ∉ stack ∧
      s.readAt file.path file.place i.place = .ok file.statements := by
  unfold fetch
  rw [bind_eq_ok]
  constructor
  · rintro ⟨name, hname, h⟩
    cases hlocate : s.locate name with
    | none =>
      rw [hlocate] at h
      cases h
    | some found =>
      obtain ⟨path, place⟩ := found
      rw [hlocate] at h
      obtain ⟨hstack, h⟩ := throwIf_bind_eq_ok.1 h
      obtain ⟨statements, hread, h⟩ := bind_eq_ok.1 h
      obtain rfl := pure_eq_ok.1 h
      exact ⟨⟨name, hname, hlocate⟩, fun hmem => hstack (List.contains_iff_mem.2 hmem), hread⟩
  · rintro ⟨⟨name, hname, hlocate⟩, hstack, hread⟩
    refine ⟨name, hname, ?_⟩
    rw [hlocate]
    refine throwIf_bind_eq_ok.2 ⟨fun h => hstack (List.contains_iff_mem.1 h), ?_⟩
    exact bind_eq_ok.2 ⟨_, hread, rfl⟩

/-- A file on the stack is not entered again, whatever path leads to it. -/
theorem fetch_of_mem {stack : List TreePath} {i : IncludeSyntax} {path : String} {place : TreePath}
    (h : s.Leads i path place) (hstack : place ∈ stack) :
    s.fetch stack i = .error ⟨.includeCycle path, i.place⟩ := by
  obtain ⟨name, hname, hlocate⟩ := h
  unfold fetch
  rw [bind_of_ok hname, hlocate]
  simp only [List.contains_iff_mem.2 hstack, if_true]
  rfl

/-- A stack that a run can have: files, none of them twice. -/
structure Stacked (s : SearchPath) (stack : List TreePath) : Prop where
  nodup : stack.Nodup
  files : stack ⊆ s.places

namespace Stacked
variable {stack : List TreePath}

theorem nil (s : SearchPath) : s.Stacked [] := ⟨.nil, List.nil_subset _⟩

theorem length_le (h : s.Stacked stack) : stack.length ≤ s.places.dedup.length :=
  (List.subperm_of_subset h.nodup fun _ hp => List.mem_dedup.2 (h.files hp)).length_le

theorem fetch (h : s.Stacked stack) {i : IncludeSyntax} {file : Included}
    (hfile : s.fetch stack i = .ok file) : s.Stacked (file.place :: stack) := by
  obtain ⟨⟨name, -, hlocate⟩, hstack, -⟩ := fetch_eq_ok.1 hfile
  exact ⟨h.nodup.cons hstack, List.cons_subset.2 ⟨mem_places_of_locate hlocate, h.files⟩⟩

end Stacked
end SearchPath

/-! ### Every moment of a run -/

namespace Moment
variable {s : SearchPath} {m m' : Moment}

theorem Step.stacked (h : m.Step s m') (hm : s.Stacked m.stack) : s.Stacked m'.stack := by
  obtain ⟨p, frames⟩ := m
  unfold Step next at h
  rcases frames with _ | ⟨⟨file, lets, _ | ⟨statement, rest⟩⟩, frames⟩
  · cases h
  · obtain rfl := Option.some.inj (Except.ok.inj h)
    have hsuffix : (frames.filterMap Frame.file).Sublist (stack ⟨p, ⟨file, lets, []⟩ :: frames⟩) :=
      (List.sublist_cons_self _ frames).filterMap _
    exact ⟨hm.nodup.sublist hsuffix, List.Subset.trans hsuffix.subset hm.files⟩
  · cases statement with
    | includeFile i =>
      obtain ⟨entered, hentered, h⟩ := bind_eq_ok.1 h
      obtain rfl := Option.some.inj (pure_eq_ok.1 h)
      exact hm.fetch hentered
    | classDecl c =>
      obtain ⟨p', -, h⟩ := bind_eq_ok.1 h
      obtain rfl := Option.some.inj (pure_eq_ok.1 h)
      exact hm
    | defDecl d =>
      obtain ⟨p', -, h⟩ := bind_eq_ok.1 h
      obtain rfl := Option.some.inj (pure_eq_ok.1 h)
      exact hm
    | scope bindings body =>
      obtain ⟨inner, -, h⟩ := bind_eq_ok.1 h
      obtain rfl := Option.some.inj (pure_eq_ok.1 h)
      exact hm

theorem stacked_of_reaches {statements : List Statement}
    (h : Relation.ReflTransGen (Step s) (.start statements) m) : s.Stacked m.stack := by
  induction h with
  | refl => exact .nil s
  | tail _ hstep ih => exact hstep.stacked ih

theorem next_of_mem {i : IncludeSyntax} {path : String} {place : TreePath}
    (hi : m.statement? = some (.includeFile i)) (h : s.Leads i path place)
    (hstack : place ∈ m.stack) : m.next s = .error ⟨.includeCycle path, i.place⟩ := by
  obtain ⟨p, frames⟩ := m
  rcases frames with _ | ⟨⟨file, lets, _ | ⟨statement, rest⟩⟩, frames⟩
  · cases hi
  · cases hi
  · obtain rfl : statement = .includeFile i := Option.some.inj hi
    exact bind_of_error (SearchPath.fetch_of_mem h hstack) _

/-! ### The steps of a run come to its answer -/

/-- From an intermediate outcome of a run: if it is a result, the steps from the moment that has it
end with `x`; if it is a failure, that is `x`. -/
def Continues (s : SearchPath) (after : Progress → Moment) (x : Except ParseError Progress) :
    Except ParseError Progress → Prop
  | .ok p => (after p).Ends s x
  | .error e => x = .error e

theorem Continues.mono {y : Except ParseError Progress} {after after' : Progress → Moment}
    {x : Except ParseError Progress} (h : Continues s after x y)
    (hafter : ∀ p, (after p).Ends s x → (after' p).Ends s x) : Continues s after' x y := by
  cases y with
  | ok p => exact hafter p h
  | error e => exact h

theorem Continues.of_bind {y : Except ParseError Progress} {g : Progress → Except ParseError Progress}
    {after after' : Progress → Moment} {x : Except ParseError Progress}
    (h : Continues s after x (y >>= g))
    (hafter : ∀ p, Continues s after x (g p) → (after' p).Ends s x) : Continues s after' x y := by
  cases y with
  | ok p => exact hafter p h
  | error e => exact h

theorem Ends.of_next {α : Type} {y : Except ParseError α} {f : α → Moment}
    {x : Except ParseError Progress} (hnext : m.next s = y >>= fun a => pure (some (f a)))
    (herror : ∀ e, y = .error e → x = .error e) (hok : ∀ a, y = .ok a → (f a).Ends s x) :
    m.Ends s x := by
  cases y with
  | ok a => exact .step hnext (hok a rfl)
  | error e => exact herror e rfl ▸ .failed hnext

/-- The steps do what `enter` does with an include that is met under the stack. -/
def Follows (s : SearchPath) (enter : Progress.Entering) (stack : List TreePath) : Prop :=
  ∀ (p : Progress) (file : Option TreePath) (lets : List Override) (i : IncludeSyntax)
    (rest : List Statement) (frames : List Frame) (x : Except ParseError Progress),
    file.toList ++ frames.filterMap Frame.file = stack →
    Continues s (fun p => ⟨p, ⟨file, lets, rest⟩ :: frames⟩) x (enter p lets i) →
      Ends s ⟨p, ⟨file, lets, .includeFile i :: rest⟩ :: frames⟩ x

theorem stack_cons (p : Progress) (file : Option TreePath) (lets : List Override)
    (rest : List Statement) (frames : List Frame) :
    stack ⟨p, ⟨file, lets, rest⟩ :: frames⟩ = file.toList ++ frames.filterMap Frame.file := by
  cases file <;> rfl

variable {enter : Progress.Entering} {stack : List TreePath}

mutual

theorem ends_of_run (henter : Follows s enter stack) (p : Progress) (file : Option TreePath)
    (lets : List Override) (rest : List Statement) {frames : List Frame}
    {x : Except ParseError Progress} (hstack : file.toList ++ frames.filterMap Frame.file = stack) :
    ∀ st : Statement, Continues s (fun p => ⟨p, ⟨file, lets, rest⟩ :: frames⟩) x (p.run enter lets st) →
      Ends s ⟨p, ⟨file, lets, st :: rest⟩ :: frames⟩ x
  | .includeFile i, h => henter p file lets i rest frames x hstack h
  | .classDecl c, h => by
    rw [Progress.run] at h
    refine Ends.of_next (y := p.addClass lets c) rfl (fun e he => ?_) fun p' hp => ?_
    · rw [he] at h
      exact h
    · rw [hp] at h
      exact h
  | .defDecl d, h => by
    rw [Progress.run] at h
    refine Ends.of_next (y := p.addDef lets d) rfl (fun e he => ?_) fun p' hp => ?_
    · rw [he] at h
      exact h
    · rw [hp] at h
      exact h
  | .scope bindings body, h => by
    rw [Progress.run] at h
    refine Ends.of_next (y := bindings.mapM (·.toOverride p.declared)) rfl (fun e he => ?_)
      fun inner hinner => ?_
    · rw [bind_of_error he] at h
      exact h
    · rw [bind_of_ok hinner] at h
      have hinside : none.toList ++ (⟨file, lets, rest⟩ :: frames).filterMap Frame.file = stack :=
        (stack_cons p file lets rest frames).trans hstack
      exact ends_of_runAll henter p none (lets ++ inner) hinside body
        (h.mono fun p' hp => .step rfl hp)

theorem ends_of_runAll (henter : Follows s enter stack) (p : Progress) (file : Option TreePath)
    (lets : List Override) {frames : List Frame} {x : Except ParseError Progress}
    (hstack : file.toList ++ frames.filterMap Frame.file = stack) :
    ∀ ss : List Statement, Continues s (fun p => ⟨p, ⟨file, lets, []⟩ :: frames⟩) x
        (p.runAll enter lets ss) → Ends s ⟨p, ⟨file, lets, ss⟩ :: frames⟩ x
  | [], h => h
  | st :: ss, h => by
    rw [Progress.runAll] at h
    exact ends_of_run henter p file lets ss hstack st
      (h.of_bind fun p' => ends_of_runAll henter p' file lets hstack ss)

end

theorem next_includeFile (p : Progress) {file : Option TreePath} (lets : List Override)
    (i : IncludeSyntax) (rest : List Statement) {frames : List Frame}
    (hstack : file.toList ++ frames.filterMap Frame.file = stack) :
    next s ⟨p, ⟨file, lets, .includeFile i :: rest⟩ :: frames⟩ =
      s.fetch stack i >>= fun entered => pure (some ⟨p,
        ⟨some entered.place, lets, entered.statements⟩ :: ⟨file, lets, rest⟩ :: frames⟩) := by
  rw [← hstack, ← stack_cons p file lets (.includeFile i :: rest) frames]
  rfl

/-- What the run does with an include is done in steps. The levels left for it suffice: where none
is left all files are on the stack. -/
theorem follows_enter (s : SearchPath) {level : Nat} (hstacked : s.Stacked stack)
    (hlevel : s.places.dedup.length ≤ level + stack.length) :
    Follows s (s.enter level stack) stack := by
  induction level generalizing stack with
  | zero =>
    intro p file lets i rest frames x hstack h
    refine Ends.of_next (next_includeFile p lets i rest hstack) (fun e he => ?_)
      fun entered hentered => ?_
    · rw [SearchPath.enter, bind_of_error he] at h
      exact h
    · have hlength := (hstacked.fetch hentered).length_le
      rw [List.length_cons] at hlength
      omega
  | succ level ih =>
    intro p file lets i rest frames x hstack h
    refine Ends.of_next (next_includeFile p lets i rest hstack) (fun e he => ?_)
      fun entered hentered => ?_
    · rw [SearchPath.enter, bind_of_error he] at h
      exact h
    · rw [SearchPath.enter, bind_of_ok hentered] at h
      have hfollows := ih (hstacked.fetch hentered) (by rw [List.length_cons]; omega)
      have hinside : (some entered.place).toList ++
          (⟨file, lets, rest⟩ :: frames).filterMap Frame.file = entered.place :: stack :=
        congrArg _ ((stack_cons p file lets rest frames).trans hstack)
      exact ends_of_runAll hfollows p (some entered.place) lets hinside entered.statements
        (h.mono fun p' hp => .step rfl hp)

/-- The steps from the start of a run end with what the run answers. -/
theorem start_ends (s : SearchPath) (statements : List Statement) :
    (start statements).Ends s
      (Progress.start.runAll (s.enter s.tree.files.length []) [] statements) := by
  have hlevel : s.places.dedup.length ≤ s.tree.files.length + 0 := by
    simpa [SearchPath.places] using s.places.dedup_sublist.length_le
  refine ends_of_runAll (follows_enter s (.nil s) hlevel) .start none [] rfl statements ?_
  cases Progress.start.runAll (s.enter s.tree.files.length []) [] statements with
  | ok p => exact .step rfl (.done rfl)
  | error e => rfl

end Moment

namespace SearchPath

/-- What a run answers is what its declarations have left at a moment that its steps come to. -/
theorem exists_moment {s : SearchPath} {name text : String} {db : Database}
    (h : s.run name text = .ok db) :
    ∃ statements m, readStatements name text = .ok statements ∧
      Relation.ReflTransGen (Moment.Step s) (.start statements) m ∧ m.progress.db = db := by
  obtain ⟨statements, hread, h⟩ := bind_eq_ok.1 h
  obtain ⟨p, hp, hdb⟩ := bind_eq_ok.1 h
  obtain ⟨m, hm, ⟨-, hlast⟩ | ⟨e, -, hlast⟩⟩ := (Moment.start_ends s statements).exists_last
  · obtain rfl := Except.ok.inj (hp.symm.trans hlast)
    exact ⟨statements, m, mapError_eq_ok.1 hread, hm, pure_eq_ok.1 hdb⟩
  · cases hp.symm.trans hlast

/-- A run comes to an end. Its steps lead from the statements of its text to the answer it gives, and
there is no endless sequence of them. At every moment the files being included are files of the tree,
none of them twice, so they are no more than the files there are; and an include that leads to one of
them, by whatever path, is refused as recursive. -/
theorem run_ends (s : SearchPath) {name text : String} {statements : List Statement}
    (h : readStatements name text = .ok statements) :
    (∃ x, (Moment.start statements).Ends s x ∧ s.run name text = x.map Progress.db) ∧
      (¬∃ f : Nat → Moment, f 0 = .start statements ∧ ∀ n, (f n).Step s (f (n + 1))) ∧
      ∀ m, Relation.ReflTransGen (Moment.Step s) (.start statements) m →
        m.stack.Nodup ∧ m.stack ⊆ s.places ∧ m.stack.length ≤ s.places.dedup.length ∧
        ∀ i path place, m.statement? = some (.includeFile i) → s.Leads i path place →
          place ∈ m.stack → m.next s = .error ⟨.includeCycle path, i.place⟩ := by
  have hends := Moment.start_ends s statements
  refine ⟨⟨_, hends, ?_⟩, hends.not_endless, fun m hm => ?_⟩
  · unfold run
    rw [h]
    rfl
  · have hstacked := Moment.stacked_of_reaches hm
    exact ⟨hstacked.nodup, hstacked.files, hstacked.length_le, fun i path place hi hleads hstack =>
      Moment.next_of_mem hi hleads hstack⟩

/-- A file that includes itself under another spelling of its path. -/
def loop : SearchPath :=
  ⟨(FileTree.emptyAt []).insert "loop.td" "def A; include \"./loop.td\"".toUTF8, [""]⟩

def loopText : String := "include \"loop.td\""

theorem loop_ends :
    ∃ statements x, readStatements "main" loopText = .ok statements ∧
      (Moment.start statements).Ends loop x ∧ loop.run "main" loopText = x.map Progress.db ∧
      loop.run "main" loopText = .error ⟨.includeCycle "./loop.td", ⟨"loop.td", 1, 8⟩⟩ := by
  have hread : ((readStatements "main" loopText).toOption.map List.length) = some 1 := by
    decide +kernel
  obtain ⟨statements, h, -⟩ := ok_of_toOption_map hread
  obtain ⟨⟨x, hends, hx⟩, -⟩ := run_ends loop h
  exact ⟨statements, x, h, hends, hx, by decide +kernel⟩

end SearchPath
end TypedRecords
