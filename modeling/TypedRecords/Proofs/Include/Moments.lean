import TypedRecords.Proofs.Include.Stack
import TypedRecords.Proofs.Scope.Lowered

/-!
# Every moment of a run

A step closes a text or a scope, opens one, or adds a declaration (`Moment.Moves`). So an invariant of
the declarations holds at every moment of every run, also of one that fails later, and so it does of
the lets of all that is open (`Progress.Invariant.reaches`).
-/

namespace TypedRecords

namespace Moment

/-- What one step does. -/
inductive Moves (s : SearchPath) : Moment → Moment → Prop
  | close (p : Progress) (f : Option TreePath) (lets : List Override) (frames : List Frame) :
      Moves s ⟨p, ⟨f, lets, []⟩ :: frames⟩ ⟨p, frames⟩
  | enter {p : Progress} {f : Option TreePath} {lets : List Override} {i : IncludeSyntax}
      {rest : List Statement} {frames : List Frame} {file : Included}
      (h : s.fetch (f.toList ++ frames.filterMap Frame.file) i = .ok file) :
      Moves s ⟨p, ⟨f, lets, .includeFile i :: rest⟩ :: frames⟩
        ⟨p, ⟨some file.place, lets, file.statements⟩ :: ⟨f, lets, rest⟩ :: frames⟩
  | add {p p' : Progress} {f : Option TreePath} {lets : List Override} {d : Declaration}
      {rest : List Statement} {frames : List Frame} (h : p.add lets d = .ok p') :
      Moves s ⟨p, ⟨f, lets, d.statement :: rest⟩ :: frames⟩ ⟨p', ⟨f, lets, rest⟩ :: frames⟩
  | scope {p : Progress} {f : Option TreePath} {lets inner : List Override}
      {bindings : List LetSyntax} {body rest : List Statement} {frames : List Frame}
      (h : bindings.mapM (·.toOverride p.declared) = .ok inner) :
      Moves s ⟨p, ⟨f, lets, .scope bindings body :: rest⟩ :: frames⟩
        ⟨p, ⟨none, lets ++ inner, body⟩ :: ⟨f, lets, rest⟩ :: frames⟩

variable {s : SearchPath} {m m' : Moment}

theorem step_iff_moves : m.Step s m' ↔ m.Moves s m' := by
  constructor
  · intro h
    obtain ⟨p, frames⟩ := m
    unfold Step at h
    rcases frames with _ | ⟨⟨f, lets, _ | ⟨statement, rest⟩⟩, frames⟩
    · cases h
    · obtain rfl := Option.some.inj (Except.ok.inj h)
      exact .close p f lets frames
    · cases statement with
      | includeFile i =>
        rw [next_includeFile p lets i rest rfl] at h
        obtain ⟨file, hfile, h⟩ := bind_eq_ok.1 h
        obtain rfl := Option.some.inj (pure_eq_ok.1 h)
        exact .enter hfile
      | classDecl c =>
        obtain ⟨p', hp', h⟩ := bind_eq_ok.1 h
        obtain rfl := Option.some.inj (pure_eq_ok.1 h)
        exact .add (d := .classDecl c) hp'
      | defDecl d =>
        obtain ⟨p', hp', h⟩ := bind_eq_ok.1 h
        obtain rfl := Option.some.inj (pure_eq_ok.1 h)
        exact .add (d := .defDecl d) hp'
      | scope bindings body =>
        obtain ⟨inner, hinner, h⟩ := bind_eq_ok.1 h
        obtain rfl := Option.some.inj (pure_eq_ok.1 h)
        exact .scope hinner
  · intro h
    cases h with
    | close p f lets frames => rfl
    | @enter p f lets i rest frames file h =>
      rw [Step, next_includeFile p lets i rest rfl]
      exact bind_eq_ok.2 ⟨file, h, rfl⟩
    | @add p p' f lets d rest frames h =>
      cases d with
      | classDecl c => exact bind_eq_ok.2 ⟨p', h, rfl⟩
      | defDecl d => exact bind_eq_ok.2 ⟨p', h, rfl⟩
    | @scope p f lets inner bindings body rest frames h => exact bind_eq_ok.2 ⟨inner, h, rfl⟩

/-! ### Invariants -/

/-- The invariant holds of what the declarations have left, and the lets of all that is open satisfy
theirs. -/
structure Satisfies (I : Progress → Prop) (L : Progress → Override → Prop) (m : Moment) : Prop where
  progress : I m.progress
  lets : ∀ f ∈ m.frames, ∀ o ∈ f.lets, L m.progress o

end Moment

namespace Progress.Invariant
variable {I : Progress → Prop} {L : Progress → Override → Prop}

theorem add (h : Invariant I L) {p p' : Progress} {lets : List Override} {d : Declaration} (hp : I p)
    (hlets : ∀ o ∈ lets, L p o) (hadd : p.add lets d = .ok p') : I p' := by
  cases d with
  | classDecl c =>
    obtain ⟨t, bs, d, r, hstep⟩ := addClass_eq_ok hadd
    exact h.addClass hp hlets hstep
  | defDecl s =>
    obtain ⟨t, d, r, hstep⟩ := addDef_eq_ok hadd
    exact h.addDef hp hlets hstep

theorem step (h : Invariant I L) {s : SearchPath} {m m' : Moment} (hm : m.Satisfies I L)
    (hstep : m.Moves s m') : m'.Satisfies I L := by
  cases hstep with
  | close p f lets frames => exact ⟨hm.progress, fun g hg => hm.lets g (List.mem_cons_of_mem _ hg)⟩
  | enter _ =>
    obtain ⟨htop, hframes⟩ := List.forall_mem_cons.1 hm.lets
    exact ⟨hm.progress, List.forall_mem_cons.2 ⟨htop, List.forall_mem_cons.2 ⟨htop, hframes⟩⟩⟩
  | add hadd =>
    obtain ⟨htop, hframes⟩ := List.forall_mem_cons.1 hm.lets
    have hgrown := templates_add hadd
    exact ⟨h.add hm.progress htop hadd, List.forall_mem_cons.2 ⟨fun o ho => h.grow hgrown (htop o ho),
      fun g hg o ho => h.grow hgrown (hframes g hg o ho)⟩⟩
  | scope hinner =>
    obtain ⟨htop, hframes⟩ := List.forall_mem_cons.1 hm.lets
    refine ⟨hm.progress, List.forall_mem_cons.2 ⟨List.forall_mem_append.2 ⟨htop, fun o ho => ?_⟩,
      List.forall_mem_cons.2 ⟨htop, hframes⟩⟩⟩
    obtain ⟨l, -, hl⟩ := mem_of_mapM_eq_ok hinner o ho
    exact h.lets hm.progress hl

/-- An invariant holds at every moment that a run comes to. -/
theorem reaches (h : Invariant I L) {s : SearchPath} {statements : List Statement} {m : Moment}
    (hm : Relation.ReflTransGen (Moment.Step s) (.start statements) m) : m.Satisfies I L := by
  induction hm with
  | refl => exact ⟨h.start, List.forall_mem_singleton.2 (List.forall_mem_nil _)⟩
  | tail _ hstep ih => exact h.step ih (Moment.step_iff_moves.1 hstep)

end Progress.Invariant
end TypedRecords
