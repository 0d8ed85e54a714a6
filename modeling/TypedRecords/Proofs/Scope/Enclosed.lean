import Mathlib.Data.List.Forall2
import TypedRecords.Proofs.Run.Invariant

/-!
# Declarations and the lets that enclose them

Scopes can be read off the text: each declaration stands with the bindings of all scopes around it,
outermost first (`Statement.enclosedAll`). A run that includes nothing goes through these declarations
one after the other, each under its own lets (`Progress.runs_of_runAll`). Lets are read where their
scope begins, and declaring further classes does not change what they read as.
-/

namespace TypedRecords

/-! ### Reading with more classes declared -/

section
variable {declared declared' : String → Bool}

theorem TypeSyntax.toTy_mono (hmono : ∀ name, declared name = true → declared' name = true)
    {t : TypeSyntax} {type : Ty} (h : t.toTy declared = .ok type) : t.toTy declared' = .ok type := by
  induction t generalizing type with
  | list element ih =>
    obtain ⟨inner, hinner, rfl⟩ := map_eq_ok.1 h
    exact map_eq_ok.2 ⟨inner, ih hinner, rfl⟩
  | named name place =>
    rw [toTy] at h ⊢
    split at h
    · rename_i hname
      rw [if_pos (hmono name hname), h]
    · cases h
  | _ => exact h

namespace ValueSyntax

mutual

theorem toExpr_mono (hmono : ∀ name, declared name = true → declared' name = true) :
    ∀ (v : ValueSyntax) {e : Expr}, v.toExpr declared = .ok e → v.toExpr declared' = .ok e
  | .unset, _, h | .boolean _, _, h | .integer _ _, _, h | .string _ _, _, h | .code _, _, h
  | .reference _ _, _, h => h
  | .bits items place, _, h => by
    obtain ⟨es, hes, h⟩ := bind_eq_ok.1 h
    exact bind_eq_ok.2 ⟨es, toExprs_mono hmono items hes, h⟩
  | .list items element place, _, h => by
    rw [toExpr] at h ⊢
    obtain ⟨es, hes, h⟩ := bind_eq_ok.1 h
    refine bind_eq_ok.2 ⟨es, toExprs_mono hmono items hes, ?_⟩
    cases element with
    | none => exact h
    | some type =>
      obtain ⟨ty, hty, h⟩ := bind_eq_ok.1 h
      exact bind_eq_ok.2 ⟨ty, TypeSyntax.toTy_mono hmono hty, h⟩
  | .dag operator operatorPlace args place, _, h => by
    obtain ⟨as, has, h⟩ := bind_eq_ok.1 h
    exact bind_eq_ok.2 ⟨as, toArgs_mono hmono args has, h⟩
  | .bang operator args place, _, h => by
    rw [toExpr] at h ⊢
    cases hop : Bang.ofName? operator with
    | none =>
      rw [hop] at h
      cases h
    | some op =>
      rw [hop] at h
      obtain ⟨es, hes, h⟩ := bind_eq_ok.1 h
      exact bind_eq_ok.2 ⟨es, toExprs_mono hmono args hes, h⟩

theorem toExprs_mono (hmono : ∀ name, declared name = true → declared' name = true) :
    ∀ (vs : List ValueSyntax) {es : List Expr}, toExprs declared vs = .ok es →
      toExprs declared' vs = .ok es
  | [], _, h => h
  | v :: vs, _, h => by
    obtain ⟨e, he, h⟩ := bind_eq_ok.1 h
    obtain ⟨es, hes, h⟩ := bind_eq_ok.1 h
    exact bind_eq_ok.2 ⟨e, toExpr_mono hmono v he, bind_eq_ok.2 ⟨es, toExprs_mono hmono vs hes, h⟩⟩

theorem toArgs_mono (hmono : ∀ name, declared name = true → declared' name = true) :
    ∀ (args : List (DagArg ValueSyntax)) {as : List (DagArg Expr)}, toArgs declared args = .ok as →
      toArgs declared' args = .ok as
  | [], _, h => h
  | ⟨name, some v⟩ :: args, _, h => by
    rw [toArgs] at h ⊢
    obtain ⟨e, he, h⟩ := bind_eq_ok.1 h
    obtain ⟨as, has, h⟩ := bind_eq_ok.1 h
    exact bind_eq_ok.2 ⟨e, toExpr_mono hmono v he, bind_eq_ok.2 ⟨as, toArgs_mono hmono args has, h⟩⟩
  | ⟨name, none⟩ :: args, _, h => by
    rw [toArgs] at h ⊢
    obtain ⟨as, has, h⟩ := bind_eq_ok.1 h
    exact bind_eq_ok.2 ⟨as, toArgs_mono hmono args has, h⟩

end

end ValueSyntax

theorem LetSyntax.toOverride_mono (hmono : ∀ name, declared name = true → declared' name = true)
    {l : LetSyntax} {o : Override} (h : l.toOverride declared = .ok o) :
    l.toOverride declared' = .ok o := by
  obtain ⟨e, he, h⟩ := bind_eq_ok.1 h
  exact bind_eq_ok.2 ⟨e, l.value.toExpr_mono hmono he, h⟩

theorem mapM_toOverride_mono (hmono : ∀ name, declared name = true → declared' name = true)
    {ls : List LetSyntax} {os : List Override} (h : ls.mapM (·.toOverride declared) = .ok os) :
    ls.mapM (·.toOverride declared') = .ok os :=
  mapM_eq_ok.2 ((mapM_eq_ok.1 h).imp fun _ _ hl => LetSyntax.toOverride_mono hmono hl)

end

/-! ### Scopes read off the text -/

/-- A statement that adds a record. -/
inductive Declaration
  | classDecl (c : ClassSyntax)
  | defDecl (d : DefSyntax)

/-- A declaration with the bindings of the scopes around it, outermost first. -/
structure Enclosed where
  lets : List LetSyntax
  decl : Declaration

namespace Statement

mutual

/-- The declarations of a statement that stands under `lets`. Files that it includes are left out. -/
def enclosed (lets : List LetSyntax) : Statement → List Enclosed
  | .includeFile _ => []
  | .classDecl c => [⟨lets, .classDecl c⟩]
  | .defDecl d => [⟨lets, .defDecl d⟩]
  | .scope bindings body => enclosedAll (lets ++ bindings) body

def enclosedAll (lets : List LetSyntax) : List Statement → List Enclosed
  | [] => []
  | s :: ss => s.enclosed lets ++ enclosedAll lets ss

end

end Statement

/-! ### Running declarations -/

namespace Progress

def add (p : Progress) (lets : List Override) : Declaration → Except ParseError Progress
  | .classDecl c => p.addClass lets c
  | .defDecl d => p.addDef lets d

/-- The declarations are added one after the other, each under its own lets. -/
inductive Runs : Progress → List Enclosed → Progress → Prop
  | nil (p : Progress) : Runs p [] p
  | cons {p p₁ p' : Progress} {e : Enclosed} {es : List Enclosed} {lets : List Override}
      (hlets : e.lets.mapM (·.toOverride p.declared) = .ok lets) (hadd : p.add lets e.decl = .ok p₁)
      (hrest : Runs p₁ es p') : Runs p (e :: es) p'

theorem templates_add {p p' : Progress} {lets : List Override} {d : Declaration}
    (h : p.add lets d = .ok p') : p.templates <:+ p'.templates := by
  cases d with
  | classDecl c =>
    obtain ⟨t, bs, d, r, hstep⟩ := addClass_eq_ok h
    exact hstep.templates ▸ List.suffix_cons ..
  | defDecl d =>
    obtain ⟨t, d, r, hstep⟩ := addDef_eq_ok h
    exact hstep.templates ▸ List.suffix_refl _

namespace Runs
variable {p p₁ p' : Progress} {es fs : List Enclosed}

theorem append (h : Runs p es p₁) (h' : Runs p₁ fs p') : Runs p (es ++ fs) p' := by
  induction h with
  | nil p => exact h'
  | cons hlets hadd _ ih => exact .cons hlets hadd (ih h')

theorem templates (h : Runs p es p') : p.templates <:+ p'.templates := by
  induction h with
  | nil p => exact List.suffix_refl _
  | cons _ hadd _ ih => exact (templates_add hadd).trans ih

end Runs

mutual

theorem runs_of_run {enter : Entering} {p p' : Progress} {ls : List LetSyntax} {lets : List Override}
    (hlets : ls.mapM (·.toOverride p.declared) = .ok lets) :
    ∀ s : Statement, s.includes = [] → p.run enter lets s = .ok p' → Runs p (s.enclosed ls) p'
  | .includeFile i, hnone, _ => nomatch hnone
  | .classDecl c, _, h => .cons hlets h (.nil p')
  | .defDecl d, _, h => .cons hlets h (.nil p')
  | .scope bindings body, hnone, h => by
    obtain ⟨inner, hinner, h⟩ := bind_eq_ok.1 h
    exact runs_of_runAll (mapM_append_eq_ok.2 ⟨lets, inner, hlets, hinner, rfl⟩) body hnone h

/-- A run that includes nothing adds the declarations, each under the lets that enclose it. -/
theorem runs_of_runAll {enter : Entering} {p p' : Progress} {ls : List LetSyntax}
    {lets : List Override} (hlets : ls.mapM (·.toOverride p.declared) = .ok lets) :
    ∀ ss : List Statement, Statement.includesAll ss = [] → p.runAll enter lets ss = .ok p' →
      Runs p (Statement.enclosedAll ls ss) p'
  | [], _, h => Except.ok.inj h ▸ .nil p
  | s :: ss, hnone, h => by
    obtain ⟨hs, hss⟩ := List.append_eq_nil_iff.1 hnone
    obtain ⟨p₁, hrun, h⟩ := bind_eq_ok.1 h
    have hfirst : Runs p (s.enclosed ls) p₁ := runs_of_run hlets s hs hrun
    -- the lets were read before the classes of `s` were declared
    have hlets₁ := mapM_toOverride_mono (fun _ => declared_mono hfirst.templates) hlets
    exact hfirst.append (runs_of_runAll hlets₁ ss hss h)

end

end Progress
end TypedRecords
