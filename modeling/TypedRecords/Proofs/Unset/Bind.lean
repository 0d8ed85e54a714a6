import TypedRecords.Draft.Inherit
import TypedRecords.Proofs.Unset.Evaluate

/-!
# Parameters with parts left unset

Arguments and defaults are evaluated under two bindings, the first below the second, and bound. The
parameters are bound to values below, or the first binding fails as an argument or a default wants a
value (`bindParams_follows`).
-/

namespace TypedRecords

/-- The expression is what the parameter is bound to, under two bindings, and wants a value or lacks a
bit that the parameter's type asks for. -/
abbrev Param.Wants (db : Database) (className : String) (place : Location) (q : Param) (e : Expr)
    (bs bs' : Bindings) : ParseError → Prop :=
  e.WantedFor db.store (Expr.Compares (.closed db) (.closed db) bs bs') (.param className q.name)
    q.type place

variable {db : Database} {bs bs' : Bindings} {N : ParseError → Prop}

theorem evaluateClosed_follows (hbs : bs.Le bs') (e : Expr) (expected : Option Ty)
    (hN : ∀ err, e.Wants db.store (Expr.Compares (.closed db) (.closed db) bs bs') err → N err) :
    Follows N Value.Below (evaluateClosed db (e.substitute bs) expected)
      (evaluateClosed db (e.substitute bs') expected) := by
  have hscope : Scope.Tracks (fun _ : Unit => True) N (.closed db) (.closed db) :=
    ⟨rfl, fun _ => .inl ⟨rfl, rfl⟩⟩
  have hcompares : Comparable (fun _ : Unit => True) (.closed db) (.closed db) bs bs'
      (Expr.Compares (.closed db) (.closed db) bs bs') := by
    rintro e expected v w ⟨⟨⟩, ⟨⟩, -, hv, hw⟩
    exact ⟨expected, run'_eq_ok.2 hv, run'_eq_ok.2 hw⟩
  exact (evaluate_tracks hscope hbs hcompares e expected hN () trivial).map fun a b hab => hab.1.1

/-! ### Arguments -/

theorem evaluateWritten_follows (hbs : bs.Le bs') (ps : List Param) (es : List Expr)
    (hN : ∀ e ∈ es, ∀ err,
      e.Wants db.store (Expr.Compares (.closed db) (.closed db) bs bs') err → N err) :
    Follows N (List.Forall₂ Value.Below) (evaluateWritten db bs ps es)
      (evaluateWritten db bs' ps es) := by
  induction es generalizing ps with
  | nil => exact .ok .nil
  | cons e es ih =>
    obtain ⟨he, hes⟩ := List.forall_mem_cons.1 hN
    rw [evaluateWritten, evaluateWritten]
    refine (evaluateClosed_follows hbs e _ he).bind fun v v' hv _ _ => ?_
    refine (ih ps.tail hes).bind fun vs vs' hvs _ _ => ?_
    exact .ok (.cons hv hvs)

/-- The values of an argument are those of its expression under the two bindings. -/
theorem compares_of_evaluateWritten {ps : List Param} {es : List Expr} {args args' : List (Option Value)}
    (h : evaluateWritten db bs ps es = .ok args) (h' : evaluateWritten db bs' ps es = .ok args')
    {i : Nat} {v w : Option Value} (hv : args[i]? = some v) (hw : args'[i]? = some w) :
    ∃ e, es[i]? = some e ∧ e.Compares (.closed db) (.closed db) bs bs' v w := by
  induction es generalizing ps args args' i with
  | nil =>
    obtain rfl := Except.ok.inj h
    cases hv
  | cons e es ih =>
    obtain ⟨v₁, hv₁, h⟩ := bind_eq_ok.1 h
    obtain ⟨vs, hvs, h⟩ := bind_eq_ok.1 h
    obtain ⟨w₁, hw₁, h'⟩ := bind_eq_ok.1 h'
    obtain ⟨ws, hws, h'⟩ := bind_eq_ok.1 h'
    obtain rfl := pure_eq_ok.1 h
    obtain rfl := pure_eq_ok.1 h'
    cases i with
    | zero =>
      obtain rfl := Option.some.inj hv
      obtain rfl := Option.some.inj hw
      exact ⟨e, rfl, _, hv₁, hw₁⟩
    | succ i => exact ih hvs hws hv hw

/-! ### Bindings -/

theorem Bindings.Le.append {name : String} {type : Ty} {v v' : Option Value} (hbs : bs.Le bs')
    (hv : Value.Below v v' ∧ ∀ x ∈ v', x.Fits type) :
    Bindings.Le (bs ++ [⟨name, type, v⟩]) (bs' ++ [⟨name, type, v'⟩]) :=
  List.rel_append hbs (.cons ⟨rfl, rfl, hv.1, hv.2⟩ .nil)

section
variable {className : String} {place : Location}

theorem default_follows (hbs : bs.Le bs') (q : Param) (e : Expr)
    (hN : ∀ err, q.Wants db className place e bs bs' err → N err) :
    Follows N (fun v v' => Value.Below v v' ∧ ∀ x ∈ v', x.Fits q.type)
      (do
        let raw ← evaluateClosed db (e.substitute bs) (some q.type)
        assign db.store (.param className q.name) q.type place raw)
      (do
        let raw ← evaluateClosed db (e.substitute bs') (some q.type)
        assign db.store (.param className q.name) q.type place raw) := by
  refine (evaluateClosed_follows hbs e _ fun err h => hN err (.inside h)).bind
    fun v v' hv hx hy => assign_follows hv _ _ fun a b ha hb hlacks => ?_
  subst ha hb
  exact hN _ (.converted ⟨_, hx, hy⟩ hlacks)

theorem param_follows (hbs : bs.Le bs') (q : Param) {args args' : List (Option Value)}
    (hargs : List.Forall₂ Value.Below args args')
    (harg : ∀ v w : Value, args[0]? = some (some v) → args'[0]? = some (some w) → v.Lacks q.type w →
      N ⟨.incompatible (.param className q.name) q.type (v.type db.store), place⟩)
    (hdefault : ∀ e, q.default = some e → args.length ≤ 0 →
      ∀ err, q.Wants db className place e bs bs' err → N err) :
    Follows N (fun v v' => Value.Below v v' ∧ ∀ x ∈ v', x.Fits q.type)
      (do
        let raw ← paramValue db className place .refused bs q args
        assign db.store (.param className q.name) q.type place raw)
      (do
        let raw ← paramValue db className place .refused bs' q args'
        assign db.store (.param className q.name) q.type place raw) := by
  cases hargs with
  | @cons v w args args' hvw _ =>
    refine assign_follows hvw _ _ fun a b ha hb hlacks => ?_
    subst ha hb
    exact harg a b rfl rfl hlacks
  | nil =>
    unfold paramValue
    cases he : q.default with
    | none => exact .error _ _
    | some e => exact default_follows hbs q e (hdefault e he (le_refl 0))

theorem bindParams_follows (hbs : bs.Le bs') (ps : List Param) {args args' : List (Option Value)}
    (hargs : List.Forall₂ Value.Below args args')
    (harg : ∀ (i : Nat) (q : Param) (v w : Value), ps[i]? = some q → args[i]? = some (some v) →
      args'[i]? = some (some w) → v.Lacks q.type w →
      N ⟨.incompatible (.param className q.name) q.type (v.type db.store), place⟩)
    (hdefault : ∀ (i : Nat) (q : Param) (e : Expr) (bound bound' : Bindings), ps[i]? = some q →
      q.default = some e → args.length ≤ i →
      bindParams db className place .refused bs (ps.take i) args = .ok bound →
      bindParams db className place .refused bs' (ps.take i) args' = .ok bound' →
      ∀ err, q.Wants db className place e bound bound' err → N err) :
    Follows N Bindings.Le (bindParams db className place .refused bs ps args)
      (bindParams db className place .refused bs' ps args') := by
  induction ps generalizing bs bs' args args' with
  | nil => exact .ok hbs
  | cons q ps ih =>
    have hstep := param_follows hbs q hargs (fun v w => harg 0 q v w rfl)
      fun e he hlen => hdefault 0 q e bs bs' rfl he hlen rfl rfl
    rw [bindParams, bindParams, ← bind_assoc, ← bind_assoc]
    refine hstep.bind fun v v' hv hx hy => ?_
    have htail : List.Forall₂ Value.Below args.tail args'.tail := by
      cases hargs with
      | nil => exact .nil
      | cons _ htail => exact htail
    refine ih (hbs.append hv) htail (fun i p a b hp ha hb => ?_)
      fun i p e bound bound' hp he hlen hbound hbound' => ?_
    · rw [List.getElem?_tail] at ha hb
      exact harg (i + 1) p a b hp ha hb
    · rw [List.length_tail] at hlen
      refine hdefault (i + 1) p e bound bound' hp he (by omega) ?_ ?_
      · rw [List.take_succ_cons, bindParams, ← bind_assoc, hx]
        exact hbound
      · rw [List.take_succ_cons, bindParams, ← bind_assoc, hy]
        exact hbound'

end
end TypedRecords
