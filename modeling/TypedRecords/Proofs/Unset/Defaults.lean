import TypedRecords.Proofs.Unset.Bind

/-!
# Parameters without arguments

In the record of a class, parameters take their defaults and others are unset. Where an instance keeps
the defaults, the parameters are bound to values below those of the instance (`bindParams_unset`).
-/

namespace TypedRecords

/-- Each parameter with a default is bound to what the default gives under the bindings before it. -/
def Template.KeepsDefaults (db : Database) (t : Template) (place : Location) (bs : Bindings) : Prop :=
  ∀ (i : Nat) (p : Param) (b : Binding), t.params[i]? = some p → bs[i]? = some b →
    ∀ default ∈ p.default, ∃ raw,
      evaluateClosed db (default.substitute (bs.take i)) (some p.type) = .ok raw ∧
        assign db.store (.param t.name p.name) p.type place raw = .ok b.value

section
variable {db : Database} {className : String} {place : Location} {N : ParseError → Prop}

theorem bindParams_prefix {missing : Missing} {bound bs : Bindings} {ps : List Param}
    {args : List (Option Value)}
    (h : bindParams db className place missing bound ps args = .ok bs) : bound <+: bs := by
  induction ps generalizing bound args with
  | nil => exact Except.ok.inj h ▸ List.prefix_rfl
  | cons p ps ih =>
    rw [bindParams] at h
    obtain ⟨raw, -, h⟩ := bind_eq_ok.1 h
    obtain ⟨v, -, h⟩ := bind_eq_ok.1 h
    exact (List.prefix_append ..).trans (ih h)

theorem bindParams_cons {missing : Missing} {bound bs : Bindings} {q : Param} {ps : List Param}
    {args : List (Option Value)}
    (h : bindParams db className place missing bound (q :: ps) args = .ok bs) :
    ∃ raw value, paramValue db className place missing bound q args = .ok raw ∧
      assign db.store (.param className q.name) q.type place raw = .ok value ∧
      bindParams db className place missing (bound ++ [⟨q.name, q.type, value⟩]) ps args.tail = .ok bs ∧
      bs[bound.length]? = some ⟨q.name, q.type, value⟩ ∧ bs.take bound.length = bound := by
  rw [bindParams] at h
  obtain ⟨raw, hraw, h⟩ := bind_eq_ok.1 h
  obtain ⟨value, hvalue, h⟩ := bind_eq_ok.1 h
  obtain ⟨rest, hrest⟩ := bindParams_prefix h
  exact ⟨raw, value, hraw, hvalue, h, by simp [← hrest], by simp [← hrest]⟩

/-- The parameters, bound behind the first `n` bindings, keep their defaults. -/
def KeepsFrom (db : Database) (className : String) (place : Location) (n : Nat) (ps : List Param)
    (bs : Bindings) : Prop :=
  ∀ (i : Nat) (q : Param) (b : Binding), ps[i]? = some q → bs[n + i]? = some b →
    ∀ default ∈ q.default, ∃ raw,
      evaluateClosed db (default.substitute (bs.take (n + i))) (some q.type) = .ok raw ∧
        assign db.store (.param className q.name) q.type place raw = .ok b.value

theorem KeepsFrom.tail {n : Nat} {q : Param} {ps : List Param} {bs : Bindings}
    (h : KeepsFrom db className place n (q :: ps) bs) : KeepsFrom db className place (n + 1) ps bs := by
  intro i p b hp hb
  rw [Nat.add_right_comm] at hb ⊢
  exact h (i + 1) p b hp hb

theorem Template.KeepsDefaults.keepsFrom {t : Template} {bs : Bindings}
    (h : t.KeepsDefaults db place bs) : KeepsFrom db t.name place 0 t.params bs := by
  intro i q b hq hb
  rw [Nat.zero_add] at hb ⊢
  exact h i q b hq hb

/-- A parameter without an argument is unset or has its default, which is below what the default gives
under bindings above. -/
theorem unsetParam_follows {bound bound' : Bindings} (hbound : bound.Le bound') (q : Param)
    {raw value : Option Value}
    (hvalue : assign db.store (.param className q.name) q.type place raw = .ok value)
    (hkeeps : ∀ default ∈ q.default, ∃ raw,
      evaluateClosed db (default.substitute bound') (some q.type) = .ok raw ∧
        assign db.store (.param className q.name) q.type place raw = .ok value)
    (hN : ∀ e, q.default = some e → ∀ err, q.Wants db className place e bound bound' err → N err) :
    Follows N (fun v v' => Value.Below v v' ∧ ∀ x ∈ v', x.Fits q.type)
      (do
        let raw ← paramValue db className place .unset bound q []
        assign db.store (.param className q.name) q.type place raw)
      (.ok value) := by
  cases hdefault : q.default with
  | none =>
    have hunset : paramValue db className place .unset bound q [] = .ok none := by
      unfold paramValue
      rw [hdefault]
    rw [hunset, ← hvalue]
    refine assign_follows (.none raw) _ _ fun a b ha => ?_
    cases ha
  | some e =>
    obtain ⟨raw', heval, hassign⟩ := hkeeps e hdefault
    have hwritten : paramValue db className place .unset bound q [] =
        evaluateClosed db (e.substitute bound) (some q.type) := by
      unfold paramValue
      rw [hdefault]
    have hgiven : (do
        let raw ← evaluateClosed db (e.substitute bound') (some q.type)
        assign db.store (.param className q.name) q.type place raw) = .ok value :=
      bind_eq_ok.2 ⟨raw', heval, hassign⟩
    rw [hwritten, ← hgiven]
    exact default_follows hbound q e (hN e hdefault)

/-- What the parameters are bound to without arguments: those that have no default are unset, and all
are below the bindings that arguments give which keep the defaults. -/
theorem bindParams_unset {bound bound' bs : Bindings} (hbound : bound.Le bound') {ps : List Param}
    {args : List (Option Value)}
    (hbs : bindParams db className place .refused bound' ps args = .ok bs)
    (hkeeps : KeepsFrom db className place bound'.length ps bs)
    (hN : ∀ (i : Nat) (q : Param) (e : Expr) (before : Bindings), ps[i]? = some q →
      q.default = some e → bindParams db className place .unset bound (ps.take i) [] = .ok before →
      ∀ err, q.Wants db className place e before (bs.take (bound'.length + i)) err → N err) :
    Follows N Bindings.Le (bindParams db className place .unset bound ps []) (.ok bs) := by
  induction ps generalizing bound bound' args with
  | nil => exact .ok (Except.ok.inj hbs ▸ hbound)
  | cons q ps ih =>
    obtain ⟨raw, value, -, hvalue, hbs, hget, htake⟩ := bindParams_cons hbs
    have hfirst := hkeeps 0 q _ rfl hget
    have hwants := hN 0 q
    rw [Nat.add_zero, htake] at hfirst hwants
    have hstep := unsetParam_follows hbound q hvalue hfirst fun e he => hwants e bound rfl he rfl
    rw [bindParams, ← bind_assoc]
    refine hstep.bind (g := fun _ => .ok bs) fun v v' hv hx hy => ?_
    obtain rfl := Except.ok.inj hy
    refine ih (hbound.append hv) hbs ?_ fun i p e before hp he hbefore => ?_
    · rw [List.length_append]
      exact hkeeps.tail
    · rw [List.length_append, List.length_singleton, Nat.add_right_comm]
      refine hN (i + 1) p e before hp he ?_
      rw [List.take_succ_cons, bindParams, ← bind_assoc, hx]
      exact hbefore

/-- Where the parameters that have no default are unset in an instance that keeps the defaults, they
are bound to the same without arguments. -/
theorem bindParams_eq {bound bs : Bindings} {ps : List Param} {args : List (Option Value)}
    (hbs : bindParams db className place .refused bound ps args = .ok bs)
    (hkeeps : KeepsFrom db className place bound.length ps bs)
    (hunset : ∀ (i : Nat) (q : Param) (b : Binding), ps[i]? = some q →
      bs[bound.length + i]? = some b → q.default = none → b.value = none) :
    bindParams db className place .unset bound ps [] = .ok bs := by
  induction ps generalizing bound args with
  | nil => exact hbs
  | cons q ps ih =>
    obtain ⟨raw, value, -, -, hbs, hget, htake⟩ := bindParams_cons hbs
    have hfirst := hkeeps 0 q _ rfl hget
    have hnone := hunset 0 q _ rfl hget
    rw [Nat.add_zero, htake] at hfirst
    have hstep : (do
        let raw ← paramValue db className place .unset bound q []
        assign db.store (.param className q.name) q.type place raw) = .ok value := by
      unfold paramValue
      cases hdefault : q.default with
      | none => exact congrArg _ (hnone hdefault).symm
      | some e =>
        obtain ⟨raw, heval, hassign⟩ := hfirst e hdefault
        exact bind_eq_ok.2 ⟨raw, heval, hassign⟩
    rw [bindParams, ← bind_assoc, hstep]
    refine ih hbs ?_ fun i p b hp hb => ?_
    · rw [List.length_append]
      exact hkeeps.tail
    · rw [List.length_append, List.length_singleton, Nat.add_right_comm] at hb
      exact hunset (i + 1) p b hp hb

theorem unset_of_bindParams {bound bs : Bindings} {ps : List Param}
    (h : bindParams db className place .unset bound ps [] = .ok bs) :
    ∀ (i : Nat) (p : Param) (b : Binding), ps[i]? = some p → bs[bound.length + i]? = some b →
      p.default = none → b.value = none := by
  induction ps generalizing bound with
  | nil => nofun
  | cons p ps ih =>
    obtain ⟨raw, value, hraw, hvalue, h, hget, -⟩ := bindParams_cons h
    intro i q b hq hb hdefault
    cases i with
    | zero =>
      obtain rfl : p = q := Option.some.inj hq
      obtain rfl := Option.some.inj (hget.symm.trans hb)
      unfold paramValue at hraw
      rw [hdefault] at hraw
      obtain rfl := Except.ok.inj hraw
      exact (Except.ok.inj hvalue).symm
    | succ i =>
      refine ih h i q b hq ?_ hdefault
      rw [List.length_append, List.length_singleton, Nat.add_assoc, Nat.add_comm 1]
      exact hb

theorem Template.bind_nil (db : Database) (t : Template) (place : Location) (missing : Missing) :
    t.bind db [] place missing = bindParams db t.name place missing [] t.params [] :=
  if_neg (Nat.not_lt_zero _)

theorem Template.unset_of_bind {t : Template} {bs : Bindings}
    (h : t.bind db [] place .unset = .ok bs) : ∀ (i : Nat) (p : Param) (b : Binding),
      t.params[i]? = some p → bs[i]? = some b → p.default = none → b.value = none := by
  rw [Template.bind_nil] at h
  intro i p b hp hb
  refine unset_of_bindParams h i p b hp ?_
  rw [List.length_nil, Nat.zero_add]
  exact hb

end

end TypedRecords
