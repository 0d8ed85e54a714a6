import TypedRecords.Proofs.Unset.Follows
import TypedRecords.Proofs.Unset.Needs

/-!
# Evaluation with parts left unset

The same expression is evaluated under two bindings, the values of the first below those of the
second, in scopes whose fields read as values below each other. Where the second evaluation gives a
value, the first gives one below it or fails as it wants a value (`evaluate_tracks`). An unset operand
of a bit initializer stands for as many bits as its value does where it is set.
-/

namespace TypedRecords

/-- From every state that satisfies `I`, the first evaluation follows the second, unless it fails with
one of the errors `N`, and leaves such a state. -/
def Tracks {σ α β : Type} (I : σ → Prop) (N : ParseError → Prop) (R : α → β → Prop) (x : Eval σ α)
    (y : Eval Unit β) : Prop :=
  ∀ m, I m → Follows N (fun a b => R a.1 b.1 ∧ I a.2) (x.run m) (y.run ())

/-- The first evaluation gives the first result from some state that satisfies `I`, and the second
evaluation gives the second. -/
def Results {σ α β : Type} (I : σ → Prop) (x : Eval σ α) (y : Eval Unit β) (a : α) (b : β) : Prop :=
  ∃ m m', I m ∧ x.run m = .ok (a, m') ∧ y.run () = .ok (b, ())

namespace Tracks
variable {σ α β γ δ : Type} {I : σ → Prop} {N : ParseError → Prop} {R : α → β → Prop}
  {S : γ → δ → Prop}

theorem pure {a : α} {b : β} (h : R a b) : Tracks I N R (Pure.pure a) (Pure.pure b) :=
  fun _ hm => .ok ⟨h, hm⟩

theorem throw (x : Eval σ α) (e : ParseError) : Tracks I N R x (MonadExcept.throw e) :=
  fun _ _ => .error _ e

theorem pure_left {a : α} {y : Eval Unit β} (h : ∀ b, y.run () = .ok (b, ()) → R a b) :
    Tracks I N R (Pure.pure a) y :=
  fun _ hm => .ok_left fun b hb => ⟨h b.1 hb, hm⟩

theorem throw_left {e : ParseError} (h : N e) (y : Eval Unit β) :
    Tracks I N R (MonadExcept.throw e) y :=
  fun _ _ => .error_left fun _ _ => h

theorem run_lift {τ : Type} (x : Except ParseError α) (m : τ) :
    (liftM x : Eval τ α).run m = x.map (·, m) := by
  cases x <;> rfl

theorem lift {x : Except ParseError α} {y : Except ParseError β} (h : Follows N R x y) :
    Tracks I N R (liftM x) (liftM y) := by
  intro m hm
  rw [run_lift, run_lift]
  exact h.map fun a b hab => ⟨hab, hm⟩

theorem bind {x : Eval σ α} {y : Eval Unit β} {f : α → Eval σ γ} {g : β → Eval Unit δ}
    (hx : Tracks I N R x y) (hf : ∀ a b, R a b → Results I x y a b → Tracks I N S (f a) (g b)) :
    Tracks I N S (x >>= f) (y >>= g) := by
  intro m hm
  rw [StateT.run_bind, StateT.run_bind]
  refine (hx m hm).bind fun a b hab ha hb => ?_
  exact hf a.1 b.1 hab.1 ⟨m, a.2, hm, ha, hb⟩ a.2 hab.2

end Tracks

/-! ### Bindings -/

/-- The first binding is the second with its value left unset, wholly or in part. -/
structure Binding.Le (b b' : Binding) : Prop where
  name : b.name = b'.name
  type : b.type = b'.type
  value : Value.Below b.value b'.value
  fits : ∀ v ∈ b'.value, v.Fits b'.type

abbrev Bindings.Le (bs bs' : Bindings) : Prop := List.Forall₂ Binding.Le bs bs'

theorem Bindings.Le.find? {bs bs' : Bindings} (h : bs.Le bs') (name : String) :
    (bs.find? name = none ∧ bs'.find? name = none) ∨
      ∃ b b', bs.find? name = some b ∧ bs'.find? name = some b' ∧ b.Le b' :=
  find?_of_forall₂ h fun b b' hb => by rw [hb.name]

/-! ### Scopes -/

namespace Scope

/-- The bits that an operand of a bit initializer stands for, given its value. -/
def operandWidth {σ : Type} (s : Scope σ) (e : Expr) : Option Value → Nat
  | none => s.unsetWidth e
  | some v => v.bitWidth

/-- A value of the first expression is below one of the second, and where it is unset, it stands for
as many bits. -/
def OperandLe {σ : Type} (s : Scope σ) (s' : Scope Unit) (e e' : Expr) (v w : Option Value) : Prop :=
  Value.Below v w ∧ (v = none → s.unsetWidth e = s'.operandWidth e' w)

/-- Two scopes over one database with the same fields, which read as values below each other. -/
structure Tracks {σ : Type} (I : σ → Prop) (N : ParseError → Prop) (s : Scope σ) (s' : Scope Unit) :
    Prop where
  db : s.db = s'.db
  field : ∀ name, (s.field name = none ∧ s'.field name = none) ∨
    ∃ type x y, s.field name = some (type, x) ∧ s'.field name = some (type, y) ∧
      TypedRecords.Tracks I N (fun v w => Value.Below v w ∧ ∀ a ∈ w, a.Fits type) x y

section
variable {σ : Type} {s : Scope σ} {s' : Scope Unit} {e e' : Expr}

theorem unsetWidth_of_type (s : Scope σ) {type : Ty} (h : s.operandType? e = some type) :
    s.unsetWidth e = type.bitWidth := by
  unfold unsetWidth
  rw [h]
  cases type <;> rfl

theorem OperandLe.some {a : Value} {w : Option Value} (h : Value.Below (some a) w) :
    OperandLe s s' e e' (some a) w :=
  ⟨h, nofun⟩

/-- Both stand for `width` bits: where they are unset, and where the second is set. -/
theorem OperandLe.of_width {v w : Option Value} {width : Nat} (h : Value.Below v w)
    (hv : v = none → s.unsetWidth e = width) (hw : w = none → s'.unsetWidth e' = width)
    (hset : ∀ a ∈ w, a.bitWidth = width) : OperandLe s s' e e' v w := by
  refine ⟨h, fun hnone => (hv hnone).trans ?_⟩
  cases w with
  | none => exact (hw rfl).symm
  | some a => exact (hset a rfl).symm

theorem length_operandBits {place : Location} {w : Option Value} {bits : List (Option Bool)}
    (h : s'.operandBits place e' w = .ok bits) : bits.length = s'.operandWidth e' w := by
  cases w with
  | none => rw [← Except.ok.inj h, List.length_replicate, operandWidth]
  | some w =>
    cases w with
    | bit b => exact Except.ok.inj h ▸ rfl
    | int number =>
      rw [operandBits] at h
      split at h
      · exact Except.ok.inj h ▸ rfl
      · split at h
        · exact Except.ok.inj h ▸ rfl
        · cases h
    | bits lsbFirst => rw [← Except.ok.inj h, List.length_reverse, operandWidth, Value.bitWidth]
    | _ => cases h

theorem operandBits_follows {N : ParseError → Prop} {place : Location} {v w : Option Value}
    (h : OperandLe s s' e e' v w) :
    Follows N (List.Forall₂ BitLe) (s.operandBits place e v) (s'.operandBits place e' w) := by
  intro bits hbits
  cases v with
  | none =>
    refine .inl ⟨_, rfl, ?_⟩
    rw [h.2 rfl, ← length_operandBits hbits, List.forall₂_iff_get]
    exact ⟨List.length_replicate, fun i _ _ => .inl (by simp)⟩
  | some v =>
    cases w with
    | none => cases h.1.eq_none
    | some w =>
      cases h.1.le with
      | refl => exact .inl ⟨bits, by cases v <;> exact hbits, bits_refl bits⟩
      | bits hl =>
        obtain rfl := Except.ok.inj hbits
        exact .inl ⟨_, rfl, List.forall₂_reverse_iff.2 hl⟩
      | _ => cases hbits

end

namespace Tracks
variable {σ : Type} {I : σ → Prop} {N : ParseError → Prop} {s : Scope σ} {s' : Scope Unit}
  {bs bs' : Bindings}

theorem lookup (h : s.Tracks I N s') (name : String) (place : Location) :
    TypedRecords.Tracks I N (s.OperandLe s' (.reference name place) (.reference name place))
      (s.lookup name place) (s'.lookup name place) := by
  unfold Scope.lookup
  rcases h.field name with ⟨hs, hs'⟩ | ⟨type, x, y, hs, hs', hxy⟩
  · rw [hs, hs', h.db]
    dsimp only
    split
    · exact .pure (.some (.refl _))
    · exact .throw _ _
  · rw [hs, hs']
    have ht : s.operandType? (.reference name place) = some type := by
      simp only [operandType?, hs, Option.map_some]
    have ht' : s'.operandType? (.reference name place) = some type := by
      simp only [operandType?, hs', Option.map_some]
    intro m hm
    refine (hxy m hm).mono fun a b hab _ _ => ⟨?_, hab.2⟩
    obtain ⟨⟨hbelow, hfits⟩, -⟩ := hab
    exact .of_width hbelow (fun _ => s.unsetWidth_of_type ht) (fun _ => s'.unsetWidth_of_type ht')
      fun c hc => (hfits c hc).bitWidth

theorem plainName?_substitute (h : s.Tracks I N s') (hbs : bs.Le bs') (e : Expr) :
    s.plainName? (e.substitute bs) = s'.plainName? (e.substitute bs') := by
  cases e with
  | reference name place =>
    rw [Expr.substitute, Expr.substitute]
    rcases hbs.find? name with ⟨hb, hb'⟩ | ⟨b, b', hb, hb', -⟩
    · rw [hb, hb']
      rcases h.field name with ⟨hs, hs'⟩ | ⟨type, x, y, hs, hs', -⟩
      · simp only [plainName?, hs, hs', h.db, Option.isNone_none]
      · simp only [plainName?, hs, hs', Option.isNone_some, Bool.false_and]
    · rw [hb, hb']
      rfl
  | _ =>
    rw [Expr.substitute, Expr.substitute]
    rfl

end Tracks
end Scope

/-! ### Expressions -/

theorem Bang.bitWidth_apply {store : Store} {op : Bang} {place : Location} {vs : List Value}
    {v : Value} (h : op.apply store place vs = .ok v) : v.bitWidth = 1 := by
  rcases Bang.apply_eq_ok h with ⟨number, rfl⟩ | ⟨text, rfl⟩ <;> rfl

section
variable {σ : Type} {I : σ → Prop} {N : ParseError → Prop} {s : Scope σ} {s' : Scope Unit}
  {bs bs' : Bindings} {E : Expr → Option Value → Option Value → Prop}

/-- Whatever an expression evaluates to in the two scopes is related by `E`. -/
def Comparable (I : σ → Prop) (s : Scope σ) (s' : Scope Unit) (bs bs' : Bindings)
    (E : Expr → Option Value → Option Value → Prop) : Prop :=
  ∀ e expected v w, Results I (evaluate s (e.substitute bs) expected)
    (evaluate s' (e.substitute bs') expected) v w → E e v w

/-- The first value is below the second, and they are what one of the expressions evaluates to. -/
abbrev ItemLe (E : Expr → Option Value → Option Value → Prop) (es : List Expr) : Value → Value → Prop :=
  Value.LeAnd fun v w => ∃ e ∈ es, E e (some v) (some w)

theorem ItemLe.tail {e : Expr} {es : List Expr} {v w : Value} (h : ItemLe E es v w) :
    ItemLe E (e :: es) v w :=
  ⟨h.1, h.2.imp fun _ hx => ⟨List.mem_cons_of_mem _ hx.1, hx.2⟩⟩

mutual

/-- Under bindings below others an expression evaluates to a value below, or fails as it wants a
value. -/
theorem evaluate_tracks (h : s.Tracks I N s') (hbs : bs.Le bs') (hE : Comparable I s s' bs bs' E) :
    ∀ (e : Expr) (expected : Option Ty), (∀ err, e.Wants s'.db.store E err → N err) →
      Tracks I N (s.OperandLe s' (e.substitute bs) (e.substitute bs'))
        (evaluate s (e.substitute bs) expected) (evaluate s' (e.substitute bs') expected)
  | .unset, _, _ => by
    rw [Expr.substitute, Expr.substitute, evaluate, evaluate]
    exact .pure ⟨.refl _, fun _ => rfl⟩
  | .int _, _, _ | .string _, _, _ | .code _, _, _ => by
    rw [Expr.substitute, Expr.substitute, evaluate, evaluate]
    exact .pure (.some (.refl _))
  | .bound value type, _, _ => by
    rw [Expr.substitute, Expr.substitute, evaluate, evaluate]
    refine .pure ⟨.refl _, fun hnone => ?_⟩
    subst hnone
    rfl
  | .reference name place, _, _ => by
    rw [Expr.substitute, Expr.substitute]
    rcases hbs.find? name with ⟨hb, hb'⟩ | ⟨b, b', hb, hb', hle⟩
    · rw [hb, hb', evaluate, evaluate]
      exact h.lookup name place
    · rw [hb, hb']
      dsimp only
      rw [evaluate, evaluate]
      refine .pure (.of_width hle.value (fun hv => ?_) (fun hw => ?_)
        fun a ha => (hle.fits a ha).bitWidth)
      · exact hle.type ▸ s.unsetWidth_of_type (by rw [hv]; rfl)
      · exact s'.unsetWidth_of_type (by rw [hw]; rfl)
  | .bits items place, _, hN => by
    rw [Expr.substitute, Expr.substitute, evaluate, evaluate]
    refine (evaluateBits_tracks h hbs hE place items fun e he err hw => hN err (.child he hw)).bind
      fun bits bits' hbits _ => ?_
    exact .pure (.some (.some (.bits (List.forall₂_reverse_iff.2 hbits))))
  | .list items element place, expected, hN => by
    rw [Expr.substitute, Expr.substitute, evaluate, evaluate, h.db]
    refine (evaluateItems_tracks h hbs hE place _ items
      (fun e he err hw => hN err (.child he hw))
      fun e he w hw => hN _ (Expr.Needs.item he hw).wants).bind fun vs vs' hvs _ => ?_
    refine (Tracks.lift (makeList_follows hvs _ fun v w type htype hP hlacks => ?_)).bind
      fun v v' hv _ => .pure (.some (.some hv))
    obtain ⟨e, he, hvw⟩ := hP
    refine hN _ (Expr.Needs.element (fun t ht => htype t ?_) he hvw hlacks).wants
    rw [Option.mem_def.1 ht]
    rfl
  | .dag operator args place, _, hN => by
    rw [Expr.substitute, Expr.substitute, evaluate, evaluate, h.plainName?_substitute hbs]
    have rest : ∀ op op' : DagOperator, op = op' →
        Tracks I N (s.OperandLe s' (.dag (operator.substitute bs) (Expr.substituteArgs bs args) place)
            (.dag (operator.substitute bs') (Expr.substituteArgs bs' args) place))
          (do return some (Value.dag op (← evaluateArgs s (Expr.substituteArgs bs args))))
          (do return some (Value.dag op' (← evaluateArgs s' (Expr.substituteArgs bs' args)))) := by
      rintro op - rfl
      refine (evaluateArgs_tracks h hbs hE args fun a ha e he err hw => hN err (.child ?_ hw)).bind
        fun as as' has _ => .pure (.some (.some (.of_args has)))
      exact List.mem_cons_of_mem _ (List.mem_filterMap.2 ⟨a, ha, he⟩)
    dsimp only
    split
    · exact (Tracks.pure rfl).bind fun op op' hop _ => rest op op' hop
    · refine (evaluate_tracks h hbs hE operator none fun err hw =>
        hN err (.child (List.mem_cons_self ..) hw)).bind fun v v' hv hvv' => ?_
      refine (Tracks.lift (dagOperatorOf_follows hv.1 fun w hnone hsome => ?_)).bind
        fun op op' hop _ => rest op op' hop
      subst hnone hsome
      exact hN _ (Expr.Needs.operator (hE _ _ _ _ hvv')).wants
  | .bang op args place, _, hN => by
    rw [Expr.substitute, Expr.substitute, evaluate, evaluate, h.db]
    refine (evaluateOperands_tracks h hbs hE args fun e he err hw => hN err (.child he hw)).bind
      fun vs vs' hvs _ => ?_
    cases vs with
    | none =>
      -- unset it counts as one bit, and so does every result of an operation
      refine .pure_left fun w hw => .of_width (.none w) (fun _ => rfl) (fun _ => rfl) fun a ha => ?_
      obtain rfl : w = some a := ha
      cases vs' with
      | none => cases (run_pure_eq_ok.1 hw).1
      | some vs' =>
        obtain ⟨v, ⟨⟩, hv, hw⟩ := run_bind_eq_ok.1 hw
        obtain rfl := Option.some.inj (run_pure_eq_ok.1 hw).1
        exact Bang.bitWidth_apply (run_lift_eq_ok.1 hv).1
    | some vs =>
      obtain ⟨vs', rfl, hle⟩ := hvs vs rfl
      refine (Tracks.lift (op.apply_follows hle fun v w hop hP hlacks => ?_)).bind
        fun v v' hv _ => .pure (.some (.some hv))
      obtain ⟨e, he, hvw⟩ := hP
      exact hN _ (Expr.Needs.operand hop he hvw hlacks).wants

theorem evaluateBits_tracks (h : s.Tracks I N s') (hbs : bs.Le bs')
    (hE : Comparable I s s' bs bs' E) (place : Location) :
    ∀ es : List Expr, (∀ e ∈ es, ∀ err, e.Wants s'.db.store E err → N err) →
      Tracks I N (List.Forall₂ BitLe) (evaluateBits s place (Expr.substituteAll bs es))
        (evaluateBits s' place (Expr.substituteAll bs' es))
  | [], _ => .pure .nil
  | e :: es, hN => by
    obtain ⟨he, hes⟩ := List.forall_mem_cons.1 hN
    rw [Expr.substituteAll, Expr.substituteAll, evaluateBits, evaluateBits]
    refine (evaluate_tracks h hbs hE e none he).bind fun v v' hv _ => ?_
    refine (Tracks.lift (Scope.operandBits_follows hv)).bind fun bits bits' hbits _ => ?_
    refine (evaluateBits_tracks h hbs hE place es hes).bind fun rest rest' hrest _ => ?_
    exact .pure (List.rel_append hbits hrest)

theorem evaluateItems_tracks (h : s.Tracks I N s') (hbs : bs.Le bs')
    (hE : Comparable I s s' bs bs' E) (place : Location) (declared : Option Ty) :
    ∀ es : List Expr, (∀ e ∈ es, ∀ err, e.Wants s'.db.store E err → N err) →
      (∀ e ∈ es, ∀ w, E e none (some w) → N ⟨.elementUnset, place⟩) →
      Tracks I N (List.Forall₂ (ItemLe E es))
        (evaluateItems s place declared (Expr.substituteAll bs es))
        (evaluateItems s' place declared (Expr.substituteAll bs' es))
  | [], _, _ => .pure .nil
  | e :: es, hN, hunset => by
    obtain ⟨he, hes⟩ := List.forall_mem_cons.1 hN
    obtain ⟨heunset, hesunset⟩ := List.forall_mem_cons.1 hunset
    rw [Expr.substituteAll, Expr.substituteAll, evaluateItems, evaluateItems]
    refine (evaluate_tracks h hbs hE e declared he).bind fun v v' hv hvv' => ?_
    have hvv' := hE _ _ _ _ hvv'
    cases v' with
    | none => exact .throw _ _
    | some v' =>
      cases v with
      | none => exact .throw_left (heunset v' hvv') _
      | some v =>
        refine (evaluateItems_tracks h hbs hE place declared es hes hesunset).bind
          fun vs vs' hvs _ => .pure (.cons ⟨hv.1.le, e, List.mem_cons_self .., hvv'⟩ ?_)
        exact hvs.imp fun _ _ hvw => hvw.tail

theorem evaluateArgs_tracks (h : s.Tracks I N s') (hbs : bs.Le bs')
    (hE : Comparable I s s' bs bs' E) :
    ∀ as : List (DagArg Expr), (∀ a ∈ as, ∀ e ∈ a.value, ∀ err, e.Wants s'.db.store E err → N err) →
      Tracks I N (List.Forall₂ Value.ArgLe)
        (evaluateArgs s (Expr.substituteArgs bs as)) (evaluateArgs s' (Expr.substituteArgs bs' as))
  | [], _ => .pure .nil
  | ⟨name, some e⟩ :: as, hN => by
    obtain ⟨ha, has⟩ := List.forall_mem_cons.1 hN
    rw [Expr.substituteArgs, Expr.substituteArgs, evaluateArgs, evaluateArgs]
    refine (evaluate_tracks h hbs hE e none (ha e rfl)).bind fun v v' hv _ => ?_
    exact (evaluateArgs_tracks h hbs hE as has).bind fun bs bs' hargs _ =>
      .pure (.cons ⟨rfl, hv.1⟩ hargs)
  | ⟨name, none⟩ :: as, hN => by
    rw [Expr.substituteArgs, Expr.substituteArgs, evaluateArgs, evaluateArgs]
    exact (evaluateArgs_tracks h hbs hE as (List.forall_mem_cons.1 hN).2).bind fun bs bs' hargs _ =>
      .pure (.cons ⟨rfl, .none none⟩ hargs)

/-- Where all operands are set in the first evaluation, they are in the second. -/
theorem evaluateOperands_tracks (h : s.Tracks I N s') (hbs : bs.Le bs')
    (hE : Comparable I s s' bs bs' E) :
    ∀ es : List Expr, (∀ e ∈ es, ∀ err, e.Wants s'.db.store E err → N err) →
      Tracks I N (fun vs vs' => ∀ us ∈ vs, ∃ us' ∈ vs', List.Forall₂ (ItemLe E es) us us')
        (evaluateOperands s (Expr.substituteAll bs es))
        (evaluateOperands s' (Expr.substituteAll bs' es))
  | [], _ => .pure fun us hus => ⟨[], rfl, Option.some.inj hus ▸ .nil⟩
  | e :: es, hN => by
    obtain ⟨he, hes⟩ := List.forall_mem_cons.1 hN
    rw [Expr.substituteAll, Expr.substituteAll, evaluateOperands, evaluateOperands]
    refine (evaluate_tracks h hbs hE e none he).bind fun v v' hv hvv' => ?_
    cases v with
    | none => exact .pure_left fun _ _ => nofun
    | some v =>
      cases v' with
      | none => cases hv.1.eq_none
      | some v' =>
        refine (evaluateOperands_tracks h hbs hE es hes).bind fun vs vs' hvs _ =>
          .pure fun us hus => ?_
        obtain ⟨rest, hrest, rfl⟩ := Option.map_eq_some_iff.1 hus
        obtain ⟨rest', hrest', hle⟩ := hvs rest hrest
        refine ⟨v' :: rest', Option.map_eq_some_iff.2 ⟨rest', hrest', rfl⟩,
          .cons ⟨hv.1.le, e, List.mem_cons_self .., hE _ _ _ _ hvv'⟩ ?_⟩
        exact hle.imp fun _ _ hvw => hvw.tail

end

end
end TypedRecords
