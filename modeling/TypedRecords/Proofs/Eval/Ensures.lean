import TypedRecords.Proofs.Outcome

/-!
# What every evaluated value satisfies

A property of values that forming a list, a dag or a reference keeps, and conversion too, holds of
whatever an expression evaluates to if it holds of the fields read and of the values bound in the
expression (`evaluate_ensures`). Beside it goes a property of types, which the element types written
in the expression have.
-/

namespace TypedRecords

/-- Every result of the evaluation satisfies `Q`. -/
def Ensures {σ α : Type} (x : Eval σ α) (Q : α → Prop) : Prop :=
  ∀ s a s', x.run s = .ok (a, s') → Q a

namespace Ensures
variable {σ α β : Type} {x : Eval σ α} {Q : α → Prop} {R : β → Prop}

theorem pure {a : α} (h : Q a) : Ensures (σ := σ) (Pure.pure a) Q := by
  intro s b s' hb
  exact (run_pure_eq_ok.1 hb).1 ▸ h

theorem throw {e : ParseError} : Ensures (σ := σ) (MonadExcept.throw e) Q :=
  fun _ _ _ h => absurd h run_throw_ne_ok

theorem lift {x : Except ParseError α} (h : ∀ a, x = .ok a → Q a) : Ensures (σ := σ) (liftM x) Q :=
  fun _ a _ ha => h a (run_lift_eq_ok.1 ha).1

theorem any (x : Eval σ α) : Ensures x fun _ => True := fun _ _ _ _ => trivial

theorem bind {f : α → Eval σ β} (hx : Ensures x Q) (hf : ∀ a, Q a → Ensures (f a) R) :
    Ensures (x >>= f) R := by
  intro s b s' h
  obtain ⟨a, s₁, ha, hb⟩ := run_bind_eq_ok.1 h
  exact hf a (hx s a s₁ ha) s₁ b s' hb

end Ensures

/-- The values bound in an expression satisfy `P`, and the element types written in it `T`. -/
inductive Expr.Bounds (P : Value → Prop) (T : Ty → Prop) : Expr → Prop
  | unset : Bounds P T .unset
  | int (number : Int64) : Bounds P T (.int number)
  | string (text : String) : Bounds P T (.string text)
  | code (text : String) : Bounds P T (.code text)
  | bits {items : List Expr} {place : Location} (h : ∀ e ∈ items, Bounds P T e) :
      Bounds P T (.bits items place)
  | list {items : List Expr} {element : Option Ty} {place : Location}
      (ht : ∀ type ∈ element, T type) (h : ∀ e ∈ items, Bounds P T e) :
      Bounds P T (.list items element place)
  | dag {operator : Expr} {args : List (DagArg Expr)} {place : Location}
      (ho : Bounds P T operator) (h : ∀ a ∈ args, ∀ e ∈ a.value, Bounds P T e) :
      Bounds P T (.dag operator args place)
  | bang {op : Bang} {args : List Expr} {place : Location} (h : ∀ e ∈ args, Bounds P T e) :
      Bounds P T (.bang op args place)
  | reference (name : String) (place : Location) : Bounds P T (.reference name place)
  | bound {value : Option Value} {type : Ty} (h : ∀ v ∈ value, P v) : Bounds P T (.bound value type)

namespace Expr
variable {P : Value → Prop} {T : Ty → Prop} {bs : Bindings}

theorem Bounds.mono {Q : Value → Prop} {U : Ty → Prop} {e : Expr} (h : e.Bounds Q U)
    (hQ : ∀ v, Q v → P v) (hU : ∀ type, U type → T type) : e.Bounds P T := by
  induction h with
  | unset | int | string | code | reference => constructor
  | bits _ ih => exact .bits ih
  | list ht _ ih => exact .list (fun type htype => hU type (ht type htype)) ih
  | dag _ _ iho ih => exact .dag iho ih
  | bang _ ih => exact .bang ih
  | bound h => exact .bound fun v hv => hQ v (h v hv)

theorem substituteAll_eq (bs : Bindings) (es : List Expr) :
    substituteAll bs es = es.map (·.substitute bs) := by
  induction es with
  | nil => rw [substituteAll, List.map_nil]
  | cons e es ih => rw [substituteAll, List.map_cons, ih]

theorem substituteArgs_eq (bs : Bindings) (as : List (DagArg Expr)) :
    substituteArgs bs as = as.map fun a => ⟨a.name, a.value.map (·.substitute bs)⟩ := by
  induction as with
  | nil => rw [substituteArgs, List.map_nil]
  | cons a as ih =>
    rcases a with ⟨name, _ | e⟩ <;> rw [substituteArgs, List.map_cons, ih] <;> rfl

/-- An expression in which nothing is bound has only values of the bindings bound after
substitution. -/
theorem Bounds.substitute {e : Expr} (h : e.Bounds (fun _ => False) T)
    (hbs : ∀ b ∈ bs, ∀ v ∈ b.value, P v) : (e.substitute bs).Bounds P T := by
  induction h with
  | unset | int | string | code =>
    rw [Expr.substitute]
    constructor
  | bits _ ih =>
    rw [Expr.substitute, substituteAll_eq]
    exact .bits (List.forall_mem_map.2 ih)
  | list ht _ ih =>
    rw [Expr.substitute, substituteAll_eq]
    exact .list ht (List.forall_mem_map.2 ih)
  | dag _ _ iho ih =>
    rw [Expr.substitute, substituteArgs_eq]
    refine .dag iho (List.forall_mem_map.2 fun a ha e he => ?_)
    obtain ⟨e', he', rfl⟩ := Option.map_eq_some_iff.1 he
    exact ih a ha e' he'
  | bang _ ih =>
    rw [Expr.substitute, substituteAll_eq]
    exact .bang (List.forall_mem_map.2 ih)
  | reference name place =>
    rw [Expr.substitute]
    cases hb : bs.find? name with
    | none => exact .reference name place
    | some b => exact .bound (hbs b (List.mem_of_find?_eq_some hb))
  | bound h =>
    rw [Expr.substitute]
    exact .bound fun v hv => (h v hv).elim

end Expr

/-- What forming values from values that satisfy `P` keeps over a database, where types that are
asked for satisfy `T`. -/
structure Value.Formed (db : Database) (P : Value → Prop) (T : Ty → Prop) : Prop where
  bits : ∀ lsbFirst, P (.bits lsbFirst)
  int : ∀ number, P (.int number)
  string : ∀ text, P (.string text)
  code : ∀ text, P (.code text)
  list : ∀ {vs ws : List Value} {element : Ty} {place : Location}, (∀ v ∈ vs, P v) → T element →
    convertElements db.store element place vs = .ok ws → P (.list element ws)
  dag : ∀ {operator : DagOperator} {args : List (DagArg Value)},
    (∀ ref, operator = .record ref → P (.record ref)) → (∀ a ∈ args, ∀ v ∈ a.value, P v) →
      P (.dag operator args)
  record : ∀ {name : String} {ref : RecordRef}, db.ref? name = some ref → P (.record ref)
  convert : ∀ {v w : Value} {type : Ty}, P v → T type → v.convert db.store type = some w → P w
  element : ∀ {element : Ty}, T (.list element) → T element
  common : ∀ {vs : List Value} {type : Ty}, (∀ v ∈ vs, P v) →
    commonType db.store vs = some type → T type

section
variable {σ : Type} {s : Scope σ} {P : Value → Prop} {T : Ty → Prop}

theorem evaluateItems_ensures {place : Location} {declared : Option Ty} {es : List Expr}
    (h : ∀ e ∈ es, Ensures (evaluate s e declared) fun v => ∀ w ∈ v, P w) :
    Ensures (evaluateItems s place declared es) fun vs => ∀ v ∈ vs, P v := by
  induction es with
  | nil =>
    rw [evaluateItems]
    exact .pure (by simp)
  | cons e es ih =>
    obtain ⟨he, hes⟩ := List.forall_mem_cons.1 h
    rw [evaluateItems]
    refine he.bind fun v hv => ?_
    cases v with
    | none => exact .throw
    | some v =>
      exact (ih hes).bind fun vs hvs => .pure (List.forall_mem_cons.2 ⟨hv v rfl, hvs⟩)

theorem evaluateArgs_ensures {as : List (DagArg Expr)}
    (h : ∀ a ∈ as, ∀ e ∈ a.value, Ensures (evaluate s e none) fun v => ∀ w ∈ v, P w) :
    Ensures (evaluateArgs s as) fun bs => ∀ b ∈ bs, ∀ v ∈ b.value, P v := by
  induction as with
  | nil =>
    rw [evaluateArgs]
    exact .pure (by simp)
  | cons a as ih =>
    obtain ⟨ha, has⟩ := List.forall_mem_cons.1 h
    rcases a with ⟨name, _ | e⟩
    · rw [evaluateArgs]
      exact (ih has).bind fun bs hbs => .pure (List.forall_mem_cons.2 ⟨by simp, hbs⟩)
    · rw [evaluateArgs]
      exact (ha e rfl).bind fun v hv => (ih has).bind fun bs hbs =>
        .pure (List.forall_mem_cons.2 ⟨hv, hbs⟩)

theorem Bang.apply_eq_ok {store : Store} {op : Bang} {place : Location} {vs : List Value} {v : Value}
    (h : op.apply store place vs = .ok v) : (∃ number, v = .int number) ∨ ∃ text, v = .string text := by
  cases op with
  | add =>
    obtain ⟨number, -, rfl⟩ := map_eq_ok.1 h
    exact .inl ⟨number, rfl⟩
  | sub =>
    match vs, h with
    | [x, y], h =>
      obtain ⟨a, -, h⟩ := bind_eq_ok.1 h
      obtain ⟨b, -, h⟩ := bind_eq_ok.1 h
      exact .inl ⟨a - b, (pure_eq_ok.1 h).symm⟩
  | strconcat =>
    obtain ⟨text, -, rfl⟩ := map_eq_ok.1 h
    exact .inr ⟨text, rfl⟩

theorem convertAll_of_convertElements {store : Store} {element : Ty} {place : Location}
    {vs ws : List Value} (h : convertElements store element place vs = .ok ws) :
    Value.convertAll store vs element = some ws := by
  induction vs generalizing ws with
  | nil => exact congrArg some (Except.ok.inj h)
  | cons v vs ih =>
    rw [convertElements] at h
    rw [Value.convertAll]
    cases hv : v.convert store element with
    | none =>
      rw [hv] at h
      cases h
    | some w =>
      rw [hv] at h
      obtain ⟨us, hus, rfl⟩ := map_eq_ok.1 h
      rw [ih hus]
      rfl

theorem makeList_eq_ok {store : Store} {declared : Option Ty} {place : Location} {vs : List Value}
    {v : Value} (h : makeList store declared place vs = .ok v) :
    ∃ element ws, declared.or (commonType store vs) = some element ∧
      convertElements store element place vs = .ok ws ∧ v = .list element ws := by
  unfold makeList at h
  cases ht : declared.or (commonType store vs) with
  | none =>
    rw [ht] at h
    cases h
  | some element =>
    rw [ht] at h
    obtain ⟨ws, hws, rfl⟩ := map_eq_ok.1 h
    exact ⟨element, ws, rfl, hws, rfl⟩

theorem dagOperatorOf_eq_record {place : Location} {v : Option Value} {ref : RecordRef}
    (h : dagOperatorOf place v = .ok (.record ref)) : v = some (.record ref) := by
  unfold dagOperatorOf at h
  split at h
  · rw [DagOperator.record.inj (Except.ok.inj h)]
  · split at h <;> cases h
  · cases h

theorem declaredElement_ensures (hP : Value.Formed s.db P T) {element expected : Option Ty}
    (ht : ∀ type ∈ element, T type) (hexpected : ∀ type ∈ expected, T type) :
    ∀ type ∈ element.or (expected.bind Ty.element?), T type := by
  intro type htype
  rcases Option.or_eq_some_iff.1 htype with h | ⟨-, h⟩
  · exact ht type h
  · obtain ⟨outer, houter, hinner⟩ := Option.bind_eq_some_iff.1 h
    cases outer with
    | list inner => exact hP.element (Option.some.inj hinner ▸ hexpected _ houter)
    | _ => cases hinner

/-- What an expression evaluates to satisfies `P` if the fields read and the values bound do. -/
theorem evaluate_ensures (hP : Value.Formed s.db P T)
    (hs : ∀ name type read, s.field name = some (type, read) →
      Ensures read fun v => ∀ w ∈ v, P w) {e : Expr} (he : e.Bounds P T) {expected : Option Ty}
    (hexpected : ∀ type ∈ expected, T type) :
    Ensures (evaluate s e expected) fun v => ∀ w ∈ v, P w := by
  have hsome : ∀ {v : Value}, P v → ∀ w ∈ some v, P w := fun hv w hw => Option.some.inj hw ▸ hv
  have hnone : ∀ type ∈ (none : Option Ty), T type := nofun
  induction he generalizing expected with
  | unset =>
    rw [evaluate]
    exact .pure (by simp)
  | int number =>
    rw [evaluate]
    exact .pure (hsome (hP.int number))
  | string text =>
    rw [evaluate]
    exact .pure (hsome (hP.string text))
  | code text =>
    rw [evaluate]
    exact .pure (hsome (hP.code text))
  | bits _ ih =>
    rw [evaluate]
    exact (Ensures.any _).bind fun _ _ => .pure (hsome (hP.bits _))
  | list ht _ ih =>
    rw [evaluate]
    have hdeclared := declaredElement_ensures hP ht hexpected
    refine (evaluateItems_ensures fun e he => ih e he hdeclared).bind fun vs hvs => ?_
    refine (Ensures.lift (Q := P) fun v hv => ?_).bind fun v hv => .pure (hsome hv)
    obtain ⟨element, ws, helement, hws, rfl⟩ := makeList_eq_ok hv
    refine hP.list hvs ?_ hws
    rcases Option.or_eq_some_iff.1 helement with h | ⟨-, h⟩
    · exact hdeclared element h
    · exact hP.common hvs h
  | @dag operator args place _ _ iho ih =>
    rw [evaluate]
    have rest : ∀ op : DagOperator, (∀ ref, op = .record ref → P (.record ref)) →
        Ensures (do return some (Value.dag op (← evaluateArgs s args))) fun v => ∀ w ∈ v, P w :=
      fun op hop => (evaluateArgs_ensures fun a ha e he => ih a ha e he hnone).bind fun as has =>
        .pure (hsome (hP.dag hop has))
    dsimp only
    split
    · rename_i name _
      exact rest (.name name) fun ref h => DagOperator.noConfusion h
    · refine (iho hnone).bind fun v hv => ?_
      exact (Ensures.lift fun op hop ref href =>
        hv _ (dagOperatorOf_eq_record (href ▸ hop))).bind rest
  | bang _ ih =>
    rw [evaluate]
    refine (Ensures.any _).bind fun values _ => ?_
    cases values with
    | none => exact .pure (by simp)
    | some vs =>
      refine (Ensures.lift (Q := P) fun v hv => ?_).bind fun v hv => .pure (hsome hv)
      rcases Bang.apply_eq_ok hv with ⟨number, rfl⟩ | ⟨text, rfl⟩
      · exact hP.int number
      · exact hP.string text
  | reference name place =>
    rw [evaluate, Scope.lookup]
    cases hf : s.field name with
    | some field => exact hs name field.1 field.2 hf
    | none =>
      cases hr : s.db.ref? name with
      | some ref => exact .pure (hsome (hP.record hr))
      | none => exact .throw
  | bound h =>
    rw [evaluate]
    exact .pure h

theorem evaluateClosed_ensures {db : Database} (hP : Value.Formed db P T) {e : Expr}
    (he : e.Bounds P T) {expected : Option Ty} (hexpected : ∀ type ∈ expected, T type)
    {v : Option Value} (h : evaluateClosed db e expected = .ok v) : ∀ w ∈ v, P w := by
  obtain ⟨⟨v, ⟨⟩⟩, hv, rfl⟩ := map_eq_ok.1 h
  exact evaluate_ensures (s := .closed db) hP nofun he hexpected () v () hv

/-- How an assignment succeeds has nothing to do with what it is for and where it is written. -/
theorem assign_elsewhere {store : Store} {target : Target} {type : Ty} {place : Location}
    {v w : Option Value} (h : assign store target type place v = .ok w) (target' : Target)
    (place' : Location) : assign store target' type place' v = .ok w := by
  cases v with
  | none => exact h
  | some u =>
    rw [assign] at h ⊢
    split at h
    · exact h
    · cases h

theorem assign_eq_ok {store : Store} {target : Target} {type : Ty} {place : Location}
    {v : Option Value} {w : Value} (h : assign store target type place v = .ok (some w)) :
    ∃ u, v = some u ∧ u.convert store type = some w := by
  cases v with
  | none => cases Except.ok.inj h
  | some u =>
    rw [assign] at h
    cases hc : u.convert store type with
    | none =>
      rw [hc] at h
      cases h
    | some x =>
      rw [hc] at h
      exact ⟨u, rfl, Except.ok.inj h ▸ hc⟩

theorem assign_ensures {db : Database} (hP : Value.Formed db P T) {target : Target} {type : Ty}
    (htype : T type) {place : Location} {v w : Option Value} (hv : ∀ x ∈ v, P x)
    (h : assign db.store target type place v = .ok w) : ∀ x ∈ w, P x := by
  intro x hx
  obtain rfl : w = some x := hx
  obtain ⟨u, hu, hc⟩ := assign_eq_ok h
  exact hP.convert (hv u hu) htype hc

end
end TypedRecords
