import TypedRecords.Proofs.Together.Values

/-!
# Similar expressions

Expressions are `Similar` where they differ in places and in names only. Names that are parameters in
both are gone after substitution, if they stand for parameters at the same position (`Corresponds`). What
then is left of a database in an evaluation are the defs that the names lead to: similar expressions over
databases with the same defs under these names evaluate together (`evaluate_together`).
-/

namespace TypedRecords

mutual

/-- The expressions are the same but for places and names. Names that stand at one place are related by
`N`, and the references in values that are bound lead to positions that are `seen`. -/
inductive Expr.Similar (N : String → String → Prop) (seen : Nat → Prop) : Expr → Expr → Prop
  | unset : Expr.Similar N seen .unset .unset
  | int (number : Int64) : Expr.Similar N seen (.int number) (.int number)
  | string (text : String) : Expr.Similar N seen (.string text) (.string text)
  | code (text : String) : Expr.Similar N seen (.code text) (.code text)
  | bits {items items' : List Expr} {place place' : Location}
      (h : Expr.SimilarAll N seen items items') :
      Expr.Similar N seen (.bits items place) (.bits items' place')
  | list {items items' : List Expr} {element : Option Ty} {place place' : Location}
      (h : Expr.SimilarAll N seen items items') :
      Expr.Similar N seen (.list items element place) (.list items' element place')
  | dag {operator operator' : Expr} {args args' : List (DagArg Expr)} {place place' : Location}
      (ho : Expr.Similar N seen operator operator') (h : Expr.SimilarArgs N seen args args') :
      Expr.Similar N seen (.dag operator args place) (.dag operator' args' place')
  | bang {op : Bang} {args args' : List Expr} {place place' : Location}
      (h : Expr.SimilarAll N seen args args') :
      Expr.Similar N seen (.bang op args place) (.bang op args' place')
  | reference {name name' : String} {place place' : Location} (h : N name name') :
      Expr.Similar N seen (.reference name place) (.reference name' place')
  | bound {value : Option Value} {type : Ty} (h : ∀ v ∈ value, v.LeadsTo seen) :
      Expr.Similar N seen (.bound value type) (.bound value type)

inductive Expr.SimilarAll (N : String → String → Prop) (seen : Nat → Prop) :
    List Expr → List Expr → Prop
  | nil : Expr.SimilarAll N seen [] []
  | cons {e e' : Expr} {es es' : List Expr} (h : Expr.Similar N seen e e')
      (hrest : Expr.SimilarAll N seen es es') : Expr.SimilarAll N seen (e :: es) (e' :: es')

inductive Expr.SimilarArgs (N : String → String → Prop) (seen : Nat → Prop) :
    List (DagArg Expr) → List (DagArg Expr) → Prop
  | nil : Expr.SimilarArgs N seen [] []
  | value {name : Option String} {e e' : Expr} {as as' : List (DagArg Expr)}
      (h : Expr.Similar N seen e e') (hrest : Expr.SimilarArgs N seen as as') :
      Expr.SimilarArgs N seen (⟨name, some e⟩ :: as) (⟨name, some e'⟩ :: as')
  | none {name : Option String} {as as' : List (DagArg Expr)}
      (hrest : Expr.SimilarArgs N seen as as') :
      Expr.SimilarArgs N seen (⟨name, .none⟩ :: as) (⟨name, .none⟩ :: as')

end

/-! ### Parameters -/

/-- The name `a` under the parameters `xs` is what `b` is under the parameters `ys`: the parameter at
one position, or else no parameter, and then `N` relates them. -/
inductive Corresponds (N : String → String → Prop) :
    List String → List String → String → String → Prop
  | here {xs ys : List String} {a b : String} : Corresponds N (a :: xs) (b :: ys) a b
  | there {xs ys : List String} {x y a b : String} (hx : x ≠ a) (hy : y ≠ b)
      (h : Corresponds N xs ys a b) : Corresponds N (x :: xs) (y :: ys) a b
  | free {a b : String} (h : N a b) : Corresponds N [] [] a b

/-- The bindings are the same but for their names, which are `xs` and `ys`. -/
structure Bindings.Similar (seen : Nat → Prop) (xs ys : List String) (bs bs' : Bindings) : Prop where
  values : List.Forall₂ (fun b b' => b.type = b'.type ∧ b.value = b'.value ∧
    ∀ v ∈ b.value, v.LeadsTo seen) bs bs'
  left : bs.map Binding.name = xs
  right : bs'.map Binding.name = ys

theorem Corresponds.self {N : String → String → Prop} {a : String} (h : N a a) (xs : List String) :
    Corresponds N xs xs a a := by
  induction xs with
  | nil => exact .free h
  | cons x xs ih =>
    by_cases hx : x = a
    · exact hx ▸ .here
    · exact .there hx hx ih

theorem Corresponds.find? {N : String → String → Prop} {seen : Nat → Prop} {bs bs' : Bindings}
    (hbs : List.Forall₂ (fun b b' : Binding => b.type = b'.type ∧ b.value = b'.value ∧
      ∀ v ∈ b.value, v.LeadsTo seen) bs bs') {a b : String}
    (h : Corresponds N (bs.map Binding.name) (bs'.map Binding.name) a b) :
    (∃ x y, bs.find? a = some x ∧ bs'.find? b = some y ∧ x.type = y.type ∧ x.value = y.value ∧
      ∀ v ∈ x.value, v.LeadsTo seen) ∨ (bs.find? a = none ∧ bs'.find? b = none ∧ N a b) := by
  induction hbs with
  | nil => cases h with | free h => exact .inr ⟨rfl, rfl, h⟩
  | @cons x y xs ys hxy _ ih =>
    rw [List.map_cons, List.map_cons] at h
    unfold Bindings.find? at ih ⊢
    cases h with
    | here =>
      exact .inl ⟨x, y, List.find?_cons_of_pos (decide_eq_true rfl),
        List.find?_cons_of_pos (decide_eq_true rfl), hxy⟩
    | there hx hy h =>
      rw [List.find?_cons_of_neg (by simpa using hx), List.find?_cons_of_neg (by simpa using hy)]
      exact ih h

section
variable {N : String → String → Prop} {seen : Nat → Prop} {xs ys : List String} {bs bs' : Bindings}

mutual

/-- Under similar bindings parameters are replaced alike, and the names left are those that are none. -/
theorem Expr.Similar.substitute (hbs : bs.Similar seen xs ys bs') : ∀ {e e' : Expr},
    e.Similar (Corresponds N xs ys) seen e' → (e.substitute bs).Similar N seen (e'.substitute bs')
  | .unset, _, .unset => .unset
  | .int number, _, .int _ => .int number
  | .string text, _, .string _ => .string text
  | .code text, _, .code _ => .code text
  | .bound _ _, _, .bound h => .bound h
  | .bits items _, _, .bits h => .bits (Expr.SimilarAll.substitute hbs h)
  | .list items _ _, _, .list h => .list (Expr.SimilarAll.substitute hbs h)
  | .dag operator args _, _, .dag ho h =>
    .dag (Expr.Similar.substitute hbs ho) (Expr.SimilarArgs.substitute hbs h)
  | .bang _ args _, _, .bang h => .bang (Expr.SimilarAll.substitute hbs h)
  | .reference a _, _, .reference h => by
    rw [← hbs.left, ← hbs.right] at h
    rw [Expr.substitute, Expr.substitute]
    rcases h.find? hbs.values with ⟨x, y, hx, hy, htype, hvalue, hseen⟩ | ⟨hx, hy, hN⟩
    · rw [hx, hy]
      dsimp only
      rw [← htype, ← hvalue]
      exact .bound hseen
    · rw [hx, hy]
      exact .reference hN

theorem Expr.SimilarAll.substitute (hbs : bs.Similar seen xs ys bs') : ∀ {es es' : List Expr},
    Expr.SimilarAll (Corresponds N xs ys) seen es es' →
      Expr.SimilarAll N seen (Expr.substituteAll bs es) (Expr.substituteAll bs' es')
  | [], _, .nil => .nil
  | _ :: _, _, .cons h hrest =>
    .cons (Expr.Similar.substitute hbs h) (Expr.SimilarAll.substitute hbs hrest)

theorem Expr.SimilarArgs.substitute (hbs : bs.Similar seen xs ys bs') :
    ∀ {as as' : List (DagArg Expr)}, Expr.SimilarArgs (Corresponds N xs ys) seen as as' →
      Expr.SimilarArgs N seen (Expr.substituteArgs bs as) (Expr.substituteArgs bs' as')
  | [], _, .nil => .nil
  | ⟨_, some _⟩ :: _, _, .value h hrest =>
    .value (Expr.Similar.substitute hbs h) (Expr.SimilarArgs.substitute hbs hrest)
  | ⟨_, .none⟩ :: _, _, .none hrest => .none (Expr.SimilarArgs.substitute hbs hrest)

end

end

/-! ### Databases and scopes -/

/-- Both databases have the same defs under the names that satisfy `names`, and the positions `seen` of
them have the same records. -/
structure Database.AgreesAt (names : String → Prop) (seen : Nat → Prop) (db db' : Database) : Prop where
  ref? : ∀ name, names name → db.ref? name = db'.ref? name
  target : ∀ name ref, names name → db.ref? name = some ref → seen ref.target
  store : db.store.AgreesAt seen db'.store

/-- A name that stands for itself, one of `names`. -/
def SameName (names : String → Prop) (a b : String) : Prop := a = b ∧ names a

section
variable {σ : Type} {I : σ → Prop} {names : String → Prop} {seen : Nat → Prop}

/-- Both scopes have the same fields, which are read in parallel, over databases that agree. -/
structure Scope.AgreesAt (I : σ → Prop) (names : String → Prop) (seen : Nat → Prop) (s t : Scope σ) :
    Prop where
  db : s.db.AgreesAt names seen t.db
  field : ∀ name, (s.field name = none ∧ t.field name = none) ∨
    ∃ type x y, s.field name = some (type, x) ∧ t.field name = some (type, y) ∧
      Parallel I (fun v => ∀ w ∈ v, w.LeadsTo seen) x y

namespace Scope.AgreesAt
variable {s t : Scope σ}

theorem lookup (h : s.AgreesAt I names seen t) {name : String} (hname : names name)
    (place place' : Location) :
    Parallel I (fun v => ∀ w ∈ v, w.LeadsTo seen) (s.lookup name place) (t.lookup name place') := by
  unfold Scope.lookup
  rcases h.field name with ⟨hs, ht⟩ | ⟨type, x, y, hs, ht, hxy⟩
  · rw [hs, ht, ← h.db.ref? name hname]
    dsimp only
    cases href : s.db.ref? name with
    | none => exact .throw _ _
    | some ref =>
      have htarget := h.db.target name ref hname href
      exact .pure fun w hw => Option.some.inj hw ▸ Value.leadsTo_record htarget
  · rw [hs, ht]
    exact hxy

theorem plainName? (h : s.AgreesAt I names seen t) {e e' : Expr}
    (he : e.Similar (SameName names) seen e') : s.plainName? e = t.plainName? e' := by
  cases he with
  | @reference name name' _ _ hname =>
    obtain ⟨rfl, hname⟩ := hname
    rcases h.field name with ⟨hs, ht⟩ | ⟨type, x, y, hs, ht, -⟩
    · simp only [Scope.plainName?, hs, ht, h.db.ref? name hname, Option.isNone_none]
    · simp only [Scope.plainName?, hs, ht, Option.isNone_some, Bool.false_and]
  | _ => rfl

theorem operandType? (h : s.AgreesAt I names seen t) {e e' : Expr}
    (he : e.Similar (SameName names) seen e') : s.operandType? e = t.operandType? e' := by
  cases he with
  | @reference name name' _ _ hname =>
    obtain ⟨rfl, -⟩ := hname
    rcases h.field name with ⟨hs, ht⟩ | ⟨type, x, y, hs, ht, -⟩
    · simp only [Scope.operandType?, hs, ht, Option.map_none]
    · simp only [Scope.operandType?, hs, ht, Option.map_some]
  | @bound value type _ => cases value <;> rfl
  | _ => rfl

theorem operandBits (h : s.AgreesAt I names seen t) {e e' : Expr}
    (he : e.Similar (SameName names) seen e') (place place' : Location) (v : Option Value) :
    Together Eq (s.operandBits place e v) (t.operandBits place' e' v) := by
  cases v with
  | none =>
    simp only [Scope.operandBits, Scope.unsetWidth, h.operandType? he]
    exact .ok rfl
  | some v =>
    cases v with
    | int number =>
      simp only [Scope.operandBits]
      split
      · exact .ok rfl
      · split
        · exact .ok rfl
        · exact .error _ _
    | bit _ | bits _ => exact .ok rfl
    | string _ | code _ | list _ _ | dag _ _ | record _ => exact .error _ _

end Scope.AgreesAt

/-! ### Evaluation -/

variable {s t : Scope σ}

mutual

/-- Similar expressions evaluate together where the names in them have the same defs. -/
theorem evaluate_together (h : s.AgreesAt I names seen t) : ∀ {e e' : Expr},
    e.Similar (SameName names) seen e' → ∀ expected : Option Ty,
      Parallel I (fun v => ∀ w ∈ v, w.LeadsTo seen) (evaluate s e expected) (evaluate t e' expected)
  | .unset, _, .unset, _ => by
    rw [evaluate, evaluate]
    exact .pure nofun
  | .int _, _, .int _, _ | .string _, _, .string _, _ | .code _, _, .code _, _ => by
    rw [evaluate, evaluate]
    refine .pure fun w hw ref href => ?_
    obtain rfl := Option.some.inj hw
    cases href
  | .bound _ _, _, .bound hv, _ => by
    rw [evaluate, evaluate]
    exact .pure hv
  | .reference _ _, _, .reference hname, _ => by
    obtain ⟨rfl, hname⟩ := hname
    rw [evaluate, evaluate]
    exact h.lookup hname _ _
  | .bits _ place, .bits _ place', .bits hes, _ => by
    rw [evaluate, evaluate]
    refine (evaluateBits_together h hes place place').bind fun bits _ => .pure fun w hw ref href => ?_
    obtain rfl := Option.some.inj hw
    cases href
  | .list _ element place, .list _ _ place', .list hes, expected => by
    rw [evaluate, evaluate]
    refine (evaluateItems_together h hes place place' _).bind fun vs hvs => ?_
    refine (Parallel.lift (makeList_together h.db.store _ place place' hvs)).bind fun v hv => ?_
    exact .pure fun w hw => Option.some.inj hw ▸ hv
  | .dag operator args place, .dag operator' args' place', .dag ho has, _ => by
    rw [evaluate, evaluate, ← h.plainName? ho]
    have rest : ∀ op : DagOperator, (∀ ref, op = .record ref → seen ref.target) →
        Parallel I (fun v => ∀ w ∈ v, w.LeadsTo seen)
          (do return some (Value.dag op (← evaluateArgs s args)))
          (do return some (Value.dag op (← evaluateArgs t args'))) := fun op hop =>
      (evaluateArgs_together h has).bind fun as has =>
        .pure fun w hw => Option.some.inj hw ▸ Value.leadsTo_dag hop has
    dsimp only
    split
    · rename_i name _
      exact rest (.name name) nofun
    · exact (evaluate_together h ho none).bind fun v hv =>
        (Parallel.lift (dagOperatorOf_together place place' hv)).bind rest
  | .bang op args place, .bang _ _ place', .bang has, _ => by
    rw [evaluate, evaluate]
    refine (evaluateOperands_together h has).bind fun values hvalues => ?_
    cases values with
    | none => exact .pure nofun
    | some vs =>
      refine (Parallel.lift (Bang.apply_together h.db.store op place place' (hvalues vs rfl))).bind
        fun v hv => ?_
      exact .pure fun w hw => Option.some.inj hw ▸ hv

theorem evaluateBits_together (h : s.AgreesAt I names seen t) : ∀ {es es' : List Expr},
    Expr.SimilarAll (SameName names) seen es es' → ∀ place place' : Location,
      Parallel I (fun _ => True) (evaluateBits s place es) (evaluateBits t place' es')
  | [], _, .nil, _, _ => .pure trivial
  | _ :: _, _, .cons he hes, place, place' => by
    rw [evaluateBits, evaluateBits]
    refine (evaluate_together h he none).bind fun v _ => ?_
    have hbits : Parallel I (fun _ => True) (liftM (s.operandBits place _ v))
        (liftM (t.operandBits place' _ v)) :=
      .lift ((h.operandBits he place place' v).imp fun _ _ _ _ hab => ⟨hab, trivial⟩)
    exact hbits.bind fun _ _ => (evaluateBits_together h hes place place').bind fun _ _ =>
      .pure trivial

theorem evaluateItems_together (h : s.AgreesAt I names seen t) : ∀ {es es' : List Expr},
    Expr.SimilarAll (SameName names) seen es es' → ∀ (place place' : Location) (declared : Option Ty),
      Parallel I (fun vs => ∀ v ∈ vs, v.LeadsTo seen) (evaluateItems s place declared es)
        (evaluateItems t place' declared es')
  | [], _, .nil, _, _, _ => .pure nofun
  | _ :: _, _, .cons he hes, place, place', declared => by
    rw [evaluateItems, evaluateItems]
    refine (evaluate_together h he declared).bind fun v hv => ?_
    cases v with
    | none => exact .throw _ _
    | some v =>
      exact (evaluateItems_together h hes place place' declared).bind fun vs hvs =>
        .pure (List.forall_mem_cons.2 ⟨hv v rfl, hvs⟩)

theorem evaluateArgs_together (h : s.AgreesAt I names seen t) : ∀ {as as' : List (DagArg Expr)},
    Expr.SimilarArgs (SameName names) seen as as' →
      Parallel I (fun bs => ∀ b ∈ bs, ∀ v ∈ b.value, v.LeadsTo seen) (evaluateArgs s as)
        (evaluateArgs t as')
  | [], _, .nil => .pure nofun
  | ⟨_, some _⟩ :: _, _, .value he has => by
    rw [evaluateArgs, evaluateArgs]
    exact (evaluate_together h he none).bind fun v hv => (evaluateArgs_together h has).bind
      fun bs hbs => .pure (List.forall_mem_cons.2 ⟨hv, hbs⟩)
  | ⟨_, .none⟩ :: _, _, .none has => by
    rw [evaluateArgs, evaluateArgs]
    exact (evaluateArgs_together h has).bind fun bs hbs =>
      .pure (List.forall_mem_cons.2 ⟨nofun, hbs⟩)

theorem evaluateOperands_together (h : s.AgreesAt I names seen t) : ∀ {es es' : List Expr},
    Expr.SimilarAll (SameName names) seen es es' →
      Parallel I (fun vs => ∀ us ∈ vs, ∀ v ∈ us, v.LeadsTo seen) (evaluateOperands s es)
        (evaluateOperands t es')
  | [], _, .nil => by
    rw [evaluateOperands, evaluateOperands]
    exact .pure fun us hus => Option.some.inj hus ▸ List.forall_mem_nil _
  | _ :: _, _, .cons he hes => by
    rw [evaluateOperands, evaluateOperands]
    refine (evaluate_together h he none).bind fun v hv => ?_
    cases v with
    | none => exact .pure nofun
    | some v =>
      refine (evaluateOperands_together h hes).bind fun vs hvs => .pure fun us hus => ?_
      obtain ⟨ws, hws, rfl⟩ := Option.map_eq_some_iff.1 hus
      exact List.forall_mem_cons.2 ⟨hv v rfl, hvs ws hws⟩

end

/-- What may name defs only evaluates together over databases that agree. -/
theorem evaluateClosed_together {db db' : Database} (hdb : db.AgreesAt names seen db') {e e' : Expr}
    (he : e.Similar (SameName names) seen e') (expected : Option Ty) :
    Together (fun v v' => v = v' ∧ ∀ w ∈ v, w.LeadsTo seen) (evaluateClosed db e expected)
      (evaluateClosed db' e' expected) := by
  have hscope : (Scope.closed db).AgreesAt (fun _ => True) names seen (Scope.closed db') :=
    ⟨hdb, fun _ => .inl ⟨rfl, rfl⟩⟩
  exact (evaluate_together hscope he expected () trivial).map fun r r' ⟨hr, hv, _⟩ => ⟨hr ▸ rfl, hv⟩

end
end TypedRecords
