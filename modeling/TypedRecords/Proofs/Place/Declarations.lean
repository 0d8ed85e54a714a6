import TypedRecords.Proofs.Draft.Fields
import TypedRecords.Proofs.Place.Failures
import TypedRecords.Run

/-!
# Where a declaration fails

Declarations fail at places in what was kept of them and of those before: an error in a class may show
where another text derives from it, but it lies where the class says what is wrong. So if all places at
hand satisfy a property, the place of every failure does, and all places kept do
(`Progress.addClass_located`, `Progress.addDef_located`).
-/

namespace TypedRecords
variable {P : Location → Prop}

/-! ### Evaluation -/

/-- Wherever the evaluation starts, a failure is semantic and lies at a place that satisfies `P`. -/
def Locates {σ α : Type} (P : Location → Prop) (x : Eval σ α) : Prop :=
  ∀ s, Located P (fun _ => True) (x.run s)

namespace Locates
variable {σ α β : Type} {x : Eval σ α}

theorem pure (a : α) : Locates P (Pure.pure a : Eval σ α) := fun _ => .ok trivial

theorem throw {cause : Cause} {place : Location} (hcause : cause.Semantic) (h : P place) :
    Locates P (MonadExcept.throw ⟨cause, place⟩ : Eval σ α) := fun _ => .error hcause h

theorem lift {y : Except ParseError α} (h : Located P (fun _ => True) y) :
    Locates P (liftM y : Eval σ α) := by
  intro s
  cases h with
  | ok => exact .ok trivial
  | error hcause h => exact .error hcause h

theorem bind {f : α → Eval σ β} (h : Locates P x) (hf : ∀ a, Locates P (f a)) : Locates P (x >>= f) := by
  intro s
  rw [StateT.run_bind]
  exact (h s).bind fun r _ => hf r.1 r.2

end Locates

section
variable {place : Location} (hplace : P place)
include hplace

theorem Scope.operandBits_located {σ : Type} (s : Scope σ) (e : Expr) (v : Option Value) :
    Located P (fun _ => True) (s.operandBits place e v) := by
  unfold operandBits
  split
  · exact .ok trivial
  · exact .ok trivial
  · split_ifs
    · exact .ok trivial
    · exact .ok trivial
    · exact .error trivial hplace
  · exact .ok trivial
  · exact .error trivial hplace

theorem convertElements_located (store : Store) (element : Ty) (vs : List Value) :
    Located P (fun _ => True) (convertElements store element place vs) := by
  induction vs with
  | nil => exact .ok trivial
  | cons v vs ih =>
    rw [convertElements]
    split
    · exact ih.map fun _ _ => trivial
    · exact .error trivial hplace

theorem makeList_located (store : Store) (declared : Option Ty) (vs : List Value) :
    Located P (fun _ => True) (makeList store declared place vs) := by
  unfold makeList
  split
  · exact .error trivial hplace
  · exact (convertElements_located hplace store _ vs).map fun _ _ => trivial

theorem dagOperatorOf_located (v : Option Value) :
    Located P (fun _ => True) (dagOperatorOf place v) := by
  unfold dagOperatorOf
  split
  · exact .ok trivial
  · split_ifs
    · exact .error trivial hplace
    · exact .ok trivial
  · exact .error trivial hplace

theorem intOperand_located (store : Store) (v : Value) :
    Located P (fun _ => True) (intOperand store place v) := by
  unfold intOperand
  split
  · exact .ok trivial
  · exact .error trivial hplace

theorem sumOperands_located (store : Store) (sum : Int64) (vs : List Value) :
    Located P (fun _ => True) (sumOperands store place sum vs) := by
  induction vs generalizing sum with
  | nil => exact .ok trivial
  | cons v vs ih => exact (intOperand_located hplace store v).bind fun _ _ => ih _

theorem concatOperands_located (text : String) (vs : List Value) :
    Located P (fun _ => True) (concatOperands place text vs) := by
  induction vs generalizing text with
  | nil => exact .ok trivial
  | cons v vs ih =>
    rw [concatOperands]
    split
    · exact ih _
    · exact .error trivial hplace

theorem Bang.apply_located (store : Store) (op : Bang) (vs : List Value) :
    Located P (fun _ => True) (op.apply store place vs) := by
  unfold apply
  split
  · exact (sumOperands_located hplace store 0 _).map fun _ _ => trivial
  · exact (intOperand_located hplace store _).bind fun _ _ =>
      (intOperand_located hplace store _).bind fun _ _ => .ok trivial
  · exact .error trivial hplace
  · exact (concatOperands_located hplace "" _).map fun _ _ => trivial

theorem assign_located (store : Store) (target : Target) (type : Ty) (v : Option Value) :
    Located P (fun _ => True) (assign store target type place v) := by
  unfold assign
  split
  · exact .ok trivial
  · split
    · exact .ok trivial
    · exact .error trivial hplace

end

section
variable {σ : Type} {s : Scope σ}

theorem evaluateBits_locates {place : Location} (hplace : P place) {es : List Expr}
    (h : ∀ e ∈ es, Locates P (evaluate s e none)) : Locates P (evaluateBits s place es) := by
  induction es with
  | nil =>
    rw [evaluateBits]
    exact .pure _
  | cons e es ih =>
    obtain ⟨he, hes⟩ := List.forall_mem_cons.1 h
    rw [evaluateBits]
    exact he.bind fun v => (Locates.lift (s.operandBits_located hplace e v)).bind fun _ =>
      (ih hes).bind fun _ => .pure _

theorem evaluateItems_locates {place : Location} (hplace : P place) {declared : Option Ty}
    {es : List Expr} (h : ∀ e ∈ es, Locates P (evaluate s e declared)) :
    Locates P (evaluateItems s place declared es) := by
  induction es with
  | nil =>
    rw [evaluateItems]
    exact .pure _
  | cons e es ih =>
    obtain ⟨he, hes⟩ := List.forall_mem_cons.1 h
    rw [evaluateItems]
    refine he.bind fun v => ?_
    cases v with
    | none => exact .throw trivial hplace
    | some v => exact (ih hes).bind fun _ => .pure _

theorem evaluateArgs_locates {as : List (DagArg Expr)}
    (h : ∀ a ∈ as, ∀ e ∈ a.value, Locates P (evaluate s e none)) : Locates P (evaluateArgs s as) := by
  induction as with
  | nil =>
    rw [evaluateArgs]
    exact .pure _
  | cons a as ih =>
    obtain ⟨ha, has⟩ := List.forall_mem_cons.1 h
    rcases a with ⟨name, _ | e⟩
    · rw [evaluateArgs]
      exact (ih has).bind fun _ => .pure _
    · rw [evaluateArgs]
      exact (ha e rfl).bind fun _ => (ih has).bind fun _ => .pure _

theorem evaluateOperands_locates {es : List Expr} (h : ∀ e ∈ es, Locates P (evaluate s e none)) :
    Locates P (evaluateOperands s es) := by
  induction es with
  | nil =>
    rw [evaluateOperands]
    exact .pure _
  | cons e es ih =>
    obtain ⟨he, hes⟩ := List.forall_mem_cons.1 h
    rw [evaluateOperands]
    refine he.bind fun v => ?_
    cases v with
    | none => exact .pure _
    | some v => exact (ih hes).bind fun _ => .pure _

/-- The evaluation of an expression fails at the places in it, if reading a field does. -/
theorem evaluate_locates
    (hs : ∀ name type read, s.field name = some (type, read) → Locates P read) {e : Expr}
    (he : e.Lies P) (expected : Option Ty) : Locates P (evaluate s e expected) := by
  induction he generalizing expected with
  | unset | int | string | code | bound =>
    rw [evaluate]
    exact .pure _
  | bits hp _ ih =>
    rw [evaluate]
    exact (evaluateBits_locates hp fun e he => ih e he none).bind fun _ => .pure _
  | list hp _ ih =>
    rw [evaluate]
    refine (evaluateItems_locates hp fun e he => ih e he _).bind fun vs => ?_
    exact (Locates.lift (makeList_located hp _ _ vs)).bind fun _ => .pure _
  | @dag operator args place hp _ _ iho ih =>
    rw [evaluate]
    have rest : ∀ op : DagOperator,
        Locates P (do return some (Value.dag op (← evaluateArgs s args))) :=
      fun op => (evaluateArgs_locates fun a ha e he => ih a ha e he none).bind fun _ => .pure _
    dsimp only
    split
    · exact rest _
    · exact (iho none).bind fun v => (Locates.lift (dagOperatorOf_located hp v)).bind rest
  | bang hp _ ih =>
    rw [evaluate]
    refine (evaluateOperands_locates fun e he => ih e he none).bind fun values => ?_
    cases values with
    | none => exact .pure _
    | some vs => exact (Locates.lift (Bang.apply_located hp _ _ vs)).bind fun _ => .pure _
  | @reference name place hp =>
    rw [evaluate, Scope.lookup]
    cases hf : s.field name with
    | some field => exact hs name field.1 field.2 hf
    | none =>
      cases s.db.ref? name with
      | some ref => exact .pure _
      | none => exact .throw trivial hp

/-- In a closed scope there is no field to read. -/
theorem evaluateClosed_located (db : Database) {e : Expr} (he : e.Lies P) (expected : Option Ty) :
    Located P (fun _ => True) (evaluateClosed db e expected) :=
  (evaluate_locates nofun he expected ()).map fun _ _ => trivial

end

/-! ### Templates and drafts -/

theorem bindParams_located (db : Database) (className : String) {place : Location} (hplace : P place)
    (missing : Missing) (bound : Bindings) {ps : List Param}
    (h : ∀ p ∈ ps, ∀ e ∈ p.default, e.Lies P) (args : List (Option Value)) :
    Located P (fun _ => True) (bindParams db className place missing bound ps args) := by
  induction ps generalizing bound args with
  | nil =>
    rw [bindParams]
    exact .ok trivial
  | cons p ps ih =>
    obtain ⟨hp, hps⟩ := List.forall_mem_cons.1 h
    have hvalue : Located P (fun _ => True) (paramValue db className place missing bound p args) := by
      unfold paramValue
      split
      · exact .ok trivial
      · rename_i default hdefault
        exact evaluateClosed_located db ((hp default hdefault).substitute bound) _
      · cases missing with
        | refused => exact .error trivial hplace
        | unset => exact .ok trivial
    rw [bindParams]
    exact hvalue.bind fun v _ => (assign_located hplace _ _ _ v).bind fun _ _ => ih _ hps _

theorem Template.bind_located (db : Database) {t : Template} (h : t.Lies P) (args : List (Option Value))
    {place : Location} (hplace : P place) (missing : Missing) :
    Located P (fun _ => True) (t.bind db args place missing) := by
  unfold bind
  split_ifs
  · exact .error trivial hplace
  · exact bindParams_located db t.name hplace missing [] h.params args

theorem evaluateWritten_located (db : Database) (outer : Bindings) (ps : List Param) {es : List Expr}
    (h : ∀ e ∈ es, e.Lies P) : Located P (fun _ => True) (evaluateWritten db outer ps es) := by
  induction es generalizing ps with
  | nil =>
    rw [evaluateWritten]
    exact .ok trivial
  | cons e es ih =>
    obtain ⟨he, hes⟩ := List.forall_mem_cons.1 h
    rw [evaluateWritten]
    exact (evaluateClosed_located db (he.substitute outer) _).bind fun _ _ =>
      (ih ps.tail hes).bind fun _ _ => .ok trivial

/-- All places in the draft satisfy `P`. -/
def Draft.Lies (P : Location → Prop) (d : Draft) : Prop := ∀ f ∈ d.fields, P f.place ∧ f.value.Lies P

namespace Draft
variable {d : Draft}

theorem Lies.write (h : d.Lies P) (name : String) {value : Expr} (hvalue : value.Lies P)
    {place : Location} (hplace : P place) : (d.write name value place).Lies P := by
  refine List.forall_mem_map.2 fun f hf => ?_
  unfold DraftField.write
  split_ifs
  · exact ⟨hplace, hvalue⟩
  · exact h f hf

theorem declare_located (h : d.Lies P) (name : String) (type : Ty) {value : Option Expr}
    (hvalue : ∀ e ∈ value, e.Lies P) {place : Location} (hplace : P place) :
    Located P (Lies P) (d.declare name type value place) := by
  unfold declare
  split
  · split_ifs
    · exact .error trivial hplace
    · cases value with
      | none => exact .ok h
      | some value => exact .ok (h.write name (hvalue value rfl) hplace)
  · refine .ok (List.forall_mem_append.2 ⟨h, List.forall_mem_singleton.2 ⟨hplace, ?_⟩⟩)
    cases value with
    | none => exact .unset
    | some value => exact hvalue value rfl

theorem override_located (h : d.Lies P) {o : Override} (ho : o.Lies P) :
    Located P (Lies P) (d.override o) := by
  unfold override
  split
  · exact .ok (h.write o.name ho.value ho.place)
  · exact .error trivial ho.place

theorem applyItem_located (bs : Bindings) (h : d.Lies P) {i : BodyItem} (hi : i.Lies P) :
    Located P (Lies P) (d.applyItem bs i) := by
  cases i with
  | field name type value place =>
    refine declare_located h name type (fun e he => ?_) hi.1
    obtain ⟨written, hwritten, rfl⟩ := Option.map_eq_some_iff.1 he
    exact (hi.2 written hwritten).substitute bs
  | override o => exact override_located h ⟨hi.place, hi.value.substitute bs⟩

theorem applyOwn_located {t : Template} (ht : t.Lies P) (bs : Bindings) (h : d.Lies P) :
    Located P (Lies P) (d.applyOwn t bs) :=
  (Located.foldlM (fun o ho _ hd => override_located hd (ht.lets o ho)) h).bind fun _ hd =>
    .foldlM (fun i hi _ hd => applyItem_located bs hd (ht.body i hi)) hd

theorem inherit_located (db : Database) {templates : List Template} (ht : ∀ t ∈ templates, t.Lies P)
    (h : d.Lies P) {parent : ParentRef} (hparent : parent.Lies P) (outer : Bindings) :
    Located P (Lies P) (d.inherit db templates parent outer) := by
  -- the parents of a class are looked for in the older templates, under its own bindings
  induction templates generalizing d parent outer with
  | nil => exact .error trivial hparent.place
  | cons t older ih =>
    obtain ⟨ht, holder⟩ := List.forall_mem_cons.1 ht
    rw [inherit]
    split_ifs
    · refine (evaluateWritten_located db outer t.params hparent.args).bind fun args _ => ?_
      refine (t.bind_located db ht args hparent.place .refused).bind fun bs _ => ?_
      split
      · split_ifs
        · exact .ok h
        · exact .error trivial hparent.place
      · have hparents := Located.foldlM (fun p hp _ hd => ih holder hd (ht.parents p hp) bs) h
        refine hparents.bind fun d hd => ?_
        refine (applyOwn_located ht bs hd).bind fun d hd => .ok ?_
        unfold addInstance addSuperclass
        split_ifs <;> exact hd
    · exact ih holder h hparent outer

theorem ofTemplate_located (db : Database) {templates : List Template} (ht : ∀ t ∈ templates, t.Lies P)
    {t : Template} (h : t.Lies P) (bs : Bindings) :
    Located P (Lies P) (ofTemplate db templates t bs) := by
  have hempty : empty.Lies P := List.forall_mem_nil _
  exact (Located.foldlM (fun p hp _ hd => inherit_located db ht hd (h.parents p hp) bs) hempty).bind
    fun _ hd => applyOwn_located h bs hd

theorem fieldValue_locates {σ : Type} (db : Database) {read : DraftField → Eval σ (Option Value)}
    (h : d.Lies P) (hread : ∀ f ∈ d.fields, Locates P (read f)) {f : DraftField} (hf : f ∈ d.fields) :
    Locates P (d.fieldValue db read f) := by
  have hscope : ∀ name type r, (d.scope db read).field name = some (type, r) → Locates P r := by
    intro name type r hr
    obtain ⟨g, hg, hpair⟩ := Option.map_eq_some_iff.1 hr
    exact (Prod.mk.inj hpair).2 ▸ hread g (mem_of_field? hg).1
  exact (evaluate_locates hscope (h f hf).2 _).bind fun v =>
    .lift (assign_located (h f hf).1 _ _ _ v)

theorem remembered_locates (f : DraftField) {compute : Eval Memo (Option Value)}
    (h : Locates P compute) : Locates P (remembered f compute) := by
  have hget : Locates P (get : Eval Memo Memo) := fun _ => .ok trivial
  refine hget.bind fun memo => ?_
  split
  · exact .pure _
  · exact h

theorem resolve_locates (db : Database) (h : d.Lies P) (depth : Nat) (path : List String)
    {f : DraftField} (hf : f ∈ d.fields) : Locates P (d.resolve db depth path f) := by
  induction depth generalizing path f with
  | zero => exact remembered_locates f (.throw trivial (h f hf).1)
  | succ depth ih =>
    refine remembered_locates f ?_
    have hmodify : ∀ g, Locates P (modify g : Eval Memo PUnit) := fun _ _ => .ok trivial
    have hrest : Locates P (do
        let v ← d.fieldValue db (d.resolve db depth (f.name :: path)) f
        modify fun memo => (f.name, v) :: memo
        return v) :=
      (fieldValue_locates db h (fun g hg => ih _ hg) hf).bind fun v =>
        (hmodify _).bind fun _ => .pure v
    split_ifs
    · exact .throw trivial (h f hf).1
    · exact hrest

theorem finish_located (db : Database) (h : d.Lies P) (name : String) (anonymous isClass : Bool)
    (direct : List String) : Located P (fun _ => True) (d.finish db name anonymous isClass direct) := by
  -- fields that are still to be visited are fields of the draft
  have hall : ∀ fs : List DraftField, fs ⊆ d.fields → Locates P (d.resolveAll db fs) := by
    intro fs hfs
    induction fs with
    | nil => exact .pure _
    | cons f fs ih =>
      obtain ⟨hf, hfs⟩ := List.cons_subset.1 hfs
      exact (resolve_locates db h _ _ hf).bind fun _ => ih hfs
  have hvalues : Located P (fun _ => True) (d.values db d.fields) :=
    (hall d.fields (List.Subset.refl _) []).bind fun _ _ => .ok trivial
  exact hvalues.bind fun _ _ => .ok trivial

end Draft

/-! ### Declarations -/

namespace Progress
variable {p : Progress} {lets : List Override}

/-- All places in the templates satisfy `P`. -/
def Lies (P : Location → Prop) (p : Progress) : Prop := ∀ t ∈ p.templates, t.Lies P

theorem addClass_located (hp : p.Lies P) (hlets : ∀ o ∈ lets, o.Lies P) {c : ClassSyntax}
    (hc : Node.AllAt P c.nodes) : Located P (Lies P) (p.addClass lets c) := by
  obtain ⟨hplace, hnodes⟩ := List.forall_mem_cons.1 hc
  unfold addClass
  refine .throwIf trivial (List.forall_mem_cons.1 hnodes).1 ?_
  refine (ClassSyntax.toTemplate_located hlets hc).bind fun t ht => ?_
  refine (t.bind_located p.db ht [] hplace .unset).bind fun bs _ => ?_
  refine (Draft.ofTemplate_located p.db hp ht bs).bind fun d hd => ?_
  exact (Draft.finish_located p.db hd _ _ _ _).bind fun r _ => .ok (List.forall_mem_cons.2 ⟨ht, hp⟩)

theorem addDef_located (hp : p.Lies P) (hlets : ∀ o ∈ lets, o.Lies P) {d : DefSyntax}
    (hd : Node.AllAt P d.nodes) : Located P (Lies P) (p.addDef lets d) := by
  unfold addDef
  refine (DefSyntax.toTemplate_located hlets hd _).bind fun t ht => ?_
  refine .throwIf trivial (List.forall_mem_cons.1 hd).1 ?_
  refine (Draft.ofTemplate_located p.db hp ht []).bind fun d hd => ?_
  exact (Draft.finish_located p.db hd _ _ _ _).bind fun r _ => .ok hp

end Progress
end TypedRecords
