import TypedRecords.Proofs.Reference.Placed
import TypedRecords.Proofs.Together.Basic

/-!
# Values over two stores

What is made of values over a store depends on the records that references in them lead to, and on no
others. So over two stores that agree at some positions, values whose references lead there convert
alike, are of the same types, and form the same lists and results of operations; and of what is made of
them the references lead there again.
-/

namespace TypedRecords

/-- Every reference in the value leads to a position that is `seen`. -/
def Value.LeadsTo (seen : Nat → Prop) (v : Value) : Prop := ∀ ref, v.Refers ref → seen ref.target

/-- The stores have the same records where positions are `seen`. -/
def Store.AgreesAt (seen : Nat → Prop) (store store' : Store) : Prop := ∀ i, seen i → store i = store' i

namespace Value
variable {seen : Nat → Prop}

/-! ### References in what is formed -/

theorem leadsTo_record {ref : RecordRef} (h : seen ref.target) : (record ref).LeadsTo seen := by
  intro ref' href
  cases href
  exact h

theorem LeadsTo.target {ref : RecordRef} (h : (record ref).LeadsTo seen) : seen ref.target :=
  h ref .record

theorem leadsTo_list {element : Ty} {items : List Value} :
    (list element items).LeadsTo seen ↔ ∀ v ∈ items, v.LeadsTo seen := by
  constructor
  · exact fun h v hv ref href => h ref (.item hv href)
  · intro h ref href
    cases href with
    | item hv href => exact h _ hv ref href

theorem leadsTo_dag {operator : DagOperator} {args : List (DagArg Value)}
    (ho : ∀ ref, operator = .record ref → seen ref.target)
    (h : ∀ a ∈ args, ∀ v ∈ a.value, v.LeadsTo seen) : (dag operator args).LeadsTo seen := by
  intro ref href
  cases href with
  | operator => exact ho ref rfl
  | arg ha hv href => exact h _ ha _ hv ref href

mutual

/-- A conversion brings in no reference. -/
theorem refers_of_convert {store : Store} {ref : RecordRef} : ∀ (v : Value) {type : Ty} {w : Value},
    v.convert store type = some w → w.Refers ref → v.Refers ref
  | list _ items, _, _, h, href => by
    cases converts_of_convert h with
    | list hws =>
      cases href with
      | item hx href =>
        obtain ⟨v, hv, href⟩ := exists_refers_of_convertAll items hws _ hx href
        exact .item hv href
  | dag _ _, _, _, h, href | record _, _, _, h, href => by
    cases converts_of_convert h <;> exact href
  | bit _, _, _, h, href | bits _, _, _, h, href | int _, _, _, h, href | string _, _, _, h, href
  | code _, _, _, h, href => by
    cases converts_of_convert h <;> cases href

theorem exists_refers_of_convertAll {store : Store} {ref : RecordRef} : ∀ (vs : List Value)
    {element : Ty} {ws : List Value}, convertAll store vs element = some ws → ∀ w ∈ ws,
      w.Refers ref → ∃ v ∈ vs, v.Refers ref
  | [], _, _, h, w, hw, _ => by
    obtain rfl := Option.some.inj h
    cases hw
  | v :: vs, element, _, h, w, hw, href => by
    rw [convertAll] at h
    cases hv : v.convert store element with
    | none =>
      rw [hv] at h
      cases h
    | some u =>
      rw [hv] at h
      obtain ⟨us, hus, rfl⟩ := Option.map_eq_some_iff.1 h
      rcases List.mem_cons.1 hw with rfl | hw
      · exact ⟨v, List.mem_cons_self .., refers_of_convert v hv href⟩
      · obtain ⟨x, hx, href⟩ := exists_refers_of_convertAll vs hus w hw href
        exact ⟨x, List.mem_cons_of_mem _ hx, href⟩

end

theorem LeadsTo.convert {store : Store} {v w : Value} (h : v.LeadsTo seen) {type : Ty}
    (hw : v.convert store type = some w) : w.LeadsTo seen :=
  fun ref href => h ref (refers_of_convert v hw href)

/-! ### Types and conversions -/

variable {store store' : Store}

theorem get?_agrees (hstore : store.AgreesAt seen store') {ref : RecordRef}
    (h : (record ref).LeadsTo seen) : ref.get? store = ref.get? store' := hstore _ h.target

theorem isInstance_agrees (hstore : store.AgreesAt seen store') {ref : RecordRef}
    (h : (record ref).LeadsTo seen) (name : String) :
    isInstance store ref name = isInstance store' ref name := by
  rw [isInstance, isInstance, get?_agrees hstore h]

theorem type_agrees (hstore : store.AgreesAt seen store') {v : Value} (h : v.LeadsTo seen) :
    v.type store = v.type store' := by
  cases v with
  | record ref => simp only [type, get?_agrees hstore h]
  | _ => rfl

mutual

theorem convert_agrees (hstore : store.AgreesAt seen store') : ∀ (v : Value) (type : Ty),
    v.LeadsTo seen → v.convert store type = v.convert store' type
  | bit b, type, _ | bits lsbFirst, type, _ | int number, type, _ | string text, type, _
  | code text, type, _ | dag operator args, type, _ => by cases type <;> simp only [convert]
  | list _ items, type, h => by
    cases type <;> simp only [convert, convertAll_agrees hstore items _ (leadsTo_list.1 h)]
  | record ref, type, h => by
    cases type <;> simp only [convert, isInstance_agrees hstore h]

theorem convertAll_agrees (hstore : store.AgreesAt seen store') : ∀ (vs : List Value) (element : Ty),
    (∀ v ∈ vs, v.LeadsTo seen) → convertAll store vs element = convertAll store' vs element
  | [], _, _ => by rw [convertAll, convertAll]
  | v :: vs, element, h => by
    obtain ⟨hv, hvs⟩ := List.forall_mem_cons.1 h
    rw [convertAll, convertAll, convert_agrees hstore v element hv,
      convertAll_agrees hstore vs element hvs]

end

end Value

/-! ### Lists and operations -/

section
variable {seen : Nat → Prop} {store store' : Store} (hstore : store.AgreesAt seen store')
include hstore

theorem referencedRecords_agrees {vs : List Value} (h : ∀ v ∈ vs, v.LeadsTo seen) :
    referencedRecords store vs = referencedRecords store' vs := by
  induction vs with
  | nil => rfl
  | cons v vs ih =>
    obtain ⟨hv, hvs⟩ := List.forall_mem_cons.1 h
    cases v with
    | record ref => simp only [referencedRecords, Value.get?_agrees hstore hv, ih hvs]
    | _ => rfl

theorem commonType_agrees {vs : List Value} (h : ∀ v ∈ vs, v.LeadsTo seen) :
    commonType store vs = commonType store' vs := by
  cases vs with
  | nil => rfl
  | cons first rest =>
    simp only [commonType, referencedRecords_agrees hstore h,
      Value.type_agrees hstore (h first (List.mem_cons_self ..))]

theorem convertElements_together (element : Ty) (place place' : Location) {vs : List Value}
    (h : ∀ v ∈ vs, v.LeadsTo seen) :
    Together (fun us us' => us = us' ∧ ∀ u ∈ us, u.LeadsTo seen)
      (convertElements store element place vs) (convertElements store' element place' vs) := by
  induction vs with
  | nil => exact .ok ⟨rfl, nofun⟩
  | cons v vs ih =>
    obtain ⟨hv, hvs⟩ := List.forall_mem_cons.1 h
    rw [convertElements, convertElements, ← Value.convert_agrees hstore v element hv]
    cases hw : v.convert store element with
    | none => exact .error _ _
    | some w =>
      refine (ih hvs).map fun us us' hus => ?_
      exact ⟨congrArg _ hus.1, List.forall_mem_cons.2 ⟨hv.convert hw, hus.2⟩⟩

theorem makeList_together (declared : Option Ty) (place place' : Location) {vs : List Value}
    (h : ∀ v ∈ vs, v.LeadsTo seen) :
    Together (fun v v' => v = v' ∧ v.LeadsTo seen) (makeList store declared place vs)
      (makeList store' declared place' vs) := by
  unfold makeList
  rw [← commonType_agrees hstore h]
  cases declared.or (commonType store vs) with
  | none => exact .error _ _
  | some element =>
    refine (convertElements_together hstore element place place' h).map fun us us' hus => ?_
    exact ⟨congrArg _ hus.1, Value.leadsTo_list.2 hus.2⟩

theorem intOperand_together (place place' : Location) {v : Value} (h : v.LeadsTo seen) :
    Together Eq (intOperand store place v) (intOperand store' place' v) := by
  unfold intOperand
  rw [← Value.convert_agrees hstore v .int h]
  rcases v.convert store .int with _ | w
  · exact .error _ _
  · cases w with
    | int number => exact .ok rfl
    | _ => exact .error _ _

theorem sumOperands_together (place place' : Location) {vs : List Value}
    (h : ∀ v ∈ vs, v.LeadsTo seen) (sum : Int64) :
    Together Eq (sumOperands store place sum vs) (sumOperands store' place' sum vs) := by
  induction vs generalizing sum with
  | nil => exact .ok rfl
  | cons v vs ih =>
    obtain ⟨hv, hvs⟩ := List.forall_mem_cons.1 h
    rw [sumOperands, sumOperands]
    exact (intOperand_together hstore place place' hv).bind fun a b hab => hab ▸ ih hvs _

omit hstore in
theorem concatOperands_together (place place' : Location) (vs : List Value) (text : String) :
    Together Eq (concatOperands place text vs) (concatOperands place' text vs) := by
  induction vs generalizing text with
  | nil => exact .ok rfl
  | cons v vs ih =>
    rw [concatOperands, concatOperands]
    cases v.asText with
    | ok part => exact ih _
    | error e => exact .error _ _

theorem Bang.apply_together (op : Bang) (place place' : Location) {vs : List Value}
    (h : ∀ v ∈ vs, v.LeadsTo seen) :
    Together (fun v v' => v = v' ∧ v.LeadsTo seen) (op.apply store place vs)
      (op.apply store' place' vs) := by
  -- the result is an integer or a text, in which there are no references
  have hresult : Together Eq (op.apply store place vs) (op.apply store' place' vs) := by
    cases op with
    | add => exact (sumOperands_together hstore place place' h 0).map fun _ _ hab => congrArg _ hab
    | strconcat => exact (concatOperands_together place place' vs "").map fun _ _ hab => congrArg _ hab
    | sub =>
      match vs, h with
      | [v, w], h =>
        obtain ⟨hv, hw⟩ := List.forall_mem_cons.1 h
        refine (intOperand_together hstore place place' hv).bind fun a b hab => ?_
        refine (intOperand_together hstore place place' (hw w (List.mem_cons_self ..))).bind
          fun a' b' hab' => ?_
        exact .ok (hab ▸ hab' ▸ rfl)
      | [], _ => exact .error _ _
      | [_], _ => exact .error _ _
      | _ :: _ :: _ :: _, _ => exact .error _ _
  refine hresult.imp fun v v' hv _ hvv' => ⟨hvv', ?_⟩
  rcases Bang.apply_eq_ok hv with ⟨number, rfl⟩ | ⟨text, rfl⟩ <;> intro ref href <;> cases href

theorem assign_together (target target' : Target) (type : Ty) (place place' : Location)
    {v : Option Value} (h : ∀ w ∈ v, w.LeadsTo seen) :
    Together (fun u u' => u = u' ∧ ∀ w ∈ u, w.LeadsTo seen) (assign store target type place v)
      (assign store' target' type place' v) := by
  cases v with
  | none => exact .ok ⟨rfl, nofun⟩
  | some v =>
    have hv := h v rfl
    rw [assign, assign, ← Value.convert_agrees hstore v type hv]
    cases hw : v.convert store type with
    | none => exact .error _ _
    | some w => exact .ok ⟨rfl, fun x hx => Option.some.inj hx ▸ hv.convert hw⟩

end

theorem dagOperatorOf_together {seen : Nat → Prop} (place place' : Location) {v : Option Value}
    (h : ∀ w ∈ v, w.LeadsTo seen) :
    Together (fun o o' => o = o' ∧ ∀ ref, o = .record ref → seen ref.target)
      (dagOperatorOf place v) (dagOperatorOf place' v) := by
  unfold dagOperatorOf
  split
  · exact .ok ⟨rfl, fun ref href => DagOperator.record.inj href ▸ (h _ rfl).target⟩
  · split
    · exact .error _ _
    · exact .ok ⟨rfl, nofun⟩
  · exact .error _ _

end TypedRecords
