import TypedRecords.Proofs.Typing.Bound
import TypedRecords.Proofs.Value.Conforms

/-!
# References in values

A value is `Placed` in a database where every reference in it, as an item, an argument or the
operator of a dag, is the one that its name finds, and the element types of its lists name classes.
What is formed from placed values is placed (`Value.placed_formed`).
-/

namespace TypedRecords

namespace Value

/-- The reference occurs in a value, at any depth. -/
inductive Refers (ref : RecordRef) : Value → Prop
  | record : Refers ref (.record ref)
  | operator {args : List (DagArg Value)} : Refers ref (.dag (.record ref) args)
  | item {element : Ty} {items : List Value} {v : Value} (hv : v ∈ items) (h : Refers ref v) :
      Refers ref (.list element items)
  | arg {operator : DagOperator} {args : List (DagArg Value)} {a : DagArg Value} {v : Value}
      (ha : a ∈ args) (hv : v ∈ a.value) (h : Refers ref v) : Refers ref (.dag operator args)

/-- Every reference in the value is the one that its name finds, and every class that an element
type in it names satisfies `N`. -/
inductive Placed (db : Database) (N : String → Prop) : Value → Prop
  | bit (b : Bool) : Placed db N (.bit b)
  | bits (lsbFirst : List (Option Bool)) : Placed db N (.bits lsbFirst)
  | int (number : Int64) : Placed db N (.int number)
  | string (text : String) : Placed db N (.string text)
  | code (text : String) : Placed db N (.code text)
  | list {element : Ty} {items : List Value} (hn : element.Named N)
      (h : ∀ v ∈ items, Placed db N v) : Placed db N (.list element items)
  | dag {operator : DagOperator} {args : List (DagArg Value)}
      (ho : ∀ ref, operator = .record ref → db.ref? ref.name = some ref)
      (h : ∀ a ∈ args, ∀ v ∈ a.value, Placed db N v) : Placed db N (.dag operator args)
  | record {ref : RecordRef} (h : db.ref? ref.name = some ref) : Placed db N (.record ref)

namespace Placed
variable {db db' : Database} {N M : String → Prop} {v : Value}

theorem mono (hdb : ∀ name ref, db.ref? name = some ref → db'.ref? name = some ref)
    (hNM : ∀ name, N name → M name) (h : v.Placed db N) : v.Placed db' M := by
  induction h with
  | list hn _ ih => exact .list (hn.mono hNM) ih
  | dag ho _ ih => exact .dag (fun ref href => hdb _ _ (ho ref href)) ih
  | record h => exact .record (hdb _ _ h)
  | _ => constructor

theorem ref (h : v.Placed db N) {ref : RecordRef} (hr : Refers ref v) :
    db.ref? ref.name = some ref := by
  induction hr with
  | record => cases h with | record h => exact h
  | operator => cases h with | dag ho _ => exact ho ref rfl
  | item hv _ ih => cases h with | list _ h => exact ih (h _ hv)
  | arg ha hv _ ih => cases h with | dag _ h => exact ih (h _ ha _ hv)

theorem element (h : v.Placed db N) {element : Ty} {items : List Value}
    (hw : Within (.list element items) v) : element.Named N := by
  induction hw with
  | refl => cases h with | list hn _ => exact hn
  | item hv _ ih => cases h with | list _ h => exact ih (h _ hv)
  | arg ha hv _ ih => cases h with | dag _ h => exact ih (h _ ha _ hv)

end Placed

/-! ### Conversion -/

theorem Placed.convert {db : Database} {N : String → Prop} {v w : Value} (h : v.Placed db N)
    {type : Ty} (ht : type.Named N) (hw : v.convert db.store type = some w) : w.Placed db N := by
  induction h generalizing type w with
  | list _ _ ih =>
    cases converts_of_convert hw with
    | @list _ element _ ws hws =>
      have helement : element.Named N := ht
      refine .list helement fun x hx => ?_
      obtain ⟨v, hv, hvx⟩ := mem_of_convertAll hws x hx
      exact ih v hv helement hvx
  | dag ho h _ =>
    cases converts_of_convert hw with
    | dag => exact .dag ho h
  | record h => cases converts_of_convert hw <;> exact .record h
  | bit | bits | int | string | code =>
    -- these convert among themselves
    cases converts_of_convert hw <;> constructor

end Value

/-! ### Types of values -/

/-- The classes that the defs of the database derive from satisfy `N`. -/
def Database.Derives (db : Database) (N : String → Prop) : Prop :=
  ∀ r ∈ db.defs.records, (∀ name ∈ r.superclasses, N name) ∧ ∀ name ∈ r.directSuperclasses, N name

namespace Value
variable {db : Database} {N : String → Prop}

theorem type_named (hdb : db.Derives N) {v : Value} (h : v.Placed db N) :
    (v.type db.store).Named N := by
  cases h with
  | list hn _ => exact hn
  | record h =>
    rename_i ref
    rw [type]
    split
    · rename_i name hname
      obtain ⟨r, hr, hhead⟩ := Option.bind_eq_some_iff.1 hname
      exact (hdb r (List.mem_of_getElem? hr)).2 name (List.mem_of_head? hhead)
    · trivial
  | _ => trivial

theorem mem_of_referencedRecords {vs : List Value} {rs : List Record}
    (h : referencedRecords db.store vs = some rs) : ∀ r ∈ rs, r ∈ db.defs.records := by
  induction vs generalizing rs with
  | nil =>
    obtain rfl := Option.some.inj h
    simp
  | cons v vs ih =>
    unfold referencedRecords at h
    split at h
    · simp_all
    · rename_i ref vs' heq
      obtain ⟨rfl, rfl⟩ := List.cons.inj heq
      split at h
      · rename_i r hr
        obtain ⟨rs', hrs', rfl⟩ := Option.map_eq_some_iff.1 h
        exact List.forall_mem_cons.2 ⟨List.mem_of_getElem? hr, ih hrs'⟩
      · cases h
    · cases h

theorem commonType_named (hdb : db.Derives N) {vs : List Value} (hvs : ∀ v ∈ vs, v.Placed db N)
    {type : Ty} (h : commonType db.store vs = some type) : type.Named N := by
  unfold commonType at h
  split at h
  · cases h
  · rename_i first rest
    split at h
    · rename_i r rs hrs
      split at h
      · rename_i name hname
        have hr := mem_of_referencedRecords hrs r (List.mem_cons_self ..)
        have hmem : name ∈ r.superclasses := by simpa using List.mem_of_find?_eq_some hname
        exact Option.some.inj h ▸ (hdb r hr).1 name hmem
      · exact Option.some.inj h ▸ trivial
    · exact Option.some.inj h ▸ type_named hdb (hvs first (List.mem_cons_self ..))

theorem placed_formed (hdb : db.Derives N) : Formed db (Placed db N) (Ty.Named N) where
  bits := .bits
  int := .int
  string := .string
  code := .code
  list {vs ws element place} hvs ht h := by
    refine .list ht fun w hw => ?_
    obtain ⟨v, hv, hc⟩ := mem_of_convertAll (convertAll_of_convertElements h) w hw
    exact (hvs v hv).convert ht hc
  dag ho h := .dag (fun ref href => by cases ho ref href with | record h => exact h) h
  record h := .record (Database.name_of_ref? h ▸ h)
  convert hv ht h := hv.convert ht h
  element ht := ht
  common hvs h := commonType_named hdb hvs h

end Value
end TypedRecords
