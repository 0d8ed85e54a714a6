import Mathlib.Data.List.Forall2
import TypedRecords.Proofs.Value.Bits
import TypedRecords.Proofs.Value.Conforms

/-!
# Values with parts left unset

`Value.Le` says that a value is another one with some of its bits and dag arguments unset. A value
below another has its type, and converts wherever the other does to a value below what the other
becomes, unless the conversion reads a bit that only the other has (`Value.Le.convert`).
-/

namespace TypedRecords

def BitLe (a b : Option Bool) : Prop := a = none ∨ a = b

theorem BitLe.refl (a : Option Bool) : BitLe a a := .inr rfl

/-- Where the elements of two lists are related and looked for alike, those found are related. -/
theorem find?_of_forall₂ {α β : Type} {R : α → β → Prop} {p : α → Bool} {q : β → Bool}
    {as : List α} {bs : List β} (h : List.Forall₂ R as bs) (hpq : ∀ a b, R a b → p a = q b) :
    (as.find? p = none ∧ bs.find? q = none) ∨
      ∃ a b, as.find? p = some a ∧ bs.find? q = some b ∧ R a b := by
  induction h with
  | nil => exact .inl ⟨rfl, rfl⟩
  | @cons a b as bs hab _ ih =>
    rw [List.find?_cons, List.find?_cons, hpq a b hab]
    cases q b with
    | true => exact .inr ⟨a, b, rfl, rfl, hab⟩
    | false => exact ih

theorem bits_refl (bits : List (Option Bool)) : List.Forall₂ BitLe bits bits :=
  List.forall₂_same.2 fun a _ => .refl a

/-- Bits below others are the same ones, or one of them is unset. -/
theorem eq_or_none_mem {l l' : List (Option Bool)} (h : List.Forall₂ BitLe l l') :
    l = l' ∨ none ∈ l := by
  induction h with
  | nil => exact .inl rfl
  | @cons a b l l' hab _ ih =>
    rcases hab with rfl | rfl
    · exact .inr (List.mem_cons_self ..)
    · exact ih.imp (congrArg _) (List.mem_cons_of_mem _)

/-- The bits that a value of the type gives to a bit initializer. -/
def Ty.bitWidth : Ty → Nat
  | bits width => width
  | _ => 1

namespace Value

def bitWidth : Value → Nat
  | bits lsbFirst => lsbFirst.length
  | _ => 1

/-- The value is of the type as far as bit vectors and lists go. -/
def Fits (type : Ty) : Value → Prop
  | bits lsbFirst => type = .bits lsbFirst.length
  | list element _ => type = .list element
  | _ => type.bitWidth = 1

theorem Fits.bitWidth {type : Ty} {v : Value} (h : v.Fits type) : v.bitWidth = type.bitWidth := by
  cases v with
  | bits lsbFirst => exact (congrArg Ty.bitWidth h).symm
  | list element items => exact (congrArg Ty.bitWidth h).symm
  | _ => exact Eq.symm h

/-- The first value is the second one with some bits and arguments unset. -/
inductive Le : Value → Value → Prop
  | refl (v : Value) : Le v v
  | bits {l l' : List (Option Bool)} (h : List.Forall₂ BitLe l l') : Le (.bits l) (.bits l')
  | list {element : Ty} {vs ws : List Value} (hlen : vs.length = ws.length)
      (h : ∀ p ∈ vs.zip ws, Le p.1 p.2) : Le (.list element vs) (.list element ws)
  | dag {operator : DagOperator} {as bs : List (DagArg Value)} (hlen : as.length = bs.length)
      (hargs : ∀ p ∈ as.zip bs, p.1.name = p.2.name ∧ (p.1.value.isSome → p.2.value.isSome))
      (h : ∀ p ∈ as.zip bs, ∀ v ∈ p.1.value, ∀ w ∈ p.2.value, Le v w) :
      Le (.dag operator as) (.dag operator bs)

/-- The first is unset or below the second. -/
def Below (v w : Option Value) : Prop := ∀ a ∈ v, ∃ b ∈ w, a.Le b

namespace Below
variable {v w : Option Value}

theorem none (w : Option Value) : Below .none w := nofun

theorem some {a b : Value} (h : a.Le b) : Below (.some a) (.some b) := by
  intro x hx
  obtain rfl := Option.some.inj hx
  exact ⟨b, rfl, h⟩

theorem refl (v : Option Value) : Below v v := fun a ha => ⟨a, ha, .refl a⟩

theorem eq_none (h : Below v .none) : v = .none := by
  cases v with
  | none => rfl
  | some a =>
    obtain ⟨b, hb, -⟩ := h a rfl
    cases hb

theorem le {a b : Value} (h : Below (.some a) (.some b)) : a.Le b := by
  obtain ⟨x, hx, hax⟩ := h a rfl
  exact Option.some.inj hx ▸ hax

end Below

def ArgLe (a b : DagArg Value) : Prop := a.name = b.name ∧ Below a.value b.value

namespace Le
variable {store : Store} {v w : Value}

theorem of_items {element : Ty} {vs ws : List Value} (h : List.Forall₂ Le vs ws) :
    Le (.list element vs) (.list element ws) := by
  obtain ⟨hlen, hitems⟩ := List.forall₂_iff_zip.1 h
  exact .list hlen fun p hp => hitems hp

theorem of_args {operator : DagOperator} {as bs : List (DagArg Value)}
    (h : List.Forall₂ ArgLe as bs) : Le (.dag operator as) (.dag operator bs) := by
  obtain ⟨hlen, hargs⟩ := List.forall₂_iff_zip.1 h
  refine .dag hlen (fun p hp => ?_) fun p hp v hv w hw => ?_
  · obtain ⟨hname, hvalue⟩ := hargs hp
    refine ⟨hname, fun hsome => ?_⟩
    obtain ⟨v, hv⟩ := Option.isSome_iff_exists.1 hsome
    obtain ⟨w, hw, -⟩ := hvalue v hv
    exact Option.isSome_iff_exists.2 ⟨w, hw⟩
  · obtain ⟨x, hx, hvx⟩ := (hargs hp).2 v hv
    have hxw : x = w := Option.some.inj (hx.symm.trans hw)
    exact hxw ▸ hvx

theorem type_eq (h : v.Le w) (store : Store) : v.type store = w.type store := by
  cases h with
  | refl => rfl
  | bits h => exact congrArg Ty.bits h.length_eq
  | list => rfl
  | dag => rfl

theorem eq_int {number : Int64} (h : v.Le (.int number)) : v = .int number := by
  cases h
  rfl

end Le

/-! ### Conversion -/

variable {store : Store}

theorem convertAll_cons_eq_some {v : Value} {vs us : List Value} {element : Ty} :
    convertAll store (v :: vs) element = some us ↔
      ∃ u rest, v.convert store element = some u ∧ convertAll store vs element = some rest ∧
        us = u :: rest := by
  rw [convertAll]
  cases v.convert store element with
  | none => simp
  | some u =>
    refine Option.map_eq_some_iff.trans ⟨?_, ?_⟩
    · rintro ⟨rest, hrest, rfl⟩
      exact ⟨u, rest, rfl, hrest, rfl⟩
    · rintro ⟨u', rest, hu, hrest, rfl⟩
      exact ⟨rest, hrest, Option.some.inj hu ▸ rfl⟩

theorem fits_of_convert {v w : Value} {type : Ty} (h : v.convert store type = some w) :
    w.Fits type := by
  cases converts_of_convert h with
  | intBits hl => exact congrArg Ty.bits (length_ofInt? hl).symm
  | _ => rfl

/-- The second value has all the bits that a conversion to the type reads, the first lacks some. -/
inductive Lacks : Value → Ty → Value → Prop
  | bits {l l' : List (Option Bool)} {type : Ty} (htype : type = .bit ∨ type = .int)
      (hl : Option.none ∈ l) (hl' : Option.none ∉ l') : Lacks (.bits l) type (.bits l')
  | list {recorded recorded' declared : Ty} {vs ws : List Value} {v w : Value}
      (hvw : (v, w) ∈ vs.zip ws) (h : Lacks v declared w) :
      Lacks (.list recorded vs) (.list declared) (.list recorded' ws)

/-- The value converts to the type and gives a value below, or it does not convert as it lacks bits
of the other one. -/
def ConvertsBelow (store : Store) (v : Value) (type : Ty) (w w' : Value) : Prop :=
  (∃ u, v.convert store type = some u ∧ u.Le w') ∨
    (v.convert store type = none ∧ v.Lacks type w)

theorem convertAll_below {declared : Ty} {vs ws : List Value}
    (h : List.Forall₂ (fun v w => ∀ w', w.convert store declared = some w' →
      v.ConvertsBelow store declared w w') vs ws) {ws' : List Value}
    (hws : convertAll store ws declared = some ws') :
    (∃ us, convertAll store vs declared = some us ∧ List.Forall₂ Le us ws') ∨
      (convertAll store vs declared = none ∧ ∃ v w, (v, w) ∈ vs.zip ws ∧ v.Lacks declared w) := by
  induction h generalizing ws' with
  | nil =>
    obtain rfl := Option.some.inj hws
    exact .inl ⟨[], rfl, .nil⟩
  | @cons v w vs ws hvw _ ih =>
    obtain ⟨w', rest', hw', hrest', rfl⟩ := convertAll_cons_eq_some.1 hws
    rcases hvw w' hw' with ⟨u, hu, huw⟩ | ⟨hnone, hlacks⟩
    · rcases ih hrest' with ⟨us, hus, hle⟩ | ⟨hnone, a, b, hab, hlacks⟩
      · exact .inl ⟨u :: us, convertAll_cons_eq_some.2 ⟨u, us, hu, hus, rfl⟩, .cons huw hle⟩
      · exact .inr ⟨by rw [convertAll, hu, hnone]; rfl, a, b, List.mem_cons_of_mem _ hab, hlacks⟩
    · exact .inr ⟨by rw [convertAll, hnone], v, w, List.mem_cons_self .., hlacks⟩

theorem none_not_mem_of_convert {l : List (Option Bool)} {type : Ty} {w : Value}
    (htype : type = .bit ∨ type = .int) (h : (Value.bits l).convert store type = some w) :
    Option.none ∉ l := by
  rcases htype with rfl | rfl
  · match l, h with
    | [some b], _ => simp
  · intro hl
    rw [convert, Bits.toInt?, Bits.magnitude?_eq_none.2 hl] at h
    split at h <;> cases h

theorem convert_eq_none_of_mem {l : List (Option Bool)} {type : Ty}
    (htype : type = .bit ∨ type = .int) (hl : Option.none ∈ l) :
    (Value.bits l).convert store type = none := by
  cases h : (Value.bits l).convert store type with
  | none => rfl
  | some w => exact absurd hl (none_not_mem_of_convert htype h)

/-- Where a value converts, one below it converts too, unless it lacks a bit that has to be read. -/
theorem Le.convert {v w : Value} (h : v.Le w) {type : Ty} {w' : Value}
    (hw : w.convert store type = some w') : v.ConvertsBelow store type w w' := by
  induction h generalizing type w' with
  | refl v => exact .inl ⟨w', hw, .refl w'⟩
  | @bits l l' h =>
    have hread : type = .bit ∨ type = .int → (Value.bits l).ConvertsBelow store type (.bits l') w' := by
      intro htype
      rcases eq_or_none_mem h with rfl | hl
      · exact .inl ⟨w', hw, .refl w'⟩
      · exact .inr ⟨convert_eq_none_of_mem htype hl,
          .bits htype hl (none_not_mem_of_convert htype hw)⟩
    cases type with
    | bit => exact hread (.inl rfl)
    | int => exact hread (.inr rfl)
    | bits width =>
      rw [Value.convert] at hw
      split at hw
      · rename_i hlen
        obtain rfl := Option.some.inj hw
        exact .inl ⟨.bits l, by rw [Value.convert, if_pos (h.length_eq.trans hlen)], .bits h⟩
      · cases hw
    | _ => cases hw
  | @list recorded vs ws hlen _ ih =>
    cases type with
    | list element =>
      obtain ⟨ws', hws, rfl⟩ := Option.map_eq_some_iff.1 hw
      have hitems : List.Forall₂ (fun v w => ∀ w', w.convert store element = some w' →
          v.ConvertsBelow store element w w') vs ws :=
        List.forall₂_iff_zip.2 ⟨hlen, fun hp _ hw' => ih _ hp hw'⟩
      rcases convertAll_below hitems hws with ⟨us, hus, hle⟩ | ⟨hnone, v, w, hvw, hlacks⟩
      · exact .inl ⟨.list element us, by rw [Value.convert, hus]; rfl, .of_items hle⟩
      · exact .inr ⟨by rw [Value.convert, hnone]; rfl, .list hvw hlacks⟩
    | _ => cases hw
  | dag hlen hargs h _ =>
    cases type with
    | dag => exact .inl ⟨_, rfl, Option.some.inj hw ▸ .dag hlen hargs h⟩
    | _ => cases hw

end Value
end TypedRecords
