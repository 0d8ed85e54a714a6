import TypedRecords.Proofs.Settings.Scalars
import TypedRecords.Settings.Load

/-!
# What the library for settings does

The documented behaviour of the library that results about settings rely on. `SettingsLibrary.Keyed` is
about names: each is a path that begins with a key, and what it sets is part of the value of this key.
`SettingsLibrary.TriesParsing` is about the texts of variables. The order of the entries in a layer is left
open in both.
-/

namespace TypedRecords

/-- The name is the key itself or leads into its value: to an entry, behind a point, or to an item, in
brackets. -/
def leadsTo (name key : String) : Bool :=
  name == key || (key.toList ++ ['.']).isPrefixOf name.toList ||
    (key.toList ++ ['[']).isPrefixOf name.toList

theorem leadsTo_self (key : String) : leadsTo key key = true := by simp [leadsTo]

namespace SettingsLibrary

structure Keyed (lib : SettingsLibrary) : Prop where
  get_empty (key : String) : lib.get lib.empty key = none
  /-- A later value of a key replaces an earlier one. -/
  get_set {key : String} (hkey : key ∈ Settings.keys) (t : lib.Table) (v : Setting) :
    lib.get (lib.set t key v) key = some v
  get_set_of_not_leadsTo {name key : String} (h : leadsTo name key = false) (t : lib.Table)
    (v : Setting) : lib.get (lib.set t name v) key = lib.get t key
  /-- What becomes of the value of a key depends on this value. -/
  get_set_congr {t u : lib.Table} {key : String} (h : lib.get t key = lib.get u key) (name : String)
    (v : Setting) : lib.get (lib.set t name v) key = lib.get (lib.set u name v) key
  /-- Entries come from variables whose names begin with the mark. -/
  mem_environment {source : EnvironmentSource} {environment : List (String × String)} {name : String}
    {v : Setting} (h : (name, v) ∈ lib.environmentEntries source environment) :
    ∃ x ∈ environment, source.nameOf? x.1 = some name ∧ v = lib.ofVariable source name x.2
  /-- Of several variables for one name it may be any that counts. -/
  exists_environment {source : EnvironmentSource} {environment : List (String × String)}
    {x : String × String} (hx : x ∈ environment) {name : String}
    (hname : source.nameOf? x.1 = some name) :
    ∃ v, (name, v) ∈ lib.environmentEntries source environment
  text?_text (s : String) : lib.text? (.text s) = some s

/-- A text is tried as a truth value, as an integer and as a float, in this order, and cut into parts for the
keys of lists or kept. Scalars are written out where a text is wanted, and are no lists. -/
structure TriesParsing (lib : SettingsLibrary) : Prop extends Keyed lib where
  truth {source : EnvironmentSource} (hs : source.tryParsing = true) {value : String} {b : Bool}
    (h : Setting.truth? value.toList = some b) (name : String) :
    lib.ofVariable source name value = .truth b
  integer {source : EnvironmentSource} (hs : source.tryParsing = true) {value : String} {n : Int64}
    (htruth : Setting.truth? value.toList = none) (h : Decimal.int64? value.toList = some n)
    (name : String) : lib.ofVariable source name value = .integer n
  float {source : EnvironmentSource} (hs : source.tryParsing = true) {value : String} {x : Binary64}
    (htruth : Setting.truth? value.toList = none) (hint : Decimal.int64? value.toList = none)
    (h : Decimal.float? value.toList = some x) (name : String) :
    lib.ofVariable source name value = .float x
  list {source : EnvironmentSource} (hs : source.tryParsing = true) {value : String}
    (htruth : Setting.truth? value.toList = none) (hint : Decimal.int64? value.toList = none)
    (hfloat : Decimal.float? value.toList = none) {name : String} (hname : name ∈ source.listKeys) :
    lib.ofVariable source name value =
      .list (((value.toList.splitOn source.listSeparator).map String.ofList).map .text)
  text {source : EnvironmentSource} (hs : source.tryParsing = true) {value : String}
    (htruth : Setting.truth? value.toList = none) (hint : Decimal.int64? value.toList = none)
    (hfloat : Decimal.float? value.toList = none) {name : String} (hname : name ∉ source.listKeys) :
    lib.ofVariable source name value = .text value
  text?_truth (b : Bool) : lib.text? (.truth b) = some (toString b)
  text?_integer (n : Int64) : lib.text? (.integer n) = some (toString n.toInt)
  text?_float (x : Binary64) : lib.text? (.float x) = some x.text
  texts?_truth (b : Bool) : lib.texts? (.truth b) = none
  texts?_integer (n : Int64) : lib.texts? (.integer n) = none
  texts?_float (x : Binary64) : lib.texts? (.float x) = none
  texts?_list (parts : List String) : lib.texts? (.list (parts.map .text)) = some parts

end SettingsLibrary

/-! ### Layers -/

namespace Layer
variable {layer : Layer} {key : String}

def forKey (layer : Layer) (key : String) : Layer := layer.filter fun x => leadsTo x.1 key

def LeadsInto (layer : Layer) (key : String) : Prop := ∃ x ∈ layer, leadsTo x.1 key = true ∧ x.1 ≠ key

instance (layer : Layer) (key : String) : Decidable (layer.LeadsInto key) := by
  unfold LeadsInto
  infer_instance

/-- The layer has the value for the key, or none at all. -/
def Gives (layer : Layer) (key : String) : Option Setting → Prop
  | some v => (key, v) ∈ layer
  | none => ∀ x ∈ layer, x.1 ≠ key

theorem Gives.cons {v : Option Setting} (h : layer.Gives key v) {x : String × Setting}
    (hx : v.isSome ∨ x.1 ≠ key) : Gives (x :: layer) key v := by
  cases v with
  | some v => exact List.mem_cons_of_mem _ h
  | none => exact List.forall_mem_cons.2 ⟨hx.resolve_left nofun, h⟩

theorem forKey_cons (x : String × Setting) (layer : Layer) (key : String) :
    forKey (x :: layer) key = if leadsTo x.1 key then x :: layer.forKey key else layer.forKey key :=
  List.filter_cons

end Layer

namespace SettingsLibrary
variable {lib : SettingsLibrary} {key : String}

theorem setAll_cons (t : lib.Table) (x : String × Setting) (layer : Layer) :
    lib.setAll t (x :: layer) = lib.setAll (lib.set t x.1 x.2) layer := rfl

namespace Keyed

/-- Where no name leads into the value of a key, a layer gives the key one of its values for it, or leaves
it alone. -/
theorem get_setAll (h : lib.Keyed) (hkey : key ∈ Settings.keys) {layer : Layer}
    (hinto : ¬layer.LeadsInto key) (t : lib.Table) :
    ∃ v, layer.Gives key v ∧ lib.get (lib.setAll t layer) key = v.or (lib.get t key) := by
  induction layer generalizing t with
  | nil => exact ⟨none, List.forall_mem_nil _, rfl⟩
  | cons x layer ih =>
    have hrest : ¬Layer.LeadsInto layer key := fun ⟨y, hy, hy'⟩ => hinto ⟨y, List.mem_cons_of_mem _ hy, hy'⟩
    obtain ⟨v, hv, hget⟩ := ih hrest (lib.set t x.1 x.2)
    rw [setAll_cons, hget]
    by_cases hx : x.1 = key
    · rw [hx, h.get_set hkey]
      cases v with
      | some v => exact ⟨some v, hv.cons (.inl rfl), rfl⟩
      | none => exact ⟨some x.2, hx ▸ List.mem_cons_self .., rfl⟩
    · have hleads : leadsTo x.1 key = false := Bool.eq_false_iff.2 fun hleads =>
        hinto ⟨x, List.mem_cons_self .., hleads, hx⟩
      rw [h.get_set_of_not_leadsTo hleads]
      exact ⟨v, hv.cons (.inr hx), rfl⟩

/-- The value of a key depends on the entries for it and on nothing else. -/
theorem get_setAll_forKey (h : lib.Keyed) (layer : Layer) {t u : lib.Table}
    (htu : lib.get t key = lib.get u key) :
    lib.get (lib.setAll t layer) key = lib.get (lib.setAll u (layer.forKey key)) key := by
  induction layer generalizing t u with
  | nil => exact htu
  | cons x layer ih =>
    rw [setAll_cons, Layer.forKey_cons]
    cases hx : leadsTo x.1 key with
    | true =>
      rw [if_pos rfl, setAll_cons]
      exact ih (h.get_set_congr htu x.1 x.2)
    | false =>
      rw [if_neg Bool.false_ne_true]
      exact ih ((h.get_set_of_not_leadsTo hx t x.2).trans htu)

theorem get_table_forKey (h : lib.Keyed) (file environment : Layer) (key : String) :
    lib.get (lib.table file environment) key =
      lib.get (lib.table (file.forKey key) (environment.forKey key)) key :=
  h.get_setAll_forKey environment (h.get_setAll_forKey file rfl)

end Keyed

/-! ### The texts of variables -/

namespace TriesParsing
variable {source : EnvironmentSource} {name value : String}

theorem ofVariable_scalar (h : lib.TriesParsing) (hs : source.tryParsing = true) {v : Setting}
    (hv : Setting.scalar? value = some v) (name : String) :
    lib.ofVariable source name value = v ∧
      (∃ written, v.asText? = some written ∧ lib.text? v = some written) ∧ lib.texts? v = none := by
  rcases Setting.scalar?_eq_some hv with ⟨b, htruth, rfl⟩ | ⟨htruth, n, hint, rfl⟩ |
    ⟨htruth, hint, x, hfloat, rfl⟩
  · exact ⟨h.truth hs htruth name, ⟨_, by cases b <;> rfl, h.text?_truth b⟩, h.texts?_truth b⟩
  · exact ⟨h.integer hs htruth hint name, ⟨_, rfl, h.text?_integer n⟩, h.texts?_integer n⟩
  · exact ⟨h.float hs htruth hint hfloat name, ⟨_, rfl, h.text?_float x⟩, h.texts?_float x⟩

theorem text?_ofVariable (h : lib.TriesParsing) (hs : source.tryParsing = true)
    (hname : name ∉ source.listKeys) (value : String) :
    lib.text? (lib.ofVariable source name value) = some (Setting.rewritten value) := by
  cases hv : Setting.scalar? value with
  | some v =>
    obtain ⟨hvalue, ⟨written, hwritten, htext⟩, -⟩ := h.ofVariable_scalar hs hv name
    rw [hvalue, htext, Setting.rewritten, hv, Option.bind_some, hwritten]
    rfl
  | none =>
    obtain ⟨htruth, hint, hfloat⟩ := Setting.scalar?_eq_none.1 hv
    rw [h.text hs htruth hint hfloat hname, h.text?_text, Setting.rewritten_of_none hv]

theorem texts?_ofVariable (h : lib.TriesParsing) (hs : source.tryParsing = true)
    (hname : name ∈ source.listKeys) (value : String) :
    lib.texts? (lib.ofVariable source name value) = if Setting.scalar? value = none
      then some ((value.toList.splitOn source.listSeparator).map String.ofList) else none := by
  cases hv : Setting.scalar? value with
  | some v =>
    obtain ⟨hvalue, -, htexts⟩ := h.ofVariable_scalar hs hv name
    rw [hvalue, htexts, if_neg nofun]
  | none =>
    obtain ⟨htruth, hint, hfloat⟩ := Setting.scalar?_eq_none.1 hv
    rw [h.list hs htruth hint hfloat hname, h.texts?_list, if_pos rfl]

end TriesParsing
end SettingsLibrary
end TypedRecords
