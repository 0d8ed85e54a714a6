import TypedRecords.Proofs.Settings.Library
import TypedRecords.Settings.Standard

/-!
# The library of the program

The library that the program reads its settings with behaves as results about settings ask for.
-/

namespace TypedRecords

/-! ### Key paths -/

namespace KeyPath

theorem head_of_steps? {size : Nat} {cs : List Char} {steps : List KeyStep} (h : steps? size cs = some steps) :
    cs = [] ∨ (∃ rest, cs = '.' :: rest) ∨ ∃ rest, cs = '[' :: rest := by
  unfold steps? at h
  split at h
  · exact .inl rfl
  · cases h
  · exact .inr (.inl ⟨_, rfl⟩)
  · exact .inr (.inr ⟨_, rfl⟩)
  · cases h

/-- A name leads to the key that its path begins with. -/
theorem leadsTo_key (name : String) : leadsTo name (ofName name).key = true := by
  unfold ofName
  cases hparse : parse? name with
  | none => exact leadsTo_self name
  | some path =>
    obtain ⟨⟨key, rest⟩, hname, hparse⟩ := Option.bind_eq_some_iff.1 hparse
    obtain ⟨steps, hsteps, hpath⟩ := Option.bind_eq_some_iff.1 hparse
    cases hpath
    unfold name? at hname
    split at hname
    · cases hname
    · obtain ⟨rfl, rfl⟩ := Prod.mk.inj (Option.some.inj hname)
      have hall := List.takeWhile_append_dropWhile (p := isNameChar) (l := name.toList)
      show leadsTo name (String.ofList (name.toList.takeWhile isNameChar)) = true
      unfold leadsTo
      rw [String.toList_ofList]
      rcases head_of_steps? hsteps with hnil | ⟨rest, hrest⟩ | ⟨rest, hrest⟩
      · rw [hnil, List.append_nil] at hall
        rw [hall, String.ofList_toList]
        simp
      · have hpoint : name.toList.takeWhile isNameChar ++ ['.'] <+: name.toList :=
          ⟨rest, by rw [List.append_assoc, List.singleton_append, ← hrest, hall]⟩
        rw [List.isPrefixOf_iff_prefix.2 hpoint, Bool.or_true, Bool.true_or]
      · have hbracket : name.toList.takeWhile isNameChar ++ ['['] <+: name.toList :=
          ⟨rest, by rw [List.append_assoc, List.singleton_append, ← hrest, hall]⟩
        rw [List.isPrefixOf_iff_prefix.2 hbracket, Bool.or_true]

theorem ofName_of_mem_keys {key : String} (h : key ∈ Settings.keys) : ofName key = ⟨key, []⟩ := by
  revert key
  decide +kernel

end KeyPath

/-! ### Tables -/

namespace SettingTable

theorem lookup_entry (t : SettingTable) (name k : String) (v : Setting) :
    List.lookup k ((name, v) :: t) = if k = name then some v else t.lookup k := by
  by_cases hk : k = name
  · rw [if_pos hk, hk, List.lookup_cons_self]
  · rw [if_neg hk, List.lookup_cons, beq_eq_false_iff_ne.2 hk]

theorem lookup_map_entry (t : SettingTable) (key k : String) (f : Setting → Setting) :
    (t.map fun (name, v) => if name = key then (name, f v) else (name, v)).lookup k =
      if k = key then (t.lookup k).map f else t.lookup k := by
  induction t with
  | nil => rw [List.map_nil, List.lookup_nil, Option.map_none, ite_self]
  | cons x t ih =>
    obtain ⟨name, v⟩ := x
    have hentry : (if name = key then (name, f v) else (name, v)) =
        (name, if name = key then f v else v) := by split <;> rfl
    show List.lookup k ((if name = key then (name, f v) else (name, v)) :: _) = _
    rw [hentry, lookup_entry, lookup_entry, ih]
    by_cases hk : k = name
    · by_cases hname : name = key <;> simp [hk, hname]
    · rw [if_neg hk, if_neg hk]

theorem isSome_lookup (t : SettingTable) (key : String) :
    (t.lookup key).isSome = t.any (·.1 = key) := by
  induction t with
  | nil => rfl
  | cons x t ih =>
    obtain ⟨name, v⟩ := x
    rw [lookup_entry, List.any_cons, ← ih]
    by_cases hkey : key = name
    · simp [hkey]
    · simp [hkey, Ne.symm hkey]

theorem lookup_change (t : SettingTable) (key k : String) (f : Setting → Setting) :
    (t.change key f).lookup k =
      if k = key then some (f ((t.lookup k).getD .unset)) else t.lookup k := by
  rw [change, ← isSome_lookup]
  cases hkey : t.lookup key with
  | some v =>
    rw [Option.isSome_some, if_pos rfl, lookup_map_entry]
    by_cases hk : k = key
    · rw [if_pos hk, if_pos hk, hk, hkey]
      rfl
    · rw [if_neg hk, if_neg hk]
  | none =>
    rw [Option.isSome_none, if_neg Bool.false_ne_true, List.lookup_append, lookup_entry, List.lookup_nil]
    by_cases hk : k = key
    · rw [if_pos hk, if_pos hk, hk, hkey]
      rfl
    · rw [if_neg hk, if_neg hk, Option.or_none]

theorem lookup_assign (t : SettingTable) (name k : String) (v : Setting) :
    (t.assign name v).lookup k = if (KeyPath.ofName name).key = k
      then some (v.setAt (KeyPath.ofName name).steps ((t.lookup k).getD .unset)) else t.lookup k := by
  rw [assign, lookup_change]
  by_cases hk : k = (KeyPath.ofName name).key
  · rw [if_pos hk, if_pos hk.symm]
  · rw [if_neg hk, if_neg (Ne.symm hk)]

end SettingTable

namespace Setting

theorem mapM_asText? (parts : List String) : (parts.map text).mapM asText? = some parts := by
  induction parts with
  | nil => rfl
  | cons part parts ih =>
    rw [List.map_cons, List.mapM_cons, ih]
    rfl

end Setting

/-! ### The library -/

namespace SettingsLibrary

theorem standard_keyed : standard.Keyed where
  get_empty _ := rfl
  get_set {key} hkey t v := by
    refine (SettingTable.lookup_assign t key key v).trans ?_
    rw [KeyPath.ofName_of_mem_keys hkey, if_pos rfl]
    rfl
  get_set_of_not_leadsTo {name key} h t v := by
    refine (SettingTable.lookup_assign t name key v).trans (if_neg ?_)
    rintro rfl
    rw [KeyPath.leadsTo_key] at h
    cases h
  get_set_congr {t u key} h name v := by
    refine (SettingTable.lookup_assign t name key v).trans
      (Eq.trans ?_ (SettingTable.lookup_assign u name key v).symm)
    rw [show t.lookup key = u.lookup key from h]
  mem_environment {source environment name v} h := by
    obtain ⟨x, hx, hname⟩ := List.mem_filterMap.1 h
    obtain ⟨name', hname', heq⟩ := Option.map_eq_some_iff.1 hname
    obtain ⟨rfl, rfl⟩ := Prod.mk.inj heq
    exact ⟨x, hx, hname', rfl⟩
  exists_environment {source environment x} hx {name} hname :=
    ⟨_, List.mem_filterMap.2 ⟨x, hx, congrArg (Option.map _) hname⟩⟩
  text?_text _ := rfl

theorem standard_triesParsing : standard.TriesParsing where
  toKeyed := standard_keyed
  truth {source} hs {value b} h name := by
    show Setting.ofVariable source name value = _
    rw [Setting.ofVariable, hs, h]
  integer {source} hs {value n} htruth h name := by
    show Setting.ofVariable source name value = _
    rw [Setting.ofVariable, hs, htruth, h]
  float {source} hs {value x} htruth hint h name := by
    show Setting.ofVariable source name value = _
    rw [Setting.ofVariable, hs, htruth, hint, h]
  list {source} hs {value} htruth hint hfloat {name} hname := by
    show Setting.ofVariable source name value = _
    rw [Setting.ofVariable, hs, htruth, hint, hfloat]
    simp only [if_pos hname, splitParts_eq_splitOn, List.map_map]
    rfl
  text {source} hs {value} htruth hint hfloat {name} hname := by
    show Setting.ofVariable source name value = _
    rw [Setting.ofVariable, hs, htruth, hint, hfloat]
    exact if_neg hname
  text?_truth b := by cases b <;> rfl
  text?_integer _ := rfl
  text?_float _ := rfl
  texts?_truth _ := rfl
  texts?_integer _ := rfl
  texts?_float _ := rfl
  texts?_list := Setting.mapM_asText?

end SettingsLibrary
end TypedRecords
