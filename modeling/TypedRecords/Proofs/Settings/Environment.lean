import TypedRecords.Proofs.Settings.Standard

/-!
# Settings from the environment

The directories are the parts of the text of their variable between commas, and an input or a log filter is
the text of its variable, unless the text reads as a truth value or a number: then it is no list, and as a
text it is written out anew (`SettingsLibrary.load_with_variable`).
-/

namespace TypedRecords

/-- The variable is in the environment, and no other one is for the key or leads into its value. -/
def OnlyVariable (environment : List (String × String)) (key : String) (x : String × String) : Prop :=
  x ∈ environment ∧ ∀ y ∈ environment,
    (Settings.source.nameOf? y.1).any (fun name => leadsTo name key) = true → y = x

instance (environment : List (String × String)) (key : String) (x : String × String) :
    Decidable (OnlyVariable environment key x) := by
  unfold OnlyVariable
  infer_instance

namespace SettingsLibrary
variable {lib : SettingsLibrary} {tree : FileTree} {environment : List (String × String)}
  {path key : String} {t : lib.Table}

theorem table?_eq_some : lib.table? tree environment path = some t ↔
    ∃ file, lib.fileEntries? tree path = some file ∧
      lib.table file (lib.environmentEntries Settings.source environment) = t :=
  Option.map_eq_some_iff

theorem loadFrom?_eq (ht : lib.table? tree environment path = some t) :
    lib.loadFrom? tree environment path = lib.settings? t := by
  rw [loadFrom?, ht]
  rfl

theorem settings?_eq_some {s : Settings} : lib.settings? t = some s ↔
    lib.includeDirs? t = some s.includeDirs ∧ lib.logFilter? t = some s.logFilter ∧
      lib.input? t = some s.input := by
  constructor
  · intro h
    obtain ⟨includeDirs, hdirs, h⟩ := Option.bind_eq_some_iff.1 h
    obtain ⟨logFilter, hfilter, h⟩ := Option.bind_eq_some_iff.1 h
    obtain ⟨input, hinput, h⟩ := Option.bind_eq_some_iff.1 h
    cases h
    exact ⟨hdirs, hfilter, hinput⟩
  · rintro ⟨hdirs, hfilter, hinput⟩
    rw [settings?, hdirs, hfilter, hinput]
    rfl

/-- A variable that is the only one for a key gives it its value. -/
theorem Keyed.get_variable (h : lib.Keyed) (ht : lib.table? tree environment path = some t)
    (hkey : key ∈ Settings.keys) {variableName value : String}
    (hname : Settings.source.nameOf? variableName = some key)
    (honly : OnlyVariable environment key (variableName, value)) :
    lib.get t key = some (lib.ofVariable Settings.source key value) := by
  obtain ⟨file, -, rfl⟩ := table?_eq_some.1 ht
  obtain ⟨hx, honly⟩ := honly
  have hvariable : ∀ y ∈ environment, ∀ name, Settings.source.nameOf? y.1 = some name →
      leadsTo name key = true → y = (variableName, value) := by
    intro y hy name hyname hleads
    exact honly y hy (by rw [hyname]; exact hleads)
  have hinto : ¬Layer.LeadsInto (lib.environmentEntries Settings.source environment) key := by
    rintro ⟨⟨name, v⟩, hz, hleads, hne⟩
    obtain ⟨y, hy, hyname, -⟩ := h.mem_environment hz
    obtain rfl := hvariable y hy name hyname hleads
    exact hne (Option.some.inj (hyname.symm.trans hname))
  obtain ⟨v, hv, hget⟩ := h.get_setAll hkey hinto (lib.setAll lib.defaults file)
  refine hget.trans ?_
  cases v with
  | none =>
    obtain ⟨w, hw⟩ := h.exists_environment hx hname
    exact absurd rfl (hv _ hw)
  | some v =>
    obtain ⟨y, hy, hyname, rfl⟩ := h.mem_environment hv
    obtain rfl := hvariable y hy key hyname (leadsTo_self key)
    rfl

/-- Two directories, one of which would read as a number if it were alone. -/
def twoDirectories : List (String × String) :=
  [("RECORDKEEPER_LOG_FILTER", "debug"), ("RECORDKEEPER_INCLUDE_DIRS", "lib,2024"), ("HOME", "/")]

end SettingsLibrary

namespace Settings

end Settings
end TypedRecords
