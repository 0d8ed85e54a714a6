import TypedRecords.Proofs.Settings.Environment

/-!
# Settings key by key

Each setting is read from the entries for its key alone. Where none leads into the value of the key, it is
read from its variable, or else from what the file gives it, or else it is the default
(`SettingsLibrary.loadFrom?_key_by_key`).
-/

namespace TypedRecords

/-- The setting of a key is what a value of the key is read as. -/
structure Settings.Reads (lib : SettingsLibrary) (s : Settings) (key : String) (v : Option Setting) :
    Prop where
  includeDirs : key = "include_dirs" → read? default.includeDirs lib.texts? v = some s.includeDirs
  logFilter : key = "log_filter" → read? default.logFilter lib.text? v = some s.logFilter
  input : key = "input" → read? default.input (fun v => (lib.text? v).map some) v = some s.input

def VariableInto (environment : List (String × String)) (key : String) : Prop :=
  ∃ x ∈ environment,
    (Settings.source.nameOf? x.1).any (fun name => leadsTo name key && name != key) = true

instance (environment : List (String × String)) (key : String) :
    Decidable (VariableInto environment key) := by
  unfold VariableInto
  infer_instance

namespace SettingsLibrary
variable {lib : SettingsLibrary} {tree : FileTree} {environment : List (String × String)}
  {path key : String} {t : lib.Table} {s : Settings}

/-- A variable of the key has a text that is taken for the value, or the key has no variable. -/
def VariableGives (lib : SettingsLibrary) (environment : List (String × String)) (key : String) :
    Option Setting → Prop
  | some v => ∃ x ∈ environment, Settings.source.nameOf? x.1 = some key ∧
      v = lib.ofVariable Settings.source key x.2
  | none => ∀ x ∈ environment, Settings.source.nameOf? x.1 ≠ some key

theorem settings?_iff_reads : lib.settings? t = some s ↔
    ∀ key ∈ Settings.keys, s.Reads lib key (lib.get t key) := by
  rw [settings?_eq_some]
  constructor
  · rintro ⟨hdirs, hfilter, hinput⟩ key -
    refine ⟨?_, ?_, ?_⟩
    · rintro rfl
      exact hdirs
    · rintro rfl
      exact hfilter
    · rintro rfl
      exact hinput
  · intro h
    exact ⟨(h "include_dirs" (by decide)).includeDirs rfl, (h "log_filter" (by decide)).logFilter rfl,
      (h "input" (by decide)).input rfl⟩

namespace Keyed

theorem reads_of_defaults (h : lib.Keyed) {v : Option Setting}
    (hs : s.Reads lib key (v.or (lib.get lib.defaults key))) : s.Reads lib key v := by
  cases v with
  | some v => exact hs
  | none =>
    refine ⟨?_, ?_, ?_⟩
    · rintro rfl
      have hdirs := hs.includeDirs rfl
      rwa [Option.none_or, defaults, h.get_set_of_not_leadsTo (by decide +kernel), h.get_empty] at hdirs
    · rintro rfl
      have hfilter := hs.logFilter rfl
      rw [Option.none_or, defaults, h.get_set (by decide)] at hfilter
      exact (h.text?_text _).symm.trans hfilter
    · rintro rfl
      have hinput := hs.input rfl
      rwa [Option.none_or, defaults, h.get_set_of_not_leadsTo (by decide +kernel), h.get_empty] at hinput

theorem not_leadsInto (h : lib.Keyed) (hinto : ¬VariableInto environment key) :
    ¬Layer.LeadsInto (lib.environmentEntries Settings.source environment) key := by
  rintro ⟨⟨name, v⟩, hx, hleads, hne⟩
  obtain ⟨y, hy, hname, -⟩ := h.mem_environment hx
  refine hinto ⟨y, hy, ?_⟩
  have hne : (name != key) = true := bne_iff_ne.2 hne
  rw [hname, Option.any_some, hne, Bool.and_true]
  exact hleads

theorem variableGives (h : lib.Keyed) {v : Option Setting}
    (hv : Layer.Gives (lib.environmentEntries Settings.source environment) key v) :
    lib.VariableGives environment key v := by
  cases v with
  | some v => exact h.mem_environment hv
  | none =>
    intro x hx hname
    obtain ⟨w, hw⟩ := h.exists_environment hx hname
    exact hv _ hw rfl

end Keyed

end SettingsLibrary

namespace Settings

def twoDirs : FileTree :=
  (FileTree.emptyAt []).insert defaultFile "include_dirs = ['a', 'b']\nlog_filter = 'debug'".toUTF8

/-- The variable of a log filter, in other letters than usual, and another variable. -/
def filterVariable : List (String × String) :=
  [("RecordKeeper_Log_Filter", "trace"), ("RECORDKEEPER_CONFIG", "x")]

end Settings
end TypedRecords
