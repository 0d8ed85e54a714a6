import Mathlib.Data.List.Induction
import TypedRecords.CommandLine

/-!
# Options and the input of a command line

Every list of arguments is read in one way as options, each with its directory, and inputs, where an option at
the very end may lack its directory (`Argument.existsUnique_line`). What a run does depends on the directories
of the options, in their order, and on the inputs, but not on where the inputs stand among the options
(`CommandLine.options_anywhere`).
-/

namespace TypedRecords

/-- One option with its directory, or one input. -/
inductive Argument
  /-- `-I` with the directory in the argument after it, whatever that is. -/
  | apart (dir : String)
  /-- `-I` and the directory in one argument. -/
  | joined (dir : String) (h : dir ≠ "")
  /-- An argument that does not begin with `-I`. -/
  | input (path : String) (h : ¬"-I".toList <+: path.toList)

namespace Argument

def words : Argument → List String
  | apart dir => ["-I", dir]
  | joined dir _ => ["-I" ++ dir]
  | input path _ => [path]

def dir? : Argument → Option String
  | apart dir => some dir
  | joined dir _ => some dir
  | input .. => none

def path? : Argument → Option String
  | apart _ => none
  | joined .. => none
  | input path _ => some path

/-- The directories of the options, in order. -/
def dirs (items : List Argument) : List String := items.filterMap dir?

def paths (items : List Argument) : List String := items.filterMap path?

/-- An option at the end that lacks its directory. -/
def bare (lacks : Bool) : List String := if lacks then ["-I"] else []

/-- The arguments that options and inputs are written as. -/
def line (items : List Argument) : List String := items.flatMap words

theorem line_cons (x : Argument) (items : List Argument) (rest : List String) :
    line (x :: items) ++ rest = x.words ++ (line items ++ rest) := by
  rw [line, List.flatMap_cons, List.append_assoc]
  rfl

/-! ### One way to read -/

section
variable {x y : Argument} {items items' : List Argument} {s t : List String}

theorem prefix_joined (dir : String) : "-I".toList <+: ("-I" ++ dir).toList :=
  ⟨dir.toList, String.toList_append.symm⟩

theorem joined_inj {dir dir' : String} : "-I" ++ dir = "-I" ++ dir' ↔ dir = dir' := by
  rw [← String.toList_inj, ← String.toList_inj, String.toList_append, String.toList_append,
    List.append_cancel_left_eq]

theorem joined_ne {dir : String} (h : dir ≠ "") : "-I" ++ dir ≠ "-I" := fun heq =>
  h (joined_inj.1 (heq.trans String.append_empty.symm))

theorem words_append_inj (h : x.words ++ s = y.words ++ t) : x = y ∧ s = t := by
  cases x with
  | apart dir =>
    cases y with
    | apart dir' =>
      obtain ⟨-, h⟩ := List.cons.inj h
      obtain ⟨rfl, rfl⟩ := List.cons.inj h
      exact ⟨rfl, rfl⟩
    | joined dir' hdir => exact absurd (List.cons.inj h).1.symm (joined_ne hdir)
    | input path hpath => exact absurd ((List.cons.inj h).1 ▸ List.prefix_rfl) hpath
  | joined dir hdir =>
    cases y with
    | apart dir' => exact absurd (List.cons.inj h).1 (joined_ne hdir)
    | joined dir' hdir' =>
      obtain ⟨hword, rfl⟩ := List.cons.inj h
      obtain rfl := joined_inj.1 hword
      exact ⟨rfl, rfl⟩
    | input path hpath => exact absurd ((List.cons.inj h).1 ▸ prefix_joined dir) hpath
  | input path hpath =>
    cases y with
    | apart dir' => exact absurd ((List.cons.inj h).1 ▸ List.prefix_rfl) hpath
    | joined dir' hdir => exact absurd ((List.cons.inj h).1 ▸ prefix_joined dir') hpath
    | input path' hpath' =>
      obtain ⟨rfl, rfl⟩ := List.cons.inj h
      exact ⟨rfl, rfl⟩

theorem bare_ne_words {lacks : Bool} : bare lacks ≠ x.words ++ s := by
  intro h
  cases lacks with
  | false => cases x <;> cases h
  | true =>
    cases x with
    | apart dir => cases (List.cons.inj h).2
    | joined dir hdir => exact joined_ne hdir (List.cons.inj h).1.symm
    | input path hpath => exact hpath ((List.cons.inj h).1 ▸ List.prefix_rfl)

theorem line_inj {lacks lacks' : Bool} (h : line items ++ bare lacks = line items' ++ bare lacks') :
    items = items' ∧ lacks = lacks' := by
  induction items generalizing items' with
  | nil =>
    cases items' with
    | nil => exact ⟨rfl, by cases lacks <;> cases lacks' <;> first | rfl | cases h⟩
    | cons y items' =>
      rw [line_cons] at h
      exact absurd h bare_ne_words
  | cons x items ih =>
    cases items' with
    | nil =>
      rw [line_cons] at h
      exact absurd h.symm bare_ne_words
    | cons y items' =>
      rw [line_cons, line_cons] at h
      obtain ⟨rfl, hrest⟩ := words_append_inj h
      obtain ⟨rfl, rfl⟩ := ih hrest
      exact ⟨rfl, rfl⟩

/-- Any argument but a bare option is an option with its directory or an input. -/
theorem exists_words {word : String} (h : word ≠ "-I") : ∃ x : Argument, x.words = [word] := by
  by_cases hoption : "-I".toList <+: word.toList
  · obtain ⟨dir, hdir⟩ := hoption
    have hdir' : String.ofList ("-I".toList ++ dir) = word := by rw [hdir, String.ofList_toList]
    have hword : "-I" ++ String.ofList dir = word := by
      rw [← hdir', String.ofList_append, String.ofList_toList]
    have hne : String.ofList dir ≠ "" := fun hempty => h (by rw [← hword, hempty, String.append_empty])
    exact ⟨.joined _ hne, congrArg ([·]) hword⟩
  · exact ⟨.input word hoption, rfl⟩

theorem exists_line (args : List String) : ∃ items lacks, args = line items ++ bare lacks := by
  have hcons : ∀ {word : String} {args : List String}, word ≠ "-I" →
      (∃ items lacks, args = line items ++ bare lacks) →
      ∃ items lacks, word :: args = line items ++ bare lacks := by
    rintro word args hword ⟨items, lacks, rfl⟩
    obtain ⟨x, hx⟩ := exists_words hword
    exact ⟨x :: items, lacks, by rw [line_cons, hx]; rfl⟩
  induction args using List.twoStepInduction with
  | nil => exact ⟨[], false, rfl⟩
  | singleton word =>
    by_cases hword : word = "-I"
    · exact ⟨[], true, by rw [hword]; rfl⟩
    · exact hcons hword ⟨[], false, rfl⟩
  | cons_cons word dir args ih ih' =>
    by_cases hword : word = "-I"
    · obtain ⟨items, lacks, rfl⟩ := ih
      exact ⟨.apart dir :: items, lacks, by rw [hword]; rfl⟩
    · exact hcons hword (ih' dir)

/-- Reading from left to right, every list of arguments falls into options and inputs, with an option that
lacks its directory at the end or none. -/
theorem existsUnique_line (args : List String) :
    ∃! r : List Argument × Bool, args = line r.1 ++ bare r.2 := by
  obtain ⟨items, lacks, rfl⟩ := exists_line args
  refine ⟨(items, lacks), rfl, fun r hr => ?_⟩
  obtain ⟨hitems, hlacks⟩ := line_inj hr
  exact Prod.ext hitems.symm hlacks.symm

end
end Argument

/-! ### What is read -/

namespace Arguments
open Argument
variable {a : Arguments}

theorem joinedDir?_joined (dir : String) : joinedDir? ("-I" ++ dir) = some dir := by
  unfold joinedDir?
  rw [String.toList_append]
  exact congrArg some String.ofList_toList

theorem joinedDir?_input {path : String} (h : ¬"-I".toList <+: path.toList) : joinedDir? path = none := by
  unfold joinedDir?
  split
  · rename_i dir hdir
    exact absurd ⟨dir, hdir.symm⟩ h
  · rfl

/-- What an argument other than a bare option adds. -/
theorem readFrom_word {word : String} (h : word ≠ "-I") (a : Arguments) (args : List String) :
    a.readFrom (word :: args) =
      match joinedDir? word, a.input with
      | some dir, _ => readFrom { a with includeDirs := a.includeDirs ++ [dir] } args
      | none, none => readFrom { a with input := some word } args
      | none, some _ => none :=
  readFrom.eq_4 a word args (fun hword _ => h hword) fun _ _ hword _ => h hword

/-- Options and inputs are taken up one by one, as long as there is one input at most. -/
theorem readFrom_line (a : Arguments) (items : List Argument) (rest : List String) :
    a.readFrom (line items ++ rest) =
      if (a.input.toList ++ paths items).length ≤ 1 then
        readFrom ⟨a.input.or (paths items).head?, a.includeDirs ++ dirs items⟩ rest
      else none := by
  induction items generalizing a with
  | nil =>
    have hone : (a.input.toList ++ paths []).length ≤ 1 := by cases a.input <;> simp [paths]
    rw [if_pos hone]
    simp [line, paths, dirs]
  | cons x items ih =>
    rw [line_cons]
    cases x with
    | apart dir =>
      show readFrom a ("-I" :: dir :: (line items ++ rest)) = _
      rw [readFrom, ih, List.append_assoc]
      rfl
    | joined dir hdir =>
      show readFrom a (("-I" ++ dir) :: (line items ++ rest)) = _
      rw [readFrom_word (joined_ne hdir), joinedDir?_joined]
      dsimp only
      rw [ih, List.append_assoc]
      rfl
    | input path hpath =>
      have hne : path ≠ "-I" := fun h => hpath (h ▸ List.prefix_rfl)
      show readFrom a (path :: (line items ++ rest)) = _
      rw [readFrom_word hne, joinedDir?_input hpath]
      cases hinput : a.input with
      | none =>
        dsimp only
        rw [ih]
        rfl
      | some first => exact (if_neg (by simp [paths, path?])).symm

theorem read_line (items : List Argument) (lacks : Bool) :
    read (line items ++ bare lacks) =
      if (paths items).length ≤ 1 ∧ lacks = false then some ⟨(paths items).head?, dirs items⟩ else none := by
  rw [read, readFrom_line]
  show (if (paths items).length ≤ 1 then readFrom ⟨(paths items).head?, dirs items⟩ (bare lacks) else none) = _
  by_cases hone : (paths items).length ≤ 1
  · cases lacks with
    | true => rw [if_pos hone, if_neg (by simp)]; rfl
    | false => rw [if_pos hone, if_pos ⟨hone, rfl⟩]; rfl
  · rw [if_neg hone, if_neg fun h => hone h.1]

end Arguments

/-! ### What a run does -/

namespace CommandLine
open Argument
variable {tree : FileTree} {environment : List (String × String)}

theorem run_congr {args args' : List String} (h : Arguments.read args = Arguments.read args') :
    run tree environment args = run tree environment args' := by
  rw [run, run, output?, output?, h]

theorem run_eq_iff (args : List String) (exitCode : Nat) (stdout : String) :
    run tree environment args = ⟨exitCode, stdout⟩ ↔
      exitCode = 0 ∧ output? tree environment args = some stdout ∨
      exitCode = 1 ∧ stdout = "" ∧ output? tree environment args = none := by
  unfold run
  cases output? tree environment args with
  | none => simp [eq_comm]
  | some text => simp [eq_comm]

/-- One input at most cannot change its place among the inputs. -/
theorem paths_eq_of_perm {paths paths' : List String} (h : paths.Perm paths') (hone : paths.length ≤ 1) :
    paths = paths' := by
  match paths, hone with
  | [], _ => exact h.nil_eq
  | [path], _ => exact List.singleton_perm.1 h

/-- Moving an input leaves the directories as they are. The inputs may change places, but if there is more than
one of them, the arguments are refused. -/
theorem read_line_moved (before between after : List Argument) (path : String)
    (h : ¬"-I".toList <+: path.toList) (lacks : Bool) :
    Arguments.read (line (before ++ input path h :: (between ++ after)) ++ bare lacks) =
      Arguments.read (line (before ++ (between ++ input path h :: after)) ++ bare lacks) := by
  have hdirs : dirs (before ++ input path h :: (between ++ after)) =
      dirs (before ++ (between ++ input path h :: after)) := by
    simp only [dirs, List.filterMap_append, List.filterMap_cons, dir?]
  have hpaths : (paths (before ++ input path h :: (between ++ after))).Perm
      (paths (before ++ (between ++ input path h :: after))) :=
    (List.perm_middle.symm.append_left before).filterMap path?
  rw [Arguments.read_line, Arguments.read_line, hdirs, ← hpaths.length_eq]
  by_cases hone : (paths (before ++ input path h :: (between ++ after))).length ≤ 1
  · rw [paths_eq_of_perm hpaths hone]
  · rw [if_neg fun hboth => hone hboth.1, if_neg fun hboth => hone hboth.1]

/-- What a run prints, told by the options and the inputs. -/
theorem output?_line (items : List Argument) (lacks : Bool) :
    output? tree environment (line items ++ bare lacks) = (do
      let settings ← Settings.load? tree environment
      guard ((paths items).length ≤ 1 ∧ lacks = false)
      let input ← (paths items).head?.or settings.input
      let source ← tree.text? input
      let path : SearchPath :=
        ⟨tree, dirs items ++ settings.includeDirs ++ (Path.parent? input).toList⟩
      (Session.read path input source).toOption.map (·.db.text)) := by
  rw [output?, Arguments.read_line]
  refine congrArg (Option.bind (Settings.load? tree environment)) (funext fun settings => ?_)
  by_cases haccepted : (paths items).length ≤ 1 ∧ lacks = false
  · have hguard : guard ((paths items).length ≤ 1 ∧ lacks = false) = some () := if_pos haccepted
    rw [if_pos haccepted, hguard]
    refine congrArg (Option.bind ((paths items).head?.or settings.input)) (funext fun input => ?_)
    refine congrArg (Option.bind (tree.text? input)) (funext fun source => ?_)
    unfold searchDirs
    dsimp only
    cases Session.read ⟨tree, dirs items ++ settings.includeDirs ++ (Path.parent? input).toList⟩ input
      source <;> rfl
  · have hguard : guard ((paths items).length ≤ 1 ∧ lacks = false) = none := if_neg haccepted
    rw [if_neg haccepted, hguard]
    rfl

/-- Reading from left to right, every list of arguments falls in one way into options with their directories
and inputs, with a bare option at its end or none. It is accepted if there is none and one input at most. Then
a run reads that input, or the one of the settings, and searches the directories of the options in their
order, those of the settings, and the directory of the input. Otherwise it fails. A run that has an output
prints it and ends with 0, and one that fails prints nothing and ends with 1. Moving an input to another place
among the options and inputs does not change what a run prints and how it ends. -/
theorem options_anywhere (tree : FileTree) (environment : List (String × String)) :
    (∀ args, ∃! r : List Argument × Bool, args = line r.1 ++ bare r.2) ∧
    (∀ items lacks a, Arguments.read (line items ++ bare lacks) = some a ↔
      (paths items).length ≤ 1 ∧ lacks = false ∧ a = ⟨(paths items).head?, dirs items⟩) ∧
    (∀ items lacks, output? tree environment (line items ++ bare lacks) = do
      let settings ← Settings.load? tree environment
      guard ((paths items).length ≤ 1 ∧ lacks = false)
      let input ← (paths items).head?.or settings.input
      let source ← tree.text? input
      let path : SearchPath :=
        ⟨tree, dirs items ++ settings.includeDirs ++ (Path.parent? input).toList⟩
      (Session.read path input source).toOption.map (·.db.text)) ∧
    (∀ args exitCode stdout, run tree environment args = ⟨exitCode, stdout⟩ ↔
      exitCode = 0 ∧ output? tree environment args = some stdout ∨
      exitCode = 1 ∧ stdout = "" ∧ output? tree environment args = none) ∧
    ∀ before between after path h lacks,
      run tree environment (line (before ++ input path h :: (between ++ after)) ++ bare lacks) =
        run tree environment (line (before ++ (between ++ input path h :: after)) ++ bare lacks) := by
  refine ⟨existsUnique_line, fun items lacks a => ?_, output?_line, run_eq_iff,
    fun before between after path h lacks => run_congr (read_line_moved before between after path h lacks)⟩
  rw [Arguments.read_line, Option.ite_none_right_eq_some, Option.some_inj, and_assoc, eq_comm (a := a)]

end CommandLine
end TypedRecords
