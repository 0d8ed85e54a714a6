import TypedRecords.CommandLine
import TypedRecords.Proofs.Include.Stack

/-!
# Directories behind a search path

A directory that is added behind a search path is looked into for those files only that the path does
not lead to. So whatever a run comes to stays as it is, a failure too, unless the failure is that an
include leads to no file (`SearchPath.run_conservative`). On the command line, the directories of the
options are safe from those of the settings, and both from the one that holds the input.
-/

namespace TypedRecords

/-- The outcome `y` is `x`, unless `x` is that an include leads to no file. -/
def Conserved {α : Type} (x y : Except ParseError α) : Prop :=
  (∀ file place, x ≠ .error ⟨.includeMissing file, place⟩) → y = x

namespace Conserved
variable {α β : Type} {x y : Except ParseError α}

theorem refl (x : Except ParseError α) : Conserved x x := fun _ => rfl

theorem missing (file : String) (place : Location) (y : Except ParseError α) :
    Conserved (.error ⟨.includeMissing file, place⟩) y := fun h => absurd rfl (h file place)

theorem ok (h : Conserved x y) {a : α} (hx : x = .ok a) : y = .ok a :=
  hx ▸ h fun _ _ hmissing => nomatch hx.symm.trans hmissing

theorem error (h : Conserved x y) {e : ParseError} (hx : x = .error e)
    (he : ∀ file, e.cause ≠ .includeMissing file) : y = .error e :=
  hx ▸ h fun file _ hmissing =>
    he file (congrArg ParseError.cause (Except.error.inj (hx.symm.trans hmissing)))

theorem bind {f g : α → Except ParseError β} (h : Conserved x y) (hf : ∀ a, Conserved (f a) (g a)) :
    Conserved (x >>= f) (y >>= g) := by
  intro hmissing
  cases x with
  | ok a =>
    rw [h.ok rfl]
    exact hf a hmissing
  | error e => rw [h fun file place he => hmissing file place (congrArg (· >>= f) he)]; rfl

end Conserved

namespace SearchPath
variable (tree : FileTree) (ds es : List String)

/-- A file that the directories lead to is found where it was, whatever comes behind them. -/
theorem locate_append {file : String} {found : String × TreePath}
    (h : (SearchPath.mk tree ds).locate file = some found) :
    (SearchPath.mk tree (ds ++ es)).locate file = some found := by
  unfold locate at h ⊢
  split
  · rename_i habsolute
    rwa [if_pos habsolute] at h
  · rename_i habsolute
    rw [if_neg habsolute] at h
    rw [List.map_append, List.findSome?_append, h, Option.some_or]

theorem fetch_append (stack : List TreePath) (i : IncludeSyntax) :
    Conserved ((SearchPath.mk tree ds).fetch stack i) ((SearchPath.mk tree (ds ++ es)).fetch stack i) := by
  refine (Conserved.refl _).bind fun file => ?_
  cases h : (SearchPath.mk tree ds).locate file with
  | none => exact .missing file i.place _
  | some found =>
    rw [locate_append tree ds es h]
    exact .refl _

end SearchPath

/-! ### The whole run -/

namespace Progress
variable {enter enter' : Entering}

mutual

theorem run_conserved (henter : ∀ p lets i, Conserved (enter p lets i) (enter' p lets i))
    (p : Progress) (lets : List Override) :
    ∀ st : Statement, Conserved (p.run enter lets st) (p.run enter' lets st)
  | .includeFile i => henter p lets i
  | .classDecl _ | .defDecl _ => .refl _
  | .scope _ body =>
    (Conserved.refl _).bind fun inner => runAll_conserved henter p (lets ++ inner) body

theorem runAll_conserved (henter : ∀ p lets i, Conserved (enter p lets i) (enter' p lets i))
    (p : Progress) (lets : List Override) :
    ∀ ss : List Statement, Conserved (p.runAll enter lets ss) (p.runAll enter' lets ss)
  | [] => .refl _
  | st :: ss => (run_conserved henter p lets st).bind fun p' => runAll_conserved henter p' lets ss

end

end Progress

namespace SearchPath
variable (tree : FileTree) (ds es : List String)

theorem enter_append (level : Nat) (stack : List TreePath) (p : Progress) (lets : List Override)
    (i : IncludeSyntax) :
    Conserved ((SearchPath.mk tree ds).enter level stack p lets i)
      ((SearchPath.mk tree (ds ++ es)).enter level stack p lets i) := by
  induction level generalizing stack p lets i with
  | zero => exact (fetch_append tree ds es stack i).bind fun _ => .refl _
  | succ level ih =>
    exact (fetch_append tree ds es stack i).bind fun file =>
      Progress.runAll_conserved (ih (file.place :: stack)) p lets file.statements

theorem run_append (name text : String) :
    Conserved ((SearchPath.mk tree ds).run name text) ((SearchPath.mk tree (ds ++ es)).run name text) :=
  (Conserved.refl _).bind fun statements =>
    (Progress.runAll_conserved (enter_append tree ds es _ []) .start [] statements).bind fun _ =>
      .refl _

end SearchPath

/-! ### Every moment -/

namespace Moment

theorem next_append (tree : FileTree) (ds es : List String) (m : Moment) :
    Conserved (m.next ⟨tree, ds⟩) (m.next ⟨tree, ds ++ es⟩) := by
  obtain ⟨p, frames⟩ := m
  rcases frames with _ | ⟨⟨file, lets, _ | ⟨statement, rest⟩⟩, frames⟩
  · exact .refl _
  · exact .refl _
  · cases statement with
    | includeFile i => exact (SearchPath.fetch_append tree ds es _ i).bind fun _ => .refl _
    | _ => exact .refl _

end Moment

namespace Session

theorem read_append {tree : FileTree} {ds : List String} {name text : String} {s : Session}
    (h : read ⟨tree, ds⟩ name text = .ok s) (es : List String) :
    read ⟨tree, ds ++ es⟩ name text = .ok { s with includeDirs := ds ++ es } := by
  obtain ⟨db, hdb, h⟩ := bind_eq_ok.1 h
  obtain rfl := pure_eq_ok.1 h
  exact bind_eq_ok.2 ⟨db, (SearchPath.run_append tree ds es name text).ok hdb, rfl⟩

end Session

namespace SearchPath

/-- Directories behind a search path replace no file that it leads to. A run that succeeds leaves the
same records, one that fails fails in the same way unless a file was missing, and either way the run
comes through all the moments that it came through without them. So what the directories of the options
alone make of the input, or those with the directories of the settings behind them, is what the command
line prints. -/
theorem run_conservative (tree : FileTree) :
    (∀ (ds es : List String) (name text : String),
      (∀ db, run ⟨tree, ds⟩ name text = .ok db → run ⟨tree, ds ++ es⟩ name text = .ok db) ∧
      (∀ e, run ⟨tree, ds⟩ name text = .error e → (∀ file, e.cause ≠ .includeMissing file) →
        run ⟨tree, ds ++ es⟩ name text = .error e)) ∧
    (∀ (ds es : List String) (statements : List Statement) (m : Moment),
      Relation.ReflTransGen (Moment.Step ⟨tree, ds⟩) (.start statements) m →
        Relation.ReflTransGen (Moment.Step ⟨tree, ds ++ es⟩) (.start statements) m) ∧
    ∀ (environment : List (String × String)) (args : List String) (settings : Settings)
      (arguments : Arguments) (input source : String) (ds : List String) (s : Session),
      Settings.load? tree environment = some settings → Arguments.read args = some arguments →
      arguments.input.or settings.input = some input → tree.text? input = some source →
      (ds = arguments.includeDirs ∨ ds = arguments.includeDirs ++ settings.includeDirs) →
      Session.read ⟨tree, ds⟩ input source = .ok s →
        CommandLine.run tree environment args = ⟨0, s.db.text⟩ := by
  refine ⟨fun ds es name text => ⟨fun db => (run_append tree ds es name text).ok,
    fun e => (run_append tree ds es name text).error⟩, fun ds es statements m hm => ?_, ?_⟩
  · exact Relation.ReflTransGen.mono (fun m m' hstep => (m.next_append tree ds es).ok hstep) _ _ hm
  · intro environment args settings arguments input source ds s hsettings harguments hinput hsource hds
      hread
    obtain ⟨es, hes⟩ : ∃ es, CommandLine.searchDirs arguments settings input = ds ++ es := by
      obtain rfl | rfl := hds
      · exact ⟨_, List.append_assoc ..⟩
      · exact ⟨_, rfl⟩
    have houtput : CommandLine.output? tree environment args = some s.db.text := by
      simp only [CommandLine.output?, hsettings, harguments, hinput, hsource, hes,
        Session.read_append hread es, Option.bind_eq_bind, Option.bind_some]
    rw [CommandLine.run, houtput]

/-- Two directories with files of the same names, one of which includes another, and a third one with
the input. -/
def crowded : FileTree :=
  [("/in/main.td", "include \"a.td\" def D : A;"),
    ("/near/a.td", "include \"b.td\" class A : B \x7b int near; \x7d"), ("/near/b.td", "class B;"),
    ("/far/a.td", "class A \x7b int far; \x7d"), ("/far/b.td", "class B \x7b int far; \x7d")].foldl
    (fun tree file => tree.insert file.1 file.2.toUTF8) (.emptyAt [])

def crowdedText : String := "include \"a.td\" def D : A;"

def crowdedEnvironment : List (String × String) := [("RECORDKEEPER_INCLUDE_DIRS", "/far")]

theorem crowded_conservative :
    ∃ db s, run ⟨crowded, ["/near"]⟩ "crowded" crowdedText = .ok db ∧
      db.defs.records.map (fun r => r.fields.map Field.name) = [["near"]] ∧
      run ⟨crowded, ["/near", "/far", "/in"]⟩ "crowded" crowdedText = .ok db ∧
      Session.read ⟨crowded, ["/near"]⟩ "/in/main.td" crowdedText = .ok s ∧
      s.db.defs.records.map (fun r => r.fields.map Field.name) = [["near"]] ∧
      CommandLine.run crowded crowdedEnvironment ["/in/main.td", "-I/near"] = ⟨0, s.db.text⟩ := by
  have hrun : (run ⟨crowded, ["/near"]⟩ "crowded" crowdedText).toOption.map
      (fun db => db.defs.records.map fun r => r.fields.map Field.name) = some [["near"]] := by
    decide +kernel
  have hread : (Session.read ⟨crowded, ["/near"]⟩ "/in/main.td" crowdedText).toOption.map
      (fun s => s.db.defs.records.map fun r => r.fields.map Field.name) = some [["near"]] := by
    decide +kernel
  have hsettings : Settings.load? crowded crowdedEnvironment = some ⟨["/far"], "info", none⟩ := by
    decide +kernel
  have hsource : crowded.text? "/in/main.td" = some crowdedText := by decide +kernel
  obtain ⟨db, hdb, hnames⟩ := ok_of_toOption_map hrun
  obtain ⟨s, hs, hnames'⟩ := ok_of_toOption_map hread
  obtain ⟨hruns, -, hcommand⟩ := run_conservative crowded
  exact ⟨db, s, hdb, hnames, (hruns ["/near"] ["/far", "/in"] _ _).1 db hdb, hs, hnames',
    hcommand crowdedEnvironment _ _ ⟨some "/in/main.td", ["/near"]⟩ "/in/main.td" _ _ _ hsettings rfl
      rfl hsource (.inl rfl) hs⟩

end SearchPath
end TypedRecords
