import TypedRecords.Proofs.Include.Splice
import TypedRecords.Proofs.Reference.Resolved
import TypedRecords.Proofs.Scope.Untouched

/-!
# Statements that come later

All statements of a run work on one database, and references point into it. What the first statements
leave in it, those that follow do not touch: the tables grow at their ends, and the records that were
there lead to the same defs as before (`SearchPath.process_append`).
-/

namespace TypedRecords

namespace Progress

/-- The references in the records of a run lead to the same defs in every database that its own is the
beginning of. -/
theorem Placed.resolves {p : Progress} (hp : p.Placed) {side : Side} {r : Record}
    (hr : r ∈ (p.db.table side).records) {ref : RecordRef} (href : r.Refers ref) {db : Database}
    (hdb : p.db.defs.records <+: db.defs.records) :
    ∃ q, ref.get? p.db.store = some q ∧ p.db.resolve ref = some q ∧ ref.get? db.store = some q ∧
      db.resolve ref = some q := by
  have hindex := Database.ref?_eq_some_iff.1 ((hp.records side r hr).ref href)
  obtain ⟨q, hq, -⟩ := RecordTable.item?_of_index? hindex
  have hget : p.db.defs.get? ref.name = some q := (RecordTable.get?_eq_item? hindex).trans hq
  obtain ⟨rest, hrest⟩ := hdb
  refine ⟨q, hq, hget, ?_, ?_⟩
  · have hlt : ref.target < p.db.defs.records.length := (List.getElem?_eq_some_iff.1 hq).1
    show db.defs.records[ref.target]? = some q
    rw [← hrest, List.getElem?_append_left hlt]
    exact hq
  · rw [Database.resolve, RecordTable.get?, ← hrest, List.find?_append, ← RecordTable.get?, hget]
    rfl

end Progress

namespace SearchPath
variable {s : SearchPath}

/-- The database of the statements of a description. -/
def process (s : SearchPath) (statements : List Statement) : Except ParseError Database := do
  return (← Progress.start.runAll (s.enter s.tree.files.length []) [] statements).db

theorem run_eq_process {name text : String} {statements : List Statement}
    (h : readStatements name text = .ok statements) : s.run name text = s.process statements := by
  rw [run, h]
  rfl

/-- A run leaves the records that it began with where they are. -/
theorem prefix_of_runAll {level : Nat} {p p' : Progress} {statements : List Statement}
    (h : p.runAll (s.enter level []) [] statements = .ok p') (side : Side) :
    (p.db.table side).records <+: (p'.db.table side).records := by
  obtain ⟨flat, hflat, hleaves⟩ := splices_of_runAll (s.spliced_enter _ _) statements h
  have hruns : p.Runs (Statement.enclosedAll [] flat) p' :=
    Progress.runs_of_runAll rfl flat hflat.includesAll_eq_nil (hleaves (s.enter level []))
  exact hruns.prefix_table side

/-- Where statements are run with success, so are the first of them alone, and these leave all classes
and defs that stand at the beginning of the classes and defs of the whole. The records are the same, and
each reference in them leads to the same def in both databases, by position and by name. A text with the
statements leaves the database that they leave. -/
theorem process_append {first later : List Statement} {db : Database}
    (h : s.process (first ++ later) = .ok db) :
    ∃ db₀, s.process first = .ok db₀ ∧
      (∀ side, (db₀.table side).records <+: (db.table side).records) ∧
      (∀ side, ∀ r ∈ (db₀.table side).records, ∀ ref, r.Refers ref →
        ∃ q, ref.get? db₀.store = some q ∧ db₀.resolve ref = some q ∧ ref.get? db.store = some q ∧
          db.resolve ref = some q) ∧
      (∀ name text, readStatements name text = .ok (first ++ later) → s.run name text = .ok db) ∧
      ∀ name text, readStatements name text = .ok first → s.run name text = .ok db₀ := by
  have hwhole := h
  obtain ⟨p, hp, h⟩ := bind_eq_ok.1 h
  obtain rfl := pure_eq_ok.1 h
  rw [Progress.runAll_append] at hp
  obtain ⟨p₀, hp₀, hp⟩ := bind_eq_ok.1 hp
  have hfirst : s.process first = .ok p₀.db := bind_eq_ok.2 ⟨p₀, hp₀, rfl⟩
  have hplaced : p₀.Placed := (Progress.placed_invariant.statements
    (Progress.placed_invariant.enter s _ []) Progress.placed_invariant.start
    (List.forall_mem_nil _) first hp₀).1
  have hkept := prefix_of_runAll hp
  exact ⟨p₀.db, hfirst, hkept,
    fun side r hr ref href => hplaced.resolves hr href (hkept .defs),
    fun name text hread => (run_eq_process hread).trans hwhole,
    fun name text hread => (run_eq_process hread).trans hfirst⟩

/-- A file whose defs refer to one that is declared before it is included. -/
def extending : SearchPath where
  tree := (FileTree.emptyAt []).insert "b.td"
    "class B : A \x7b A other = X; \x7d def Y : B; def : B;".toUTF8
  dirs := [""]

/-- The include is the third statement. What follows it derives from both classes under other lets. -/
def extendingText : String :=
  "class A \x7b int v = 1; \x7d def X : A; let v = 2 in \x7b include \"b.td\" \x7d " ++
    "let v = 3 in \x7b class C : B; def Z : C \x7b let other = Y; \x7d def : A; \x7d"

theorem extending_append :
    ∃ statements db db₀, readStatements "extending" extendingText = .ok statements ∧
      extending.run "extending" extendingText = .ok db ∧
      extending.process (statements.take 3) = .ok db₀ ∧
      db₀.classes.names = ["A", "B"] ∧ db.classes.names = ["A", "B", "C"] ∧
      db₀.defs.names = ["X", "Y", "anonymous_0"] ∧
      db.defs.names = ["X", "Y", "anonymous_0", "Z", "anonymous_1"] ∧
      (∀ side, (db₀.table side).records <+: (db.table side).records) ∧
      ∀ r ∈ db₀.defs.records, ∀ ref, r.Refers ref →
        ∃ q, ref.get? db₀.store = some q ∧ db.resolve ref = some q := by
  have hrun : ((readStatements "extending" extendingText).toOption.bind fun statements =>
      (extending.process statements).toOption.bind fun db =>
        (extending.process (statements.take 3)).toOption.map fun db₀ =>
          [db₀.classes.names, db.classes.names, db₀.defs.names, db.defs.names]) =
        some [["A", "B"], ["A", "B", "C"], ["X", "Y", "anonymous_0"],
          ["X", "Y", "anonymous_0", "Z", "anonymous_1"]] := by
    decide +kernel
  obtain ⟨statements, hread, hrun⟩ := Option.bind_eq_some_iff.1 hrun
  obtain ⟨db, hdb, hrun⟩ := Option.bind_eq_some_iff.1 hrun
  obtain ⟨db₀, hdb₀, hnames⟩ := Option.map_eq_some_iff.1 hrun
  have hread := ok_of_toOption hread
  have hsplit := List.take_append_drop 3 statements
  obtain ⟨db₁, hdb₁, hkept, hrefs, hwhole, -⟩ :=
    process_append (hsplit.symm ▸ ok_of_toOption hdb)
  obtain rfl := Except.ok.inj (hdb₁.symm.trans (ok_of_toOption hdb₀))
  injection hnames with hclasses₀ hnames
  injection hnames with hclasses hnames
  injection hnames with hdefs₀ hnames
  injection hnames with hdefs _
  refine ⟨statements, db, db₁, hread, hwhole _ _ (hsplit.symm ▸ hread), hdb₁, hclasses₀, hclasses,
    hdefs₀, hdefs, hkept, fun r hr ref href => ?_⟩
  obtain ⟨q, hq, -, -, hq'⟩ := hrefs .defs r hr ref href
  exact ⟨q, hq, hq'⟩

end SearchPath
end TypedRecords
