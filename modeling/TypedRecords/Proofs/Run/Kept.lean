import TypedRecords.Proofs.Include.Moments
import TypedRecords.Proofs.Resolve.Built
import TypedRecords.Proofs.Scope.Untouched

/-!
# Every declaration leaves a record

A table refuses a record whose name it has, and does not say so to anyone. It never comes to that: a
class is built only if its name was not declared, a def only if its name is not kept, and anonymous defs
are numbered. So the records are those of the declarations, one for each and in their order
(`SearchPath.run_kept`).
-/

namespace TypedRecords

/-- The name that a declaration is written with. -/
def Declaration.name? : Declaration → Option String
  | classDecl c => some c.name
  | defDecl d => d.name

/-- The record is one that the declaration can leave: called as it is written, a class or a def as it
is, and anonymous where no name is written. -/
structure Record.IsOf (d : Declaration) (r : Record) : Prop where
  name : ∀ name ∈ d.name?, r.name = name
  anonymous : r.anonymous = d.name?.isNone
  isClass : r.isClass = decide (d.side = .classes)

def anonymousNames (count : Nat) : List String :=
  (List.range count).map fun k => "anonymous_" ++ toString k

namespace Progress

/-! ### One declaration -/

theorem ClassStep.isOf {p p' : Progress} {lets : List Override} {c : ClassSyntax} {t : Template}
    {bs : Bindings} {d : Draft} {r : Record} (h : p.ClassStep lets c p' t bs d r) :
    r.IsOf (.classDecl c) := by
  obtain ⟨m, -, rfl⟩ := Draft.finishIn_eq_ok.1 h.record
  exact ⟨fun name hname => Option.some.inj hname, rfl, rfl⟩

theorem DefStep.isOf {p p' : Progress} {lets : List Override} {s : DefSyntax} {t : Template} {d : Draft}
    {r : Record} (h : p.DefStep lets s p' t d r) : r.IsOf (.defDecl s) := by
  obtain ⟨m, -, rfl⟩ := Draft.finishIn_eq_ok.1 h.record
  refine ⟨fun name hname => ?_, rfl, rfl⟩
  obtain hname : s.name = some name := hname
  exact congrArg (·.getD p.anonymousName) hname

/-- A declaration that is added puts a record of it behind all others of its side. -/
theorem Classified.exists_adds {p p' : Progress} (hp : p.Classified) {lets : List Override}
    {d : Declaration} (h : p.add lets d = .ok p') : ∃ r, p.Adds d p' r ∧ r.IsOf d := by
  cases d with
  | classDecl c =>
    obtain ⟨t, bs, d, r, hstep⟩ := addClass_eq_ok h
    exact ⟨r, hp.adds hstep, hstep.isOf⟩
  | defDecl s =>
    obtain ⟨t, d, r, hstep⟩ := addDef_eq_ok h
    exact ⟨r, hstep.adds, hstep.isOf⟩

/-- A record that is built has a name that its table does not have. -/
theorem Builds.keep_already {p p' : Progress} (hp : p.Classified) {side : Side} {d : Draft} {r : Record}
    (h : p.Builds p' side d r) : ((p.db.table side).keep r).already = false := by
  have hnew : (p.db.table side).get? r.name = none := by
    cases h with
    | classes h => exact hp.new_of_classStep h
    | defs h => exact h.new
  rw [RecordTable.keep_of_none hnew]

/-! ### A run -/

/-- The anonymous defs are numbered in their order. -/
def Numbered (p : Progress) : Prop :=
  (p.db.defs.records.filter (·.anonymous)).map Record.name = anonymousNames p.anonymous

theorem Numbered.addDef {p p' : Progress} {lets : List Override} {s : DefSyntax} {t : Template}
    {d : Draft} {r : Record} (hp : p.Numbered) (h : p.DefStep lets s p' t d r) : p'.Numbered := by
  have hanonymous : r.anonymous = s.name.isNone := h.isOf.anonymous
  obtain ⟨m, -, hr⟩ := Draft.finishIn_eq_ok.1 h.record
  have hname : r.name = s.name.getD p.anonymousName := congrArg Record.name hr
  unfold Numbered at hp ⊢
  rw [h.db, h.anonymous]
  show (((p.db.defs.keep r).table.records).filter (·.anonymous)).map Record.name = _
  rw [RecordTable.records_keep h.new, List.filter_append, List.map_append, hp]
  cases hs : s.name with
  | none =>
    rw [hs] at hanonymous hname
    rw [List.filter_singleton, hanonymous, anonymousNames, anonymousNames]
    simp [hname, anonymousName, List.range_succ]
  | some name =>
    rw [hs] at hanonymous
    rw [List.filter_singleton, hanonymous]
    simp

theorem numbered_invariant : Invariant Numbered fun _ _ => True where
  start := rfl
  lets _ _ := trivial
  grow _ _ := trivial
  addClass hp _ hstep := by
    unfold Numbered
    rw [hstep.db, hstep.anonymous]
    exact hp
  addDef hp _ hstep := hp.addDef hstep

/-- The declarations of a side, one after the other, have each left a record. -/
theorem Runs.records {p p' : Progress} {es : List Enclosed} (h : Runs p es p') (hp : p.Classified)
    (side : Side) : ∃ new, (p'.db.table side).records = (p.db.table side).records ++ new ∧
      List.Forall₂ (fun e r => Record.IsOf e.decl r) (es.filter fun e => e.decl.side = side) new := by
  induction h with
  | nil p => exact ⟨[], (List.append_nil _).symm, .nil⟩
  | @cons p p₁ p' e es lets _ hadd _ ih =>
    obtain ⟨r, hadds, hr⟩ := hp.exists_adds hadd
    obtain ⟨new, hnew, hall⟩ := ih (hp.add hadd)
    refine ⟨(if e.decl.side = side then [r] else []) ++ new, ?_, ?_⟩
    · rw [hnew, hadds side, List.append_assoc]
    · rw [List.filter_cons]
      by_cases hside : e.decl.side = side
      · rw [if_pos (decide_eq_true hside), if_pos hside]
        exact .cons hr hall
      · rw [if_neg (by simpa using hside), if_neg hside]
        exact hall

end Progress

namespace SearchPath
variable {s : SearchPath}

/-- Where a text is parsed with success, let its includes be replaced by the statements of their files.
Its declarations are run one after the other, and each has left one record: the classes are those of
the class declarations, the defs those of the def declarations, in the same order and none of them under
one name. Those written without a name, and no others, are anonymous, and are called by their number.
At no moment of the run does a table have the name of a record that is built. -/
theorem run_kept {name text : String} {db : Database} (h : s.run name text = .ok db) :
    ∃ statements flat p, readStatements name text = .ok statements ∧ s.Splices statements flat ∧
      Progress.start.Runs (Statement.enclosedAll [] flat) p ∧ p.db = db ∧
      (∀ side, List.Forall₂ (fun e r => Record.IsOf e.decl r)
          ((Statement.enclosedAll [] flat).filter fun e => e.decl.side = side)
          (db.table side).records ∧
        (db.table side).names.Nodup) ∧
      (db.defs.records.filter (·.anonymous)).map Record.name =
        anonymousNames (db.defs.records.countP (·.anonymous)) ∧
      ∀ m, Relation.ReflTransGen (Moment.Step s) (.start statements) m → ∀ p' side d r,
        m.progress.Builds p' side d r → ((m.progress.db.table side).keep r).already = false := by
  obtain ⟨statements, hread, hrun⟩ := bind_eq_ok.1 h
  obtain ⟨p, hp, hdb⟩ := bind_eq_ok.1 hrun
  obtain hdb := pure_eq_ok.1 hdb
  obtain ⟨flat, hflat, hleaves⟩ := splices_of_runAll (s.spliced_enter _ _) statements hp
  have hruns : Progress.start.Runs (Statement.enclosedAll [] flat) p :=
    Progress.runs_of_runAll rfl flat hflat.includesAll_eq_nil (hleaves (s.enter 0 []))
  have hnumbered : p.Numbered := (Progress.numbered_invariant.statements
    (Progress.numbered_invariant.enter s _ []) Progress.numbered_invariant.start
    (List.forall_mem_nil _) statements hp).1
  refine ⟨statements, flat, p, mapError_eq_ok.1 hread, hflat, hruns, hdb, fun side => ?_, ?_,
    fun m hm p' side d r hbuilds => ?_⟩
  · obtain ⟨new, hnew, hall⟩ := hruns.records .start side
    have hempty : (Progress.start.db.table side).records = [] := by cases side <;> rfl
    rw [hempty, List.nil_append] at hnew
    exact ⟨hdb ▸ hnew ▸ hall, (db.table side).nodup⟩
  · have hcount := congrArg List.length hnumbered
    rw [List.length_map, ← List.countP_eq_length_filter, anonymousNames, List.length_map,
      List.length_range] at hcount
    rw [← hdb, hcount]
    exact hnumbered
  · exact hbuilds.keep_already (Progress.classified_invariant.reaches hm).progress

/-- A file of declarations, which is included under a let. -/
def counted : SearchPath where
  tree := (FileTree.emptyAt []).insert "b.td" "class B : A; def X : B; def : B;".toUTF8
  dirs := [""]

def countedText : String :=
  "class A \x7b int v = 1; \x7d def; let v = 2 in \x7b include \"b.td\" def Y : B; \x7d def : A;"

theorem counted_kept :
    ∃ db statements flat, counted.run "counted" countedText = .ok db ∧
      db.classes.names = ["A", "B"] ∧
      db.defs.records.map (fun r => (r.name, r.anonymous)) =
        [("anonymous_0", true), ("X", false), ("anonymous_1", true), ("Y", false),
          ("anonymous_2", true)] ∧
      counted.Splices statements flat ∧
      (∀ side, List.Forall₂ (fun e r => Record.IsOf e.decl r)
          ((Statement.enclosedAll [] flat).filter fun e => e.decl.side = side)
          (db.table side).records ∧
        (db.table side).names.Nodup) ∧
      (db.defs.records.filter (·.anonymous)).map Record.name = anonymousNames 3 := by
  have hrun : ((counted.run "counted" countedText).toOption.map fun db =>
      (db.classes.names, db.defs.records.map fun r => (r.name, r.anonymous))) =
        some (["A", "B"], [("anonymous_0", true), ("X", false), ("anonymous_1", true), ("Y", false),
          ("anonymous_2", true)]) := by
    decide +kernel
  obtain ⟨db, h, hnames⟩ := ok_of_toOption_map hrun
  obtain ⟨hclasses, hdefs⟩ := Prod.mk.inj hnames
  obtain ⟨statements, flat, p, -, hflat, -, -, hsides, hanonymous, -⟩ := run_kept h
  have hcount : db.defs.records.countP (·.anonymous) = 3 := by
    have hflags := congrArg (List.countP Prod.snd) hdefs
    rwa [List.countP_map] at hflags
  exact ⟨db, statements, flat, h, hclasses, hdefs, hflat, hsides, hcount ▸ hanonymous⟩

end SearchPath
end TypedRecords
