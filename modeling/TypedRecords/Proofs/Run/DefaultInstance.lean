import TypedRecords.Proofs.Run.Extended
import TypedRecords.Proofs.Run.Kept

/-!
# A class record is the default instance

The record of a class is built from its template with the defaults of its parameters, before the class
can be derived from. A def that derives from the class and says nothing else goes another way, through
inheritance. Where every parameter has a default the two come to one draft, but for the class that the
def has applied, so their fields are the same (`SearchPath.process_instance`).
-/

namespace TypedRecords

/-! ### Binding nothing but defaults -/

/-- Where every parameter has a default, it is of no consequence what becomes of one that has none. -/
theorem bindParams_defaults {ps : List Param} (hps : ∀ p ∈ ps, p.default.isSome) (db : Database)
    (className : String) (place place' : Location) (missing missing' : Missing) {bound bs : Bindings}
    (h : bindParams db className place missing bound ps [] = .ok bs) :
    bindParams db className place' missing' bound ps [] = .ok bs := by
  induction ps generalizing bound with
  | nil => exact h
  | cons p ps ih =>
    obtain ⟨hp, hps⟩ := List.forall_mem_cons.1 hps
    obtain ⟨e, he⟩ := Option.isSome_iff_exists.1 hp
    obtain ⟨raw, hraw, h⟩ := bind_eq_ok.1 h
    obtain ⟨v, hv, h⟩ := bind_eq_ok.1 h
    simp only [paramValue, he] at hraw
    refine bind_eq_ok.2 ⟨raw, ?_, bind_eq_ok.2 ⟨v, assign_elsewhere hv _ place', ih hps h⟩⟩
    simp only [paramValue, he]
    exact hraw

theorem Template.bind_defaults {t : Template} (ht : ∀ p ∈ t.params, p.default.isSome) {db : Database}
    {place : Location} {missing : Missing} {bs : Bindings} (h : t.bind db [] place missing = .ok bs)
    (place' : Location) (missing' : Missing) : t.bind db [] place' missing' = .ok bs :=
  bindParams_defaults ht db t.name place place' missing missing' h

namespace Draft
variable {db db' : Database} (hdb : db.defs.outline = db'.defs.outline)

/-! ### Drafts over one table of defs -/

include hdb in
theorem inherit_congr (ts : List Template) (d : Draft) (p : ParentRef) (outer : Bindings) :
    d.inherit db ts p outer = d.inherit db' ts p outer := by
  induction ts generalizing d p outer with
  | nil => rfl
  | cons t ts ih => simp only [inherit, evaluateWritten_congr hdb, t.bind_congr hdb, ih]

/-! ### Values of equal fields -/

theorem fieldValue_of_fields {σ : Type} {d d' : Draft} (h : d.fields = d'.fields) (db : Database)
    (read : DraftField → Eval σ (Option Value)) : d.fieldValue db read = d'.fieldValue db read := by
  have hscope : d.scope db read = d'.scope db read := by simp only [scope, field?, h]
  funext f
  rw [fieldValue, fieldValue, hscope]

theorem resolve_of_fields {d d' : Draft} (h : d.fields = d'.fields) (db : Database) (depth : Nat) :
    d.resolve db depth = d'.resolve db depth := by
  induction depth with
  | zero => rfl
  | succ depth ih =>
    funext path f
    simp only [resolve, ih, fieldValue_of_fields h]

theorem values_of_fields {d d' : Draft} (h : d.fields = d'.fields) (db : Database)
    (order : List DraftField) : d.values db order = d'.values db order := by
  have hall : ∀ fs, d.resolveAll db fs = d'.resolveAll db fs := by
    intro fs
    induction fs with
    | nil => rfl
    | cons f fs ih => simp only [resolveAll, resolve_of_fields h, h, ih]
  simp only [values, hall]

end Draft

/-- The def `def name : className;`. -/
def DefSyntax.plain (name className : String) (parentPlace place : Location) : DefSyntax :=
  ⟨some name, [⟨className, [], parentPlace⟩], [], place⟩

theorem toParams_defaults {declared : String → Bool} {earlier qs : List Param}
    {ps : List ParamSyntax} (h : toParams declared earlier ps = .ok qs)
    (hearlier : ∀ q ∈ earlier, q.default.isSome) (hps : ∀ p ∈ ps, p.default.isSome) :
    ∀ q ∈ qs, q.default.isSome := by
  induction ps generalizing earlier with
  | nil => exact Except.ok.inj h ▸ hearlier
  | cons p ps ih =>
    obtain ⟨hp, hps⟩ := List.forall_mem_cons.1 hps
    obtain ⟨type, -, h⟩ := bind_eq_ok.1 h
    obtain ⟨default, hdefault, h⟩ := bind_eq_ok.1 h
    obtain ⟨-, h⟩ := throwIf_bind_eq_ok.1 h
    refine ih h (List.forall_mem_append.2 ⟨hearlier, List.forall_mem_singleton.2 ?_⟩) hps
    obtain ⟨v, hv⟩ := Option.isSome_iff_exists.1 hp
    rw [hv] at hdefault
    obtain ⟨e, -, rfl⟩ := map_eq_ok.1 hdefault
    rfl

/-- The record of a class as that of a def which derives from the class and says nothing else. -/
def Record.instanceAs (r : Record) (name : String) : Record :=
  { r with
    name := name
    isClass := false
    superclasses := r.superclasses ++ [r.name]
    directSuperclasses := [r.name] }

namespace Progress
variable {p p' : Progress} {lets : List Override} {c : ClassSyntax} {t : Template} {bs : Bindings}
  {d : Draft} {r : Record}

theorem ClassStep.defaults (h : p.ClassStep lets c p' t bs d r)
    (hc : ∀ q ∈ c.params, q.default.isSome) : ∀ q ∈ t.params, q.default.isSome := by
  obtain ⟨params, hparams, ht⟩ := bind_eq_ok.1 h.template
  obtain ⟨parents, -, ht⟩ := bind_eq_ok.1 ht
  obtain ⟨body, -, ht⟩ := bind_eq_ok.1 ht
  rw [← pure_eq_ok.1 ht]
  exact toParams_defaults hparams (List.forall_mem_nil _) hc

/-- A class that was just declared is not among those that its draft has applied. -/
theorem ClassStep.superclasses (hp : p.Classified) (h : p.ClassStep lets c p' t bs d r)
    (bs' : Bindings) : (d.addInstance c.name bs').superclasses = d.superclasses ++ [c.name] := by
  obtain ⟨as, -, hlineage, hholds, -⟩ := Draft.ofTemplate_lineage hp.names h.draft
  have hnew : d.superclasses.contains c.name = false := by
    refine Bool.eq_false_iff.2 fun hmem => Bool.eq_false_iff.1 h.undeclared (declared_iff.2 ?_)
    rw [List.contains_iff_mem, hholds.superclasses] at hmem
    obtain ⟨a, ha, hname⟩ := List.mem_map.1 hmem
    exact hname ▸ List.mem_map_of_mem (hlineage.templates a ha)
  unfold Draft.addInstance Draft.addSuperclass
  rw [hnew]
  rfl

/-- The draft of a plain def right behind the class it derives from is that of the class, with the
class applied. -/
theorem ClassStep.plain_draft (h : p.ClassStep lets c p' t bs d r)
    (hc : ∀ q ∈ c.params, q.default.isSome) (name : String) (place : Location) :
    Draft.ofTemplate p'.db p'.templates ⟨name, [], [⟨c.name, [], place⟩], [], []⟩ [] =
      .ok (d.addInstance c.name bs) := by
  have hdb : p'.db.defs.outline = p.db.defs.outline := by rw [h.db]
  have htname := ClassSyntax.name_toTemplate h.template
  obtain ⟨d₀, hparents, hown⟩ := bind_eq_ok.1 h.draft
  have hbind : t.bind p'.db [] place .refused = .ok bs := by
    rw [t.bind_congr hdb]
    exact Template.bind_defaults (h.defaults hc) h.bindings place .refused
  have hinherit : Draft.empty.inherit p'.db p'.templates ⟨c.name, [], place⟩ [] =
      .ok (d.addInstance c.name bs) := by
    rw [h.templates, Draft.inherit, if_pos htname]
    refine bind_eq_ok.2 ⟨[], rfl, bind_eq_ok.2 ⟨bs, hbind, ?_⟩⟩
    refine bind_eq_ok.2 ⟨d₀, ?_, bind_eq_ok.2 ⟨d, hown, htname ▸ rfl⟩⟩
    simp only [Draft.inherit_congr hdb]
    exact hparents
  exact bind_eq_ok.2 ⟨_, foldlM_cons_eq_ok.2 ⟨_, hinherit, rfl⟩, rfl⟩

/-- What a plain def adds right behind the class it derives from. -/
theorem ClassStep.plain (hp : p.Classified) (h : p.ClassStep lets c p' t bs d r)
    (hc : ∀ q ∈ c.params, q.default.isSome) {name : String}
    (hname : p'.db.defs.contains name = false) (place place' : Location) :
    p'.DefStep [] (.plain name c.name place place')
      { p' with db := { p'.db with defs := (p'.db.defs.keep (r.instanceAs name)).table } }
      ⟨name, [], [⟨c.name, [], place⟩], [], []⟩ (d.addInstance c.name bs) (r.instanceAs name) := by
  obtain ⟨m, hm, hr⟩ := Draft.finishIn_eq_ok.1 h.record
  have hdb : p'.db.defs.outline = p.db.defs.outline := by rw [h.db]
  have hfields := d.fields_addInstance c.name bs
  have hrecord : (d.addInstance c.name bs).finish p'.db name false false [c.name] =
      .ok (r.instanceAs name) := by
    rw [Draft.finish_congr hdb]
    refine Draft.finishIn_eq_ok.2 ⟨m, ?_, ?_⟩
    · rw [Draft.values_of_fields hfields, hfields]
      exact hm
    · rw [hfields, h.superclasses hp, hr]
      rfl
  exact ⟨rfl, hname, h.plain_draft hc name place, hrecord, rfl, rfl, rfl⟩

namespace Runs

theorem classified {es : List Enclosed} (h : Runs p es p') (hp : p.Classified) : p'.Classified := by
  induction h with
  | nil p => exact hp
  | cons _ hadd _ ih => exact ih (hp.add hadd)

/-- The last of the declarations is added to what those before it leave. -/
theorem last {es : List Enclosed} {e : Enclosed} (h : Runs p (es ++ [e]) p') :
    ∃ p₁ lets, Runs p es p₁ ∧ p₁.add lets e.decl = .ok p' := by
  induction es generalizing p with
  | nil =>
    cases h with
    | cons hlets hadd hrest =>
      cases hrest
      exact ⟨p, _, .nil p, hadd⟩
  | cons f es ih =>
    cases h with
    | cons hlets hadd hrest =>
      obtain ⟨p₁, lets, hes, he⟩ := ih hrest
      exact ⟨p₁, lets, .cons hlets hadd hes, he⟩

end Runs
end Progress

namespace SearchPath
variable {s : SearchPath}

/-- Where statements that end with the declaration of a class, wherever it is included from and
whatever lets are around it, are run with success, and the parameters of the class all have defaults,
they can be followed by a plain def of the class under a name that no def has. It has the fields of the
class with their types and values, and one superclass more, the class, from which alone it derives. -/
theorem process_instance {statements flat : List Statement} {db : Database}
    (h : s.process statements = .ok db) (hflat : s.Splices statements flat) {es : List Enclosed}
    {ls : List LetSyntax} {c : ClassSyntax}
    (hlast : Statement.enclosedAll [] flat = es ++ [⟨ls, .classDecl c⟩])
    (hdefaults : ∀ q ∈ c.params, q.default.isSome) {name : String}
    (hname : db.defs.contains name = false) (place place' : Location) :
    ∃ rc rd db', db.classes.get? c.name = some rc ∧
      s.process (statements ++ [.defDecl (.plain name c.name place place')]) = .ok db' ∧
      db'.classes = db.classes ∧ db'.defs.records = db.defs.records ++ [rd] ∧ rd.name = name ∧
      rd.fields = rc.fields ∧ rd.superclasses = rc.superclasses ++ [c.name] ∧
      rd.directSuperclasses = [c.name] ∧ rd.isClass = false ∧ rd.anonymous = false ∧
      (∀ source text, readStatements source text = .ok statements → s.run source text = .ok db) ∧
      ∀ source text,
        readStatements source text =
          .ok (statements ++ [.defDecl (.plain name c.name place place')]) →
        s.run source text = .ok db' := by
  have hwhole := h
  obtain ⟨p', hp', h⟩ := bind_eq_ok.1 h
  obtain rfl := pure_eq_ok.1 h
  obtain ⟨flat', hflat', hleaves⟩ := splices_of_runAll (s.spliced_enter _ _) statements hp'
  obtain rfl := hflat.unique hflat'
  have hruns : Progress.start.Runs (Statement.enclosedAll [] flat') p' :=
    Progress.runs_of_runAll rfl flat' hflat'.includesAll_eq_nil (hleaves (s.enter 0 []))
  rw [hlast] at hruns
  obtain ⟨p, lets, hbefore, hadd⟩ := hruns.last
  have hp := hbefore.classified .start
  obtain ⟨t, bs, d, r, hstep⟩ := Progress.addClass_eq_ok hadd
  have hrname : r.name = c.name := hstep.isOf.name _ rfl
  have hplain := hstep.plain hp hdefaults hname place place'
  have happended : s.process (statements ++ [.defDecl (.plain name c.name place place')]) =
      .ok { p'.db with defs := (p'.db.defs.keep (r.instanceAs name)).table } := by
    have hrun : Progress.start.runAll (s.enter s.tree.files.length []) []
        (statements ++ [.defDecl (.plain name c.name place place')]) =
          .ok { p' with db := { p'.db with defs := (p'.db.defs.keep (r.instanceAs name)).table } } := by
      rw [Progress.runAll_append, bind_of_ok hp']
      exact bind_eq_ok.2 ⟨_, hplain.addDef, rfl⟩
    exact bind_eq_ok.2 ⟨_, hrun, rfl⟩
  refine ⟨r, r.instanceAs name, _, ?_, happended, rfl, RecordTable.records_keep hplain.new, rfl, rfl,
    congrArg (r.superclasses ++ [·]) hrname, congrArg ([·]) hrname, rfl, ?_,
    fun source text hread => (run_eq_process hread).trans hwhole,
    fun source text hread => (run_eq_process hread).trans happended⟩
  · have hmem : r ∈ p'.db.classes.records := by
      rw [hstep.db, RecordTable.records_keep (hp.new_of_classStep hstep)]
      exact List.mem_append_right _ (List.mem_singleton_self r)
    have hclassified := hruns.classified .start
    exact hrname ▸ RecordTable.get?_of_mem hmem
  · exact hstep.isOf.anonymous

/-- The places in a plain def with the names. -/
def plainPlaces? (name className : String) : Statement → Option (Location × Location)
  | .defDecl ⟨some name', [⟨className', [], place⟩], [], place'⟩ =>
    if name' = name ∧ className' = className then some (place, place') else none
  | _ => none

theorem eq_of_plainPlaces? {name className : String} {ss : List Statement} {place place' : Location}
    (h : ss.getLast?.bind (plainPlaces? name className) = some (place, place')) :
    ss = ss.dropLast ++ [.defDecl (.plain name className place place')] := by
  obtain ⟨st, hst, h⟩ := Option.bind_eq_some_iff.1 h
  unfold plainPlaces? at h
  split at h
  · split at h
    · rename_i hnames
      cases h
      obtain ⟨rfl, rfl⟩ := hnames
      exact (List.dropLast_append_getLast? _ hst).symm
    · cases h
  · cases h

/-- The class declared last, with what stands in front of it. -/
def lastClass? (es : List Enclosed) : Option ClassSyntax :=
  es.getLast?.bind fun e =>
    match e.decl with
    | .classDecl c => some c
    | .defDecl _ => none

theorem eq_of_lastClass? {es : List Enclosed} {c : ClassSyntax} (h : lastClass? es = some c) :
    ∃ before ls, es = before ++ [⟨ls, .classDecl c⟩] := by
  obtain ⟨⟨ls, decl⟩, he, h⟩ := Option.bind_eq_some_iff.1 h
  cases decl with
  | classDecl c' =>
    cases h
    exact ⟨es.dropLast, ls, (List.dropLast_append_getLast? _ he).symm⟩
  | defDecl d => cases h

/-- A file that ends with a class, which overrides a field under a let around the include. -/
def defaulting : SearchPath where
  tree := (FileTree.emptyAt []).insert "b.td"
    "class B<int x = 2, list<int> l = [x, 1]> : A<x> \x7b list<int> w = l; \x7d".toUTF8
  dirs := [""]

def defaultingText : String :=
  "class A<int y> \x7b int v = y; bit b; \x7d let b = 1 in include \"b.td\" def D : B;"

theorem defaulting_instance :
    ∃ statements flat es ls c place place' db rc rd db',
      readStatements "defaulting" defaultingText =
        .ok (statements ++ [.defDecl (.plain "D" "B" place place')]) ∧
      defaulting.process statements = .ok db ∧ defaulting.Splices statements flat ∧
      Statement.enclosedAll [] flat = es ++ [⟨ls, .classDecl c⟩] ∧ c.name = "B" ∧
      (∀ q ∈ c.params, q.default.isSome) ∧ db.defs.contains "D" = false ∧
      db.classes.get? "B" = some rc ∧
      rc.fields = [⟨"v", .int, some (.int 2)⟩, ⟨"b", .bit, some (.bit true)⟩,
        ⟨"w", .list .int, some (.list .int [.int 2, .int 1])⟩] ∧
      defaulting.run "defaulting" defaultingText = .ok db' ∧ db'.defs.records = [rd] ∧
      rd.fields = rc.fields ∧ rd.superclasses = rc.superclasses ++ ["B"] ∧
      rd.directSuperclasses = ["B"] := by
  have hrun : ((readStatements "defaulting" defaultingText).toOption.bind fun all =>
      (all.getLast?.bind (plainPlaces? "D" "B")).bind fun _ =>
        (defaulting.process all.dropLast).toOption.bind fun db =>
          (defaulting.splice? 1 all.dropLast).bind fun flat =>
            (lastClass? (Statement.enclosedAll [] flat)).map fun c =>
              decide (c.name = "B" ∧ (∀ q ∈ c.params, q.default.isSome) ∧ db.defs.records = [] ∧
                db.defs.contains "D" = false ∧ (db.classes.get? "B").map Record.fields =
                  some [⟨"v", .int, some (.int 2)⟩, ⟨"b", .bit, some (.bit true)⟩,
                    ⟨"w", .list .int, some (.list .int [.int 2, .int 1])⟩])) = some true := by
    decide +kernel
  obtain ⟨all, hread, hrun⟩ := Option.bind_eq_some_iff.1 hrun
  obtain ⟨⟨place, place'⟩, hplain, hrun⟩ := Option.bind_eq_some_iff.1 hrun
  obtain ⟨db, hdb, hrun⟩ := Option.bind_eq_some_iff.1 hrun
  obtain ⟨flat, hflat, hrun⟩ := Option.bind_eq_some_iff.1 hrun
  obtain ⟨c, hc, hrun⟩ := Option.map_eq_some_iff.1 hrun
  obtain ⟨hcname, hdefaults, hnone, hname, hfields⟩ := of_decide_eq_true hrun
  obtain ⟨es, ls, hlast⟩ := eq_of_lastClass? hc
  have hread : readStatements "defaulting" defaultingText =
      .ok (all.dropLast ++ [.defDecl (.plain "D" "B" place place')]) :=
    eq_of_plainPlaces? hplain ▸ ok_of_toOption hread
  obtain ⟨rc, rd, db', hrc, -, -, hrecords, -, hrd, hsuper, hdirect, -, -, -, htext⟩ :=
    process_instance (ok_of_toOption hdb) (splices_of_splice? hflat) hlast hdefaults hname place place'
  rw [hcname] at hrc hsuper hdirect htext
  rw [hrc] at hfields
  rw [hnone, List.nil_append] at hrecords
  exact ⟨all.dropLast, flat, es, ls, c, place, place', db, rc, rd, db', hread, ok_of_toOption hdb,
    splices_of_splice? hflat, hlast, hcname, hdefaults, hname, hrc, Option.some.inj hfields,
    htext _ _ hread, hrecords, hrd, hsuper, hdirect⟩

end SearchPath
end TypedRecords
