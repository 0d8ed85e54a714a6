import TypedRecords.Proofs.Include.Stack

/-!
# Including is splicing

An include stands for the statements of the file that it leads to. Where a run succeeds, every include
in its text can be replaced by those statements, and the statements that result, which include nothing,
leave the same records (`SearchPath.run_splice`).
-/

namespace TypedRecords

namespace SearchPath
variable {s : SearchPath}

/-- The second list is the first with every include replaced by the statements of the file that it
leads to, where the includes are replaced in turn. -/
inductive Splices (s : SearchPath) : List Statement → List Statement → Prop
  | nil : Splices s [] []
  | includeFile {i : IncludeSyntax} {path : String} {place : TreePath}
      {inside flat rest flatRest : List Statement} (hleads : s.Leads i path place)
      (hread : s.readAt path place i.place = .ok inside) (hinside : Splices s inside flat)
      (hrest : Splices s rest flatRest) : Splices s (.includeFile i :: rest) (flat ++ flatRest)
  | classDecl (c : ClassSyntax) {rest flatRest : List Statement} (hrest : Splices s rest flatRest) :
      Splices s (.classDecl c :: rest) (.classDecl c :: flatRest)
  | defDecl (d : DefSyntax) {rest flatRest : List Statement} (hrest : Splices s rest flatRest) :
      Splices s (.defDecl d :: rest) (.defDecl d :: flatRest)
  | scope (bindings : List LetSyntax) {body flat rest flatRest : List Statement}
      (hbody : Splices s body flat) (hrest : Splices s rest flatRest) :
      Splices s (.scope bindings body :: rest) (.scope bindings flat :: flatRest)

theorem Leads.unique {i : IncludeSyntax} {path path' : String} {place place' : TreePath}
    (h : s.Leads i path place) (h' : s.Leads i path' place') : path = path' ∧ place = place' := by
  obtain ⟨name, hname, hlocate⟩ := h
  obtain ⟨name', hname', hlocate'⟩ := h'
  obtain rfl := Except.ok.inj (hname.symm.trans hname')
  exact Prod.mk.inj (Option.some.inj (hlocate.symm.trans hlocate'))

namespace Splices
variable {ss ts us vs : List Statement}

theorem append (h : s.Splices ss us) (h' : s.Splices ts vs) : s.Splices (ss ++ ts) (us ++ vs) := by
  induction h with
  | nil => exact h'
  | includeFile hleads hread hinside _ _ ih =>
    rw [List.append_assoc]
    exact .includeFile hleads hread hinside ih
  | classDecl c _ ih => exact .classDecl c ih
  | defDecl d _ ih => exact .defDecl d ih
  | scope bindings hbody _ _ ih => exact .scope bindings hbody ih

theorem unique (h : s.Splices ss us) (h' : s.Splices ss vs) : vs = us := by
  induction h generalizing vs with
  | nil => cases h'; rfl
  | includeFile hleads hread _ _ ihinside ihrest =>
    cases h' with
    | includeFile hleads' hread' hinside' hrest' =>
      obtain ⟨rfl, rfl⟩ := hleads.unique hleads'
      obtain rfl := Except.ok.inj (hread.symm.trans hread')
      rw [ihinside hinside', ihrest hrest']
  | classDecl c _ ih =>
    cases h' with
    | classDecl _ hrest' => rw [ih hrest']
  | defDecl d _ ih =>
    cases h' with
    | defDecl _ hrest' => rw [ih hrest']
  | scope bindings _ _ ihbody ihrest =>
    cases h' with
    | scope _ hbody' hrest' => rw [ihbody hbody', ihrest hrest']

theorem includesAll_append (ss ts : List Statement) :
    Statement.includesAll (ss ++ ts) = Statement.includesAll ss ++ Statement.includesAll ts := by
  induction ss with
  | nil => rfl
  | cons st ss ih => rw [List.cons_append, Statement.includesAll, Statement.includesAll, ih,
      List.append_assoc]

theorem includesAll_eq_nil (h : s.Splices ss us) : Statement.includesAll us = [] := by
  induction h with
  | nil => rfl
  | includeFile _ _ _ _ ihinside ihrest => rw [includesAll_append, ihinside, ihrest, List.nil_append]
  | classDecl c _ ih => exact ih
  | defDecl d _ ih => exact ih
  | scope bindings _ _ ihbody ihrest =>
    rw [Statement.includesAll, Statement.includes, ihbody, ihrest, List.nil_append]

end Splices
end SearchPath

/-! ### Splicing computed -/

namespace Statement

mutual

/-- What a statement is replaced by, where `follow` gives the statements that stand for an include. -/
def spliced (follow : IncludeSyntax → Option (List Statement)) : Statement → Option (List Statement)
  | .includeFile i => follow i
  | .classDecl c => some [.classDecl c]
  | .defDecl d => some [.defDecl d]
  | .scope bindings body => do return [.scope bindings (← splicedAll follow body)]

def splicedAll (follow : IncludeSyntax → Option (List Statement)) :
    List Statement → Option (List Statement)
  | [] => some []
  | s :: ss => do return (← s.spliced follow) ++ (← splicedAll follow ss)

end

end Statement

namespace SearchPath
variable {s : SearchPath}

/-- The statements with all includes replaced, if they are nested no deeper than `depth`. -/
def splice? (s : SearchPath) : Nat → List Statement → Option (List Statement)
  | 0 => Statement.splicedAll fun _ => none
  | depth + 1 => Statement.splicedAll fun i => do
    let file ← (s.fetch [] i).toOption
    s.splice? depth file.statements

mutual

theorem splices_of_spliced {follow : IncludeSyntax → Option (List Statement)}
    (hfollow : ∀ i flat, follow i = some flat → s.Splices [.includeFile i] flat) :
    ∀ (st : Statement) {flat : List Statement}, st.spliced follow = some flat → s.Splices [st] flat
  | .includeFile i, _, h => hfollow i _ h
  | .classDecl c, _, h => Option.some.inj h ▸ .classDecl c .nil
  | .defDecl d, _, h => Option.some.inj h ▸ .defDecl d .nil
  | .scope bindings body, _, h => by
    obtain ⟨flat, hflat, h⟩ := Option.bind_eq_some_iff.1 h
    exact Option.some.inj h ▸ .scope bindings (splices_of_splicedAll hfollow body hflat) .nil

theorem splices_of_splicedAll {follow : IncludeSyntax → Option (List Statement)}
    (hfollow : ∀ i flat, follow i = some flat → s.Splices [.includeFile i] flat) :
    ∀ (ss : List Statement) {flat : List Statement},
      Statement.splicedAll follow ss = some flat → s.Splices ss flat
  | [], _, h => Option.some.inj h ▸ .nil
  | st :: ss, _, h => by
    obtain ⟨first, hfirst, h⟩ := Option.bind_eq_some_iff.1 h
    obtain ⟨rest, hrest, h⟩ := Option.bind_eq_some_iff.1 h
    exact Option.some.inj h ▸
      (splices_of_spliced hfollow st hfirst).append (splices_of_splicedAll hfollow ss hrest)

end

theorem splices_of_splice? {depth : Nat} {ss flat : List Statement}
    (h : s.splice? depth ss = some flat) : s.Splices ss flat := by
  induction depth generalizing ss flat with
  | zero => exact splices_of_splicedAll (fun _ _ hi => by cases hi) ss h
  | succ depth ih =>
    refine splices_of_splicedAll (fun i flat hi => ?_) ss h
    obtain ⟨file, hfile, hflat⟩ := Option.bind_eq_some_iff.1 hi
    obtain ⟨hleads, -, hread⟩ := fetch_eq_ok.1 (ok_of_toOption hfile)
    exact (List.append_nil flat) ▸ .includeFile hleads hread (ih hflat) .nil

end SearchPath

/-! ### Running what was spliced -/

namespace Progress

theorem runAll_append (enter : Entering) (p : Progress) (lets : List Override)
    (ss ts : List Statement) :
    p.runAll enter lets (ss ++ ts) = p.runAll enter lets ss >>= fun p => p.runAll enter lets ts := by
  induction ss generalizing p with
  | nil => rfl
  | cons st ss ih =>
    rw [List.cons_append, runAll, runAll, bind_assoc]
    exact bind_congr fun p' => ih p'

/-- The statements do what leads from `p` to `p'` under the lets, and read no file for it. -/
def Leaves (p : Progress) (lets : List Override) (flat : List Statement) (p' : Progress) : Prop :=
  ∀ enter : Entering, p.runAll enter lets flat = .ok p'

namespace Leaves
variable {p p₁ p' : Progress} {lets : List Override}

theorem append {ss ts : List Statement} (h : p.Leaves lets ss p₁) (h' : p₁.Leaves lets ts p') :
    p.Leaves lets (ss ++ ts) p' := by
  intro enter
  rw [runAll_append, bind_of_ok (h enter)]
  exact h' enter

theorem single {st : Statement} (h : ∀ enter : Entering, p.run enter lets st = .ok p') :
    p.Leaves lets [st] p' := by
  intro enter
  rw [runAll, bind_of_ok (h enter)]
  rfl

end Leaves

end Progress

namespace SearchPath
variable {s : SearchPath}

/-- What `enter` does with an include, the statements spliced for it do. -/
def Spliced (s : SearchPath) (enter : Progress.Entering) : Prop :=
  ∀ {p p' : Progress} {lets : List Override} {i : IncludeSyntax}, enter p lets i = .ok p' →
    ∃ flat, s.Splices [.includeFile i] flat ∧ p.Leaves lets flat p'

mutual

theorem splices_of_run {enter : Progress.Entering} (henter : s.Spliced enter) {p p' : Progress}
    {lets : List Override} : ∀ st : Statement, p.run enter lets st = .ok p' →
      ∃ flat, s.Splices [st] flat ∧ p.Leaves lets flat p'
  | .includeFile i, h => henter h
  | .classDecl c, h => ⟨_, .classDecl c .nil, .single fun _ => h⟩
  | .defDecl d, h => ⟨_, .defDecl d .nil, .single fun _ => h⟩
  | .scope bindings body, h => by
    obtain ⟨inner, hinner, h⟩ := bind_eq_ok.1 h
    obtain ⟨flat, hflat, hleaves⟩ := splices_of_runAll henter body h
    exact ⟨_, .scope bindings hflat .nil, .single fun enter =>
      bind_eq_ok.2 ⟨inner, hinner, hleaves enter⟩⟩

theorem splices_of_runAll {enter : Progress.Entering} (henter : s.Spliced enter) {p p' : Progress}
    {lets : List Override} : ∀ ss : List Statement, p.runAll enter lets ss = .ok p' →
      ∃ flat, s.Splices ss flat ∧ p.Leaves lets flat p'
  | [], h => ⟨[], .nil, fun _ => h⟩
  | st :: ss, h => by
    obtain ⟨p₁, hst, h⟩ := bind_eq_ok.1 h
    obtain ⟨first, hfirst, hleaves⟩ := splices_of_run henter st hst
    obtain ⟨rest, hrest, hleaves'⟩ := splices_of_runAll henter ss h
    exact ⟨_, hfirst.append hrest, hleaves.append hleaves'⟩

end

theorem spliced_enter (s : SearchPath) (level : Nat) (stack : List TreePath) :
    s.Spliced (s.enter level stack) := by
  induction level generalizing stack with
  | zero =>
    intro p p' lets i h
    obtain ⟨file, -, h⟩ := bind_eq_ok.1 h
    cases h
  | succ level ih =>
    intro p p' lets i h
    obtain ⟨file, hfile, h⟩ := bind_eq_ok.1 h
    obtain ⟨hleads, -, hread⟩ := fetch_eq_ok.1 hfile
    obtain ⟨flat, hflat, hleaves⟩ := splices_of_runAll (ih (file.place :: stack)) file.statements h
    exact ⟨_, .includeFile hleads hread hflat .nil, (List.append_nil flat).symm ▸ hleaves⟩

/-- Where a text is parsed with success, the statements that come of replacing every include by the
statements of its file, in files and scopes alike, are determined, and they give the same records
without any file being read. -/
theorem run_splice {name text : String} {db : Database} (h : s.run name text = .ok db) :
    ∃ statements flat p, readStatements name text = .ok statements ∧
      s.Splices statements flat ∧ (∀ flat', s.Splices statements flat' → flat' = flat) ∧
      Statement.includesAll flat = [] ∧
      (∀ enter : Progress.Entering, Progress.start.runAll enter [] flat = .ok p) ∧ p.db = db := by
  obtain ⟨statements, hread, h⟩ := bind_eq_ok.1 h
  obtain ⟨p, hp, h⟩ := bind_eq_ok.1 h
  obtain ⟨flat, hflat, hleaves⟩ := splices_of_runAll (s.spliced_enter _ _) statements hp
  exact ⟨statements, flat, p, mapError_eq_ok.1 hread, hflat, fun flat' hflat' => hflat.unique hflat',
    hflat.includesAll_eq_nil, hleaves, pure_eq_ok.1 h⟩

/-- Files that include each other in a scope, with defs that are numbered across them. -/
def nested : SearchPath where
  tree := ((FileTree.emptyAt []).insert "lib/a.td" "def : A; include \"b.td\"".toUTF8).insert
    "lib/b.td" "def : A; let v = 3 in def : A;".toUTF8
  dirs := ["none", "lib"]

def nestedText : String :=
  "class A \x7b int v = 1; \x7d def; let v = 2 in \x7b include \"a.td\" def : A; \x7d def : A;"

theorem nested_splice :
    ∃ db statements flat p, nested.run "nested" nestedText = .ok db ∧
      db.defs.records.map (fun r => (r.name, r.fields.map Field.value)) =
        [("anonymous_0", []), ("anonymous_1", [some (.int 2)]), ("anonymous_2", [some (.int 2)]),
          ("anonymous_3", [some (.int 3)]), ("anonymous_4", [some (.int 2)]),
          ("anonymous_5", [some (.int 1)])] ∧
      nested.Splices statements flat ∧ Statement.includesAll flat = [] ∧
      (∀ enter : Progress.Entering, Progress.start.runAll enter [] flat = .ok p) ∧ p.db = db := by
  have hrun : (nested.run "nested" nestedText).toOption.map (fun db =>
      db.defs.records.map fun r => (r.name, r.fields.map Field.value)) =
        some [("anonymous_0", []), ("anonymous_1", [some (.int 2)]),
          ("anonymous_2", [some (.int 2)]), ("anonymous_3", [some (.int 3)]),
          ("anonymous_4", [some (.int 2)]), ("anonymous_5", [some (.int 1)])] := by
    decide +kernel
  obtain ⟨db, h, hdefs⟩ := ok_of_toOption_map hrun
  obtain ⟨statements, flat, p, -, hflat, -, hnone, hleaves, hdb⟩ := run_splice h
  exact ⟨db, statements, flat, p, h, hdefs, hflat, hnone, hleaves, hdb⟩

end SearchPath
end TypedRecords
