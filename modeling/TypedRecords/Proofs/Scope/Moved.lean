import TypedRecords.Proofs.Scope.Untouched

/-!
# Top-level lets are body lets

The declarations of a text with the lets around each of them say all there is to say about its scopes:
the lets can be moved into the bodies, and they reach no other record than those that are declared
under them or derive from a class that is (`SearchPath.run_moved`).
-/

namespace TypedRecords.SearchPath
variable {s : SearchPath}

/-- Where a text is parsed with success, let its includes be replaced by the statements of their files.
The declarations with the lets around each in front of its own body give the same records, if no let
around a class mentions a parameter of the class. Under other lets the same declarations leave other
records at most where the lets around a declaration differ, or those around a class that the record
derives from. -/
theorem run_moved {name text : String} {db : Database} (h : s.run name text = .ok db) :
    ∃ statements flat, readStatements name text = .ok statements ∧ s.Splices statements flat ∧
      ((∀ e ∈ Statement.enclosedAll [] flat, e.Separate) →
        ∃ p, Progress.start.Leaves [] ((Statement.enclosedAll [] flat).map Enclosed.lowered) p ∧
          p.db = db) ∧
      ∀ (enter : Progress.Entering) (other : List Statement) (q : Progress),
        Statement.includesAll other = [] →
        (Statement.enclosedAll [] other).map Enclosed.decl =
          (Statement.enclosedAll [] flat).map Enclosed.decl →
        Progress.start.runAll enter [] other = .ok q →
        Enclosed.Untouched (Statement.enclosedAll [] flat) (Statement.enclosedAll [] other) db q.db := by
  obtain ⟨statements, hread, h⟩ := bind_eq_ok.1 h
  obtain ⟨p, hp, h⟩ := bind_eq_ok.1 h
  obtain rfl := pure_eq_ok.1 h
  obtain ⟨flat, hflat, hleaves⟩ := splices_of_runAll (s.spliced_enter _ _) statements hp
  have hruns : Progress.start.Runs (Statement.enclosedAll [] flat) p :=
    Progress.runs_of_runAll rfl flat hflat.includesAll_eq_nil (hleaves (s.enter 0 []))
  refine ⟨statements, flat, mapError_eq_ok.1 hread, hflat, fun hseparate => ?_,
    fun enter other q hnone hdecl hq => ?_⟩
  · obtain ⟨q, hq, hpq⟩ := hruns.lowered ⟨rfl, .nil, rfl⟩ hseparate
    exact ⟨q, hq, hpq.db.symm⟩
  · exact hruns.untouched (Progress.runs_of_runAll rfl other hnone hq) hdecl.symm

/-- A file with a class and a def, which is included under lets. -/
def sharing : SearchPath where
  tree := (FileTree.emptyAt []).insert "b.td"
    "class B<int p> : A \x7b int w = p; \x7d def inner : B<1>;".toUTF8
  dirs := [""]

def sharingText : String :=
  "class A \x7b int v = 1; int u = 0; \x7d let v = 2 in \x7b let v = 3, u = 4 in include \"b.td\" " ++
    "def D : A; \x7d def E : A; def F : B<5>;"

/-- Every declaration under the outermost of its lets alone. -/
def outermost (es : List Enclosed) : List Statement :=
  es.map fun e => .scope (e.lets.take 1) [e.decl.statement]

theorem includesAll_outermost (es : List Enclosed) : Statement.includesAll (outermost es) = [] := by
  induction es with
  | nil => rfl
  | cons e es ih =>
    obtain ⟨ls, c | d⟩ := e <;> exact ih

theorem enclosedAll_outermost (es : List Enclosed) :
    Statement.enclosedAll [] (outermost es) = es.map fun e => ⟨e.lets.take 1, e.decl⟩ := by
  induction es with
  | nil => rfl
  | cons e es ih =>
    obtain ⟨ls, c | d⟩ := e <;> exact congrArg (List.cons _) ih

/-- The integers in the records of the defs. -/
def defNumbers (db : Database) : List (String × List (Option Int64)) :=
  db.defs.records.map fun r => (r.name, r.fields.map fun f =>
    match f.value with
    | some (.int number) => some number
    | _ => none)

theorem sharing_moved :
    ∃ db flat p q, sharing.run "sharing" sharingText = .ok db ∧
      defNumbers db = [("inner", [some 3, some 4, some 1]), ("D", [some 2, some 0]),
        ("E", [some 1, some 0]), ("F", [some 3, some 4, some 5])] ∧
      (Statement.enclosedAll [] flat).map (fun e => e.lets.map LetSyntax.name) =
        [[], ["v", "v", "u"], ["v", "v", "u"], ["v"], [], []] ∧
      Progress.start.Leaves [] ((Statement.enclosedAll [] flat).map Enclosed.lowered) p ∧ p.db = db ∧
      Progress.start.runAll (sharing.enter 0 []) [] (outermost (Statement.enclosedAll [] flat)) =
        .ok q ∧
      defNumbers q.db = [("inner", [some 2, some 0, some 1]), ("D", [some 2, some 0]),
        ("E", [some 1, some 0]), ("F", [some 2, some 0, some 5])] ∧
      Enclosed.Untouched (Statement.enclosedAll [] flat)
        ((Statement.enclosedAll [] flat).map fun e => ⟨e.lets.take 1, e.decl⟩) db q.db := by
  have hcomputed : ((sharing.run "sharing" sharingText).toOption.bind fun db =>
      (readStatements "sharing" sharingText).toOption.bind fun statements =>
        (sharing.splice? 1 statements).bind fun flat =>
          let es := Statement.enclosedAll [] flat
          (Progress.start.runAll (sharing.enter 0 []) [] (outermost es)).toOption.map fun q =>
            decide (defNumbers db = [("inner", [some 3, some 4, some 1]), ("D", [some 2, some 0]),
                ("E", [some 1, some 0]), ("F", [some 3, some 4, some 5])] ∧
              (∀ e ∈ es, e.Separate) ∧ (es.map fun e => e.lets.map LetSyntax.name) =
                [[], ["v", "v", "u"], ["v", "v", "u"], ["v"], [], []] ∧
              defNumbers q.db = [("inner", [some 2, some 0, some 1]), ("D", [some 2, some 0]),
                ("E", [some 1, some 0]), ("F", [some 2, some 0, some 5])])) = some true := by
    decide +kernel
  obtain ⟨db, hdb, hcomputed⟩ := Option.bind_eq_some_iff.1 hcomputed
  obtain ⟨statements, hread, hcomputed⟩ := Option.bind_eq_some_iff.1 hcomputed
  obtain ⟨flat, hsplice, hcomputed⟩ := Option.bind_eq_some_iff.1 hcomputed
  obtain ⟨q, hq, hcomputed⟩ := Option.map_eq_some_iff.1 hcomputed
  obtain ⟨hnumbers, hseparate, hlets, hnumbers'⟩ := of_decide_eq_true hcomputed
  obtain ⟨statements', flat', hread', hflat', hmoved, huntouched⟩ := run_moved (ok_of_toOption hdb)
  obtain rfl := Except.ok.inj ((ok_of_toOption hread).symm.trans hread')
  obtain rfl := (splices_of_splice? hsplice).unique hflat'
  obtain ⟨p, hleaves, hp⟩ := hmoved hseparate
  have hsame := huntouched _ _ q (includesAll_outermost _)
    (by rw [enclosedAll_outermost, List.map_map]; rfl) (ok_of_toOption hq)
  rw [enclosedAll_outermost] at hsame
  exact ⟨db, flat', p, q, ok_of_toOption hdb, hnumbers, hlets, hleaves, hp, ok_of_toOption hq,
    hnumbers', hsame⟩

end TypedRecords.SearchPath
