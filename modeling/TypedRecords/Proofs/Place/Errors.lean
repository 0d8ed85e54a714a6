import TypedRecords.Proofs.Include.Moments
import TypedRecords.Proofs.Place.Declarations
import TypedRecords.Proofs.Place.Grammar

/-!
# Errors lie in the texts read

At every moment of a run the places kept, in templates and lets and in the statements left to run, are
those of nodes of texts that the run has read (`Moment.Lies`). So whichever text is being run when it
fails, the error lies in the text whose node it is about; and a text that is not one of the language is
refused at a place of its own (`SearchPath.run_located`).
-/

namespace TypedRecords

/-- The moment is one of the run of a description. -/
def Moment.Of (s : SearchPath) (name text : String) (m : Moment) : Prop :=
  ∃ statements, readStatements name text = .ok statements ∧
    Relation.ReflTransGen (Step s) (.start statements) m

namespace SearchPath

/-- The texts that the run of a description reads: the description, under the name given for it, and,
under the path by which it is found, each file that an include which the run comes to leads to, unless
the file is on the stack. -/
inductive HasRead (s : SearchPath) (name text : String) : Source → Prop
  | main : HasRead s name text ⟨name, text⟩
  | file {m : Moment} {i : IncludeSyntax} {path content : String} {place : TreePath}
      (hm : m.Of s name text) (hi : m.statement? = some (.includeFile i))
      (hleads : s.Leads i path place) (hstack : place ∉ m.stack)
      (hcontent : (s.tree.bytes? place).bind String.fromUTF8? = some content) :
      HasRead s name text ⟨path, content⟩

/-- A node of a text that the run has read begins at the place. -/
def HasNodeAt (s : SearchPath) (name text : String) (l : Location) : Prop :=
  ∃ o statements, s.HasRead name text o ∧ readStatements o.name o.text = .ok statements ∧
    ∃ n ∈ Statement.nodesAll statements, n.place = l

/-- What an error of a run is about: a text that was read and is not one of the language, or a node of a
text that is. -/
inductive Explains (s : SearchPath) (name text : String) : ParseError → Prop
  | syntactic {o : Source} {e : SyntaxError} (ho : s.HasRead name text o)
      (h : readStatements o.name o.text = .error e) : Explains s name text e.toParseError
  | semantic {e : ParseError} (hcause : e.cause.Semantic) (h : s.HasNodeAt name text e.place) :
      Explains s name text e

variable {s : SearchPath} {name text : String}

/-- What cannot fail afterwards adds no failure. -/
theorem Explains.of_located {α β : Type} {Q : α → Prop} {x : Except ParseError α} {f : α → β}
    {e : ParseError} (he : x >>= (fun a => pure (f a)) = .error e)
    (h : Located (s.HasNodeAt name text) Q x) : s.Explains name text e := by
  obtain ⟨hcause, hplace⟩ := h.failure (error_of_bind he)
  exact .semantic hcause hplace

theorem readAt_explained {path : String} {place : TreePath} {origin : Location}
    (horigin : s.HasNodeAt name text origin)
    (hfile : ∀ content, (s.tree.bytes? place).bind String.fromUTF8? = some content →
      s.HasRead name text ⟨path, content⟩)
    {e : ParseError} (h : s.readAt path place origin = .error e) : s.Explains name text e := by
  unfold readAt at h
  split at h
  · exact Except.error.inj h ▸ .semantic trivial horigin
  · rename_i content hcontent
    obtain ⟨e', he', rfl⟩ := mapError_eq_error.1 h
    exact .syntactic (hfile content hcontent) he'

end SearchPath

/-! ### Every moment of a run -/

namespace Moment
variable {s : SearchPath} {name text : String} {P : Location → Prop} {m m' : Moment}

/-- All places kept at the moment satisfy `P`. -/
structure Lies (P : Location → Prop) (m : Moment) : Prop where
  progress : m.progress.Lies P
  lets : ∀ f ∈ m.frames, ∀ o ∈ f.lets, o.Lies P
  rest : ∀ f ∈ m.frames, Node.AllAt P (Statement.nodesAll f.rest)

/-- A file that is entered has been read. -/
theorem Of.fetched (hm : m.Of s name text) {i : IncludeSyntax} {file : Included}
    (hi : m.statement? = some (.includeFile i)) (h : s.fetch m.stack i = .ok file) :
    Node.AllAt (s.HasNodeAt name text) (Statement.nodesAll file.statements) := by
  obtain ⟨hleads, hstack, hfile⟩ := SearchPath.fetch_eq_ok.1 h
  unfold SearchPath.readAt at hfile
  split at hfile
  · cases hfile
  · rename_i content hcontent
    have hsource : s.HasRead name text ⟨file.path, content⟩ := .file hm hi hleads hstack hcontent
    exact fun n hn => ⟨_, file.statements, hsource, mapError_eq_ok.1 hfile, n, hn, rfl⟩

/-- An include fails at a node of its own, or its file is no text of the language. -/
theorem Of.fetch_explained (hm : m.Of s name text) {i : IncludeSyntax}
    (hi : m.statement? = some (.includeFile i)) (hnodes : Node.AllAt (s.HasNodeAt name text) i.nodes)
    {e : ParseError} (h : s.fetch m.stack i = .error e) : s.Explains name text e := by
  obtain ⟨hplace, hfilePlace⟩ := List.forall_mem_cons.1 hnodes
  unfold SearchPath.fetch at h
  cases hfile : stringText i.file i.filePlace with
  | error e' =>
    obtain ⟨hcause, hlies⟩ :=
      (stringText_located i.file (Node.place_of_allAt hfilePlace)).failure hfile
    rw [bind_of_error hfile] at h
    exact Except.error.inj h ▸ .semantic hcause hlies
  | ok file =>
    rw [bind_of_ok hfile] at h
    split at h
    · exact Except.error.inj h ▸ .semantic trivial hplace
    · rename_i path place hlocate
      split_ifs at h with hstack
      · exact Except.error.inj h ▸ .semantic trivial hplace
      · have hnew : place ∉ m.stack := fun hmem => hstack (List.contains_iff_mem.2 hmem)
        exact SearchPath.readAt_explained hplace
          (fun _ hcontent => .file hm hi ⟨file, hfile, hlocate⟩ hnew hcontent) (error_of_bind h)

/-- A step keeps the places of what is open; those of a text that it opens must be at hand. -/
theorem Lies.step (hm : m.Lies P)
    (hfile : ∀ i file, m.statement? = some (.includeFile i) → s.fetch m.stack i = .ok file →
      Node.AllAt P (Statement.nodesAll file.statements))
    (hstep : m.Moves s m') : m'.Lies P := by
  obtain ⟨hprogress, hlets, hrest⟩ := hm
  cases hstep with
  | close p f lets frames =>
    exact ⟨hprogress, fun g hg => hlets g (List.mem_cons_of_mem _ hg),
      fun g hg => hrest g (List.mem_cons_of_mem _ hg)⟩
  | @enter p f lets i rest frames file h =>
    obtain ⟨htop, hframes⟩ := List.forall_mem_cons.1 hlets
    obtain ⟨hstatements, hrests⟩ := List.forall_mem_cons.1 hrest
    have hnodes := hfile i file rfl ((stack_cons p f lets _ frames).symm ▸ h)
    exact ⟨hprogress, List.forall_mem_cons.2 ⟨htop, List.forall_mem_cons.2 ⟨htop, hframes⟩⟩,
      List.forall_mem_cons.2 ⟨hnodes, List.forall_mem_cons.2
        ⟨(List.forall_mem_append.1 hstatements).2, hrests⟩⟩⟩
  | @add p p' f lets d rest frames h =>
    obtain ⟨htop, hframes⟩ := List.forall_mem_cons.1 hlets
    obtain ⟨hstatements, hrests⟩ := List.forall_mem_cons.1 hrest
    obtain ⟨hdecl, hafter⟩ := List.forall_mem_append.1 hstatements
    have hadd : p'.Lies P := by
      cases d with
      | classDecl c => exact (Progress.addClass_located hprogress htop hdecl).result h
      | defDecl d => exact (Progress.addDef_located hprogress htop hdecl).result h
    exact ⟨hadd, List.forall_mem_cons.2 ⟨htop, hframes⟩, List.forall_mem_cons.2 ⟨hafter, hrests⟩⟩
  | @scope p f lets inner bindings body rest frames h =>
    obtain ⟨htop, hframes⟩ := List.forall_mem_cons.1 hlets
    obtain ⟨hstatements, hrests⟩ := List.forall_mem_cons.1 hrest
    obtain ⟨hscope, hafter⟩ := List.forall_mem_append.1 hstatements
    obtain ⟨hbindings, hbody⟩ := List.forall_mem_append.1 hscope
    rw [List.forall_mem_flatMap] at hbindings
    have hinner : ∀ o ∈ inner, o.Lies P :=
      (Located.mapM fun l hl => LetSyntax.toOverride_located (hbindings l hl)).result h
    exact ⟨hprogress, List.forall_mem_cons.2 ⟨List.forall_mem_append.2 ⟨htop, hinner⟩,
      List.forall_mem_cons.2 ⟨htop, hframes⟩⟩,
      List.forall_mem_cons.2 ⟨hbody, List.forall_mem_cons.2 ⟨hafter, hrests⟩⟩⟩

/-- At every moment of the run of a description the places kept are those of nodes of texts read. -/
theorem Of.lies (hm : m.Of s name text) : m.Lies (s.HasNodeAt name text) := by
  obtain ⟨statements, hread, hm⟩ := hm
  induction hm with
  | refl =>
    exact
      { progress := List.forall_mem_nil _
        lets := List.forall_mem_singleton.2 (List.forall_mem_nil _)
        rest := List.forall_mem_singleton.2 fun n hn => ⟨_, statements, .main, hread, n, hn, rfl⟩ }
  | tail hm hstep ih =>
    exact ih.step (fun i file hi h => Of.fetched ⟨statements, hread, hm⟩ hi h) (step_iff_moves.1 hstep)

theorem Of.next_explained (hm : m.Of s name text) {e : ParseError} (h : m.next s = .error e) :
    s.Explains name text e := by
  have hlies := hm.lies
  -- only a statement that is run can fail
  obtain ⟨p, frames⟩ := m
  rcases frames with _ | ⟨⟨f, lets, _ | ⟨statement, rest⟩⟩, frames⟩
  · cases h
  · cases h
  · obtain ⟨hp, hlets, hrest⟩ := hlies
    have htop := (List.forall_mem_cons.1 hlets).1
    have hnodes := (List.forall_mem_append.1 (List.forall_mem_cons.1 hrest).1).1
    cases statement with
    | includeFile i => exact hm.fetch_explained rfl hnodes (error_of_bind h)
    | classDecl c => exact .of_located h (Progress.addClass_located hp htop hnodes)
    | defDecl d => exact .of_located h (Progress.addDef_located hp htop hnodes)
    | scope bindings body =>
      have hbindings := List.forall_mem_flatMap.1 (List.forall_mem_append.1 hnodes).1
      exact .of_located h (Located.mapM fun l hl => LetSyntax.toOverride_located (hbindings l hl))

/-- The steps of a run that fails come to the one that fails. -/
theorem Ends.exists_error {x : Except ParseError Progress} (h : m.Ends s x) {e : ParseError}
    (hx : x = .error e) : ∃ m', Relation.ReflTransGen (Step s) m m' ∧ m'.next s = .error e := by
  obtain ⟨m', hm', ⟨-, hlast⟩ | ⟨e', hnext, hlast⟩⟩ := h.exists_last
  · cases hx.symm.trans hlast
  · exact ⟨m', hm', Except.error.inj (hlast.symm.trans hx) ▸ hnext⟩

end Moment

namespace SearchPath
variable {s : SearchPath} {name text : String}

theorem run_explained {e : ParseError} (h : s.run name text = .error e) : s.Explains name text e := by
  unfold run at h
  cases hread : readStatements name text with
  | error e' =>
    rw [hread] at h
    exact Except.error.inj h ▸ .syntactic .main hread
  | ok statements =>
    rw [hread] at h
    obtain ⟨m, hm, hnext⟩ := (Moment.start_ends s statements).exists_error (error_of_bind h)
    exact Moment.Of.next_explained ⟨statements, hread, hm⟩ hnext

/-- Where a parse fails, the place of the error is in a text that was read: its file is what that text is
called, the name of the description or the path by which an included file was found, and its line and its
column count the line feeds and the characters of the text before it. If the text is not one of the
language, reading it stops there. Any other error is at a node of the text, whose rule reads from there,
whatever text was run when it arose. -/
theorem run_located {e : ParseError} (h : s.run name text = .error e) :
    ∃ o before after, s.HasRead name text o ∧ o.text.toList = before ++ after ∧
      e.place = ⟨o.name, before.count '\n' + 1, (before.reverse.takeWhile (· ≠ '\n')).length + 1⟩ ∧
      ((∃ rules, e.cause = .expected rules ∧ readStatements o.name o.text = .error ⟨e.place, rules⟩) ∨
        e.cause.Semantic ∧ ∃ statements, readStatements o.name o.text = .ok statements ∧
          ∃ n ∈ Statement.nodesAll statements, n.place = e.place ∧ n.rule.Accepts ⟨after, e.place⟩) := by
  cases run_explained h with
  | @syntactic o e' ho hread =>
    obtain ⟨c, ⟨before, htext, hplace⟩, hc⟩ := Source.has_of_readStatements hread
    refine ⟨o, before, c.rest, ho, htext, ?_, .inl ⟨e'.expected, rfl, hread⟩⟩
    rw [← Location.advanceAll_start, ← hplace, hc]
    rfl
  | semantic hcause hnode =>
    obtain ⟨o, statements, ho, hread, n, hn, hl⟩ := hnode
    obtain ⟨c, ⟨before, htext, hplace⟩, hc, haccepts⟩ := Source.begins_of_readStatements hread n hn
    have hcursor : c = ⟨c.rest, e.place⟩ := by rw [← hl, ← hc]
    refine ⟨o, before, c.rest, ho, htext, ?_, .inr ⟨hcause, statements, hread, n, hn, hl, ?_⟩⟩
    · rw [← Location.advanceAll_start, ← hplace, hc, hl]
    · rwa [← hcursor]

/-- A file that includes another one, whose class is at fault as soon as it is given an integer. -/
def misused : SearchPath where
  tree := ((FileTree.emptyAt []).insert "lib/a.td" "include \"b.td\"".toUTF8).insert "lib/b.td"
    "// one operand\nclass A<int v> \x7b int w = !sub(v); \x7d".toUTF8
  dirs := ["lib"]

def misusedText : String := "include \"a.td\"\ndef D : A<1>;"

theorem misused_located :
    misused.run "main" misusedText = .error ⟨.subOperands, ⟨"lib/b.td", 2, 26⟩⟩ ∧
      ∃ o before after, misused.HasRead "main" misusedText o ∧ o.name = "lib/b.td" ∧
        o.text.toList = before ++ after ∧ before.count '\n' = 1 ∧
        (before.reverse.takeWhile (· ≠ '\n')).length = 25 ∧
        ∃ statements, readStatements o.name o.text = .ok statements ∧
          ∃ n ∈ Statement.nodesAll statements, n.place = ⟨"lib/b.td", 2, 26⟩ ∧
            n.rule.Accepts ⟨after, n.place⟩ := by
  have hrun : misused.run "main" misusedText = .error ⟨.subOperands, ⟨"lib/b.td", 2, 26⟩⟩ := by
    decide +kernel
  refine ⟨hrun, ?_⟩
  obtain ⟨o, before, after, ho, htext, hplace, hcause⟩ := run_located hrun
  rcases hcause with ⟨_, hcause, -⟩ | ⟨-, statements, hread, n, hn, hnode, haccepts⟩
  · cases hcause
  · injection hplace with hfile hline hcol
    refine ⟨o, before, after, ho, hfile.symm, htext, ?_, ?_, statements, hread, n, hn, hnode, ?_⟩
    · exact (Nat.succ.inj hline).symm
    · exact (Nat.succ.inj hcol).symm
    · exact hnode ▸ haccepts

end SearchPath
end TypedRecords
