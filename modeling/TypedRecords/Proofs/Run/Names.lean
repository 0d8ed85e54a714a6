import TypedRecords.Proofs.Include.Stack
import TypedRecords.Proofs.Reading.Literals
import TypedRecords.Proofs.Superclass.Exact

/-!
# Names that a run gives

Declarations are called what a parser of identifiers read, and anonymous defs what could have been read.
So all classes and defs of a session are called by identifiers (`Session.names_identifiers`).
-/

namespace TypedRecords

/-! ### What parsers answer -/

namespace Parser
variable {α β : Type} {p q : Parser α} {Q : α → Prop}

/-- Whatever the parser answers satisfies `Q`. -/
def Yields (p : Parser α) (Q : α → Prop) : Prop := ∀ c a c', (p c).outcome = some (a, c') → Q a

namespace Yields

theorem pure {a : α} (h : Q a) : (Pure.pure a : Parser α).Yields Q := by
  rintro c b c' hb
  obtain ⟨rfl, -⟩ := Prod.mk.inj (Option.some.inj hb)
  exact h

theorem bind {f : α → Parser β} {R : β → Prop} (h : p.Yields Q) (hf : ∀ a, Q a → (f a).Yields R) :
    (p >>= f).Yields R := by
  intro c b c' hb
  have hb : (Parser.bind p f c).outcome = some (b, c') := hb
  unfold Parser.bind at hb
  cases hp : (p c).outcome with
  | none =>
    simp only [hp] at hb
    cases hb
  | some a =>
    obtain ⟨a, c₁⟩ := a
    simp only [hp] at hb
    exact hf a (h c a c₁ hp) c₁ b c' hb

theorem bind_any {f : α → Parser β} {R : β → Prop} (hf : ∀ a, (f a).Yields R) : (p >>= f).Yields R :=
  .bind (Q := fun _ => True) (fun _ _ _ _ => trivial) fun a _ => hf a

theorem named {rule : Rule} (h : p.Yields Q) : (Parser.named rule p).Yields Q := by
  intro c a c' ha
  unfold Parser.named at ha
  cases hp : (p c).outcome with
  | none =>
    simp only [hp] at ha
    cases ha
  | some b =>
    simp only [hp] at ha
    exact h c a c' (hp.trans ha)

theorem orElse (hp : p.Yields Q) (hq : q.Yields Q) : (p <|> q).Yields Q := by
  intro c a c' ha
  have ha : (Parser.orElse p (fun _ => q) c).outcome = some (a, c') := ha
  unfold Parser.orElse at ha
  cases hpc : (p c).outcome with
  | none =>
    simp only [hpc] at ha
    exact hq c a c' ha
  | some b =>
    simp only [hpc] at ha
    exact hp c a c' (hpc.trans ha)

theorem optional (h : p.Yields Q) : (Parser.optional p).Yields fun o => ∀ a ∈ o, Q a := by
  intro c o c' ho a ha
  unfold Parser.optional at ho
  cases hp : (p c).outcome with
  | none =>
    simp only [hp] at ho
    obtain ⟨rfl, -⟩ := Prod.mk.inj (Option.some.inj ho)
    cases ha
  | some b =>
    simp only [hp] at ho
    obtain ⟨rfl, -⟩ := Prod.mk.inj (Option.some.inj ho)
    exact h c a b.2 (hp.trans (by rw [← Option.some.inj ha]))

theorem manyUpTo (h : p.Yields Q) (limit : Nat) :
    (Parser.manyUpTo p limit).Yields fun as => ∀ a ∈ as, Q a := by
  induction limit with
  | zero => exact .pure (List.forall_mem_nil _)
  | succ limit ih =>
    intro c as c' has
    unfold Parser.manyUpTo at has
    have hpart : (Parser.skip >>= fun _ => p).Yields Q := .bind_any fun _ => h
    cases hp : ((Parser.skip >>= fun _ => p) c).outcome with
    | none =>
      simp only [hp] at has
      obtain ⟨rfl, -⟩ := Prod.mk.inj (Option.some.inj has)
      exact List.forall_mem_nil _
    | some r =>
      obtain ⟨a, c₁⟩ := r
      simp only [hp] at has
      obtain ⟨⟨bs, c₂⟩, hbs, heq⟩ := Option.map_eq_some_iff.1 has
      obtain ⟨rfl, -⟩ := Prod.mk.inj heq
      exact List.forall_mem_cons.2 ⟨hpart c a c₁ hp, ih c₁ bs c₂ hbs⟩

theorem many (h : p.Yields Q) : (Parser.many p).Yields fun as => ∀ a ∈ as, Q a :=
  fun c => manyUpTo h _ c

theorem identifier : Parser.identifier.Yields IsIdentifier := by
  refine .named fun c name c' hname => ?_
  unfold Parser.scan at hname
  cases hscan : scanIdentifier c.rest with
  | none =>
    simp only [hscan] at hname
    cases hname
  | some r =>
    obtain ⟨other, n⟩ := r
    simp only [hscan] at hname
    obtain ⟨rfl, -⟩ := Prod.mk.inj (Option.some.inj hname)
    exact .of_scan hscan

end Yields
end Parser

/-! ### Statements -/

namespace Statement

mutual

/-- The classes and defs that the statement declares are called by identifiers. -/
def Identified : Statement → Prop
  | .includeFile _ => True
  | .classDecl c => IsIdentifier c.name
  | .defDecl d => ∀ name ∈ d.name, IsIdentifier name
  | .scope _ body => IdentifiedAll body

def IdentifiedAll : List Statement → Prop
  | [] => True
  | s :: ss => s.Identified ∧ IdentifiedAll ss

end

theorem identifiedAll_iff {ss : List Statement} : IdentifiedAll ss ↔ ∀ s ∈ ss, s.Identified := by
  induction ss with
  | nil => exact ⟨fun _ => List.forall_mem_nil _, fun _ => trivial⟩
  | cons s ss ih => rw [IdentifiedAll, ih, List.forall_mem_cons]

end Statement

namespace Parser.Yields

theorem letScope {statement : Parser Statement} (h : statement.Yields Statement.Identified) :
    (Parser.letScope statement).Yields Statement.IdentifiedAll := by
  refine .named (.orElse ?_ ?_)
  · refine .bind_any fun _ => .bind_any fun _ => .bind (.many h) fun body hbody => ?_
    exact .bind_any fun _ => .bind_any fun _ => .pure (Statement.identifiedAll_iff.2 hbody)
  · exact .bind h fun s hs => .pure ⟨hs, trivial⟩

theorem statementTo (depth : Nat) : (Parser.statementTo depth).Yields Statement.Identified := by
  induction depth with
  | zero => exact fun _ _ _ h => nomatch h
  | succ depth ih =>
    refine .orElse ?_ (.orElse ?_ (.orElse ?_ ?_))
    · refine .named (.bind_any fun _ => .bind_any fun _ => .bind_any fun _ => .bind_any fun _ => ?_)
      exact .bind_any fun _ => .pure trivial
    · refine .named (.bind_any fun _ => .bind_any fun _ => .bind_any fun _ => .bind_any fun _ => ?_)
      refine .bind .identifier fun name hname => .bind_any fun _ => .bind_any fun _ => .bind_any fun _ => ?_
      exact .bind_any fun _ => .bind_any fun _ => .bind_any fun _ => .pure hname
    · refine .named (.bind_any fun _ => .bind_any fun _ => .bind_any fun _ => ?_)
      refine .bind (.optional .identifier) fun name hname => .bind_any fun _ => .bind_any fun _ => ?_
      exact .bind_any fun _ => .bind_any fun _ => .pure hname
    · refine .named (.bind_any fun _ => .bind_any fun _ => .bind_any fun _ => .bind_any fun _ => ?_)
      exact .bind_any fun _ => .bind_any fun _ => .bind (.letScope ih) fun body hbody => .pure hbody

theorem file : Parser.file.Yields Statement.IdentifiedAll := by
  have hstatement : Parser.statement.Yields Statement.Identified := fun c => statementTo _ c
  refine .named (.bind_any fun _ => .bind (.many hstatement) fun ss hss => ?_)
  exact .bind_any fun _ => .bind_any fun _ => .pure (Statement.identifiedAll_iff.2 hss)

end Parser.Yields

theorem identifiedAll_of_readStatements {name text : String} {ss : List Statement}
    (h : readStatements name text = .ok ss) : Statement.IdentifiedAll ss := by
  unfold readStatements at h
  cases hfile : (Parser.file (Cursor.start name text)).outcome with
  | none =>
    simp only [hfile] at h
    cases h
  | some r =>
    obtain ⟨statements, c⟩ := r
    simp only [hfile] at h
    exact Except.ok.inj h ▸ Parser.Yields.file _ statements c hfile

theorem identifiedAll_of_readAt {search : SearchPath} {path : String} {place : TreePath}
    {origin : Location} {ss : List Statement} (h : search.readAt path place origin = .ok ss) :
    Statement.IdentifiedAll ss := by
  unfold SearchPath.readAt at h
  cases htext : (search.tree.bytes? place).bind String.fromUTF8? with
  | none =>
    simp only [htext] at h
    cases h
  | some text =>
    simp only [htext] at h
    exact identifiedAll_of_readStatements (mapError_eq_ok.1 h)

/-! ### A run -/

namespace Progress

/-- All records are called by identifiers. -/
def Identified (p : Progress) : Prop :=
  ∀ side, ∀ r ∈ (p.db.table side).records, IsIdentifier r.name

theorem isIdentifier_anonymousName (p : Progress) : IsIdentifier p.anonymousName := by
  have hchars : p.anonymousName.toList = "anonymous_".toList ++ (toString p.anonymous).toList :=
    String.toList_append
  refine ⟨fun c hc => ?_, ⟨'a', by rw [hchars]; rfl, rfl⟩, fun k hk => ?_⟩
  · rw [hchars] at hc
    rcases List.mem_append.1 hc with hc | hc
    · exact List.all_eq_true.1 (show "anonymous_".toList.all isWordChar = true from rfl) c hc
    · exact isWordChar_toString _ c hc
  -- no keyword begins as the name does
  · have hhead : k.text.toList.head? = some 'a' := by rw [hk, hchars]; rfl
    revert hhead
    cases k <;> decide

namespace Identified
variable {p p' : Progress} {lets : List Override}

theorem start : Progress.start.Identified := fun side r hr => by cases side <;> cases hr

theorem addClass (h : p.Identified) {c : ClassSyntax} (hc : IsIdentifier c.name)
    (hrun : p.addClass lets c = .ok p') : p'.Identified := by
  obtain ⟨t, bs, d, r, hstep⟩ := addClass_eq_ok hrun
  obtain ⟨m, -, rfl⟩ := Draft.finishIn_eq_ok.1 hstep.record
  intro side q hq
  rw [hstep.db] at hq
  cases side with
  | classes => exact (RecordTable.mem_keep hq).elim (h .classes q) fun hq => hq ▸ hc
  | defs => exact h .defs q hq

theorem addDef (h : p.Identified) {s : DefSyntax} (hs : ∀ name ∈ s.name, IsIdentifier name)
    (hrun : p.addDef lets s = .ok p') : p'.Identified := by
  obtain ⟨t, d, r, hstep⟩ := addDef_eq_ok hrun
  obtain ⟨m, -, rfl⟩ := Draft.finishIn_eq_ok.1 hstep.record
  have hname : IsIdentifier (s.name.getD p.anonymousName) := by
    cases hname : s.name with
    | none => exact p.isIdentifier_anonymousName
    | some name => exact hs name hname
  intro side q hq
  rw [hstep.db] at hq
  cases side with
  | classes => exact h .classes q hq
  | defs => exact (RecordTable.mem_keep hq).elim (h .defs q) fun hq => hq ▸ hname

mutual

theorem run {enter : Entering} (henter : ∀ {p p' : Progress} {lets : List Override} {i : IncludeSyntax}, p.Identified →
      enter p lets i = .ok p' → p'.Identified) {p p' : Progress} {lets : List Override}
    (h : p.Identified) : ∀ s : Statement, s.Identified → p.run enter lets s = .ok p' → p'.Identified
  | .includeFile i, _, hrun => henter h hrun
  | .classDecl c, hc, hrun => h.addClass hc hrun
  | .defDecl d, hd, hrun => h.addDef hd hrun
  | .scope bindings body, hbody, hrun => by
    obtain ⟨inner, -, hrun⟩ := bind_eq_ok.1 hrun
    exact runAll henter h body hbody hrun

theorem runAll {enter : Entering} (henter : ∀ {p p' : Progress} {lets : List Override} {i : IncludeSyntax}, p.Identified →
      enter p lets i = .ok p' → p'.Identified) {p p' : Progress} {lets : List Override}
    (h : p.Identified) :
    ∀ ss : List Statement, Statement.IdentifiedAll ss → p.runAll enter lets ss = .ok p' → p'.Identified
  | [], _, hrun => Except.ok.inj hrun ▸ h
  | s :: ss, hss, hrun => by
    obtain ⟨p₁, hs, hrun⟩ := bind_eq_ok.1 hrun
    exact runAll henter (run henter h s hss.1 hs) ss hss.2 hrun

end

theorem enter (search : SearchPath) (level : Nat) (stack : List TreePath) {p p' : Progress}
    {lets : List Override} {i : IncludeSyntax} (h : p.Identified)
    (hrun : search.enter level stack p lets i = .ok p') : p'.Identified := by
  induction level generalizing stack p p' lets i with
  | zero =>
    obtain ⟨file, -, hrun⟩ := bind_eq_ok.1 hrun
    cases hrun
  | succ level ih =>
    obtain ⟨file, hfile, hrun⟩ := bind_eq_ok.1 hrun
    obtain ⟨-, -, hread⟩ := SearchPath.fetch_eq_ok.1 hfile
    exact runAll (ih (file.place :: stack)) h file.statements (identifiedAll_of_readAt hread) hrun

end Identified
end Progress

namespace Session

/-- All classes and defs of a session, and so the superclasses of its records, are called by
identifiers. -/
theorem names_identifiers {search : SearchPath} {name text : String} {s : Session}
    (h : read search name text = .ok s) (side : Side) : ∀ r ∈ (s.db.table side).records,
    IsIdentifier r.name ∧ ∀ c ∈ r.superclasses, IsIdentifier c := by
  have hclosed := closed h
  obtain ⟨db, hdb, hs⟩ := bind_eq_ok.1 h
  obtain ⟨ss, hss, hdb⟩ := bind_eq_ok.1 hdb
  obtain ⟨p, hp, hdb⟩ := bind_eq_ok.1 hdb
  obtain rfl := pure_eq_ok.1 hdb
  obtain rfl := pure_eq_ok.1 hs
  have hidentified : p.Identified := Progress.Identified.runAll
    (Progress.Identified.enter search _ []) .start ss
    (identifiedAll_of_readStatements (mapError_eq_ok.1 hss)) hp
  have hname : ∀ side, ∀ r ∈ (p.db.link.table side).records, IsIdentifier r.name := by
    intro side r hr
    rw [Database.table_link] at hr
    obtain ⟨q, hq, rfl⟩ := List.mem_map.1 hr
    exact hidentified side q hq
  refine fun r hr => ⟨hname side r hr, fun c hc => ?_⟩
  obtain ⟨rc, hrc⟩ := Option.isSome_iff_exists.1 ((hclosed side r hr).get?_of_mem hc)
  exact RecordTable.name_of_get? hrc ▸ hname .classes rc (RecordTable.mem_of_get? hrc)

end Session
end TypedRecords
