import TypedRecords.Proofs.Exchange.Identifiers
import TypedRecords.Proofs.Include.Moments
import TypedRecords.Proofs.Together.Run

/-!
# Adjacent defs exchanged

Of two adjacent defs neither of which uses the name of the other, it does not matter which is the first:
with either order both are added or it fails, and the records added are the same, while up to the two the
runs go in step (`SearchPath.start_exchanged`). Since what a def builds does not depend on another def that
it does not name, the second of them can be added if and only if both can be added alone and their names
differ.
-/

namespace TypedRecords
namespace Progress
variable {p q : Progress} {lets : List Override} {d d' d₁ d₂ : DefSyntax} {r r' : Record}

/-! ### One def -/

/-- What a def is called. -/
def defName (p : Progress) (d : DefSyntax) : String := d.name.getD p.anonymousName

/-- The name stands in an expression that the def uses: one of its own and of the lets that enclose it, or
of a class that it derives from. -/
def Uses (p : Progress) (lets : List Override) (d : DefSyntax) (name : String) : Prop :=
  ∃ t u, d.toTemplate p.declared lets (p.defName d) = .ok t ∧
    Relation.ReflTransGen (Template.Extends p.templates) t u ∧ name ∈ u.identifiers

/-- The defs are of different names, at most one of them anonymous, and neither uses the name of the
other. -/
structure Independent (p : Progress) (lets : List Override) (d₁ d₂ : DefSyntax) : Prop where
  names : d₁.name ≠ d₂.name
  left : ¬p.Uses lets d₁ (p.defName d₂)
  right : ¬p.Uses lets d₂ (p.defName d₁)

/-- No expression of the def, and none of any class, has the name in it. -/
def spares (p : Progress) (lets : List Override) (d : DefSyntax) (name : String) : Bool :=
  match d.toTemplate p.declared lets (p.defName d) with
  | .ok t => (t :: p.templates).all fun u => !u.identifiers.contains name
  | .error _ => true

theorem not_uses_of_spares {name : String} (h : p.spares lets d name = true) :
    ¬p.Uses lets d name := by
  rintro ⟨t, u, ht, hu, hname⟩
  rw [spares, ht] at h
  have hmem : u ∈ t :: p.templates := by
    cases hu with
    | refl => exact List.mem_cons_self ..
    | tail _ hlast => exact List.mem_cons_of_mem _ hlast.1
  have hspared := List.all_eq_true.1 h u hmem
  rw [List.contains_iff_mem.2 hname] at hspared
  cases hspared

/-- The record is what the def gives where the declarations so far are those of `p`. -/
def Gives (p : Progress) (lets : List Override) (d : DefSyntax) (r : Record) : Prop :=
  ∃ t, d.toTemplate p.declared lets (p.defName d) = .ok t ∧ p.db.defs.contains (p.defName d) = false ∧
    (Draft.ofTemplate p.db p.templates t [] >>= fun draft =>
      draft.finish p.db (p.defName d) d.name.isNone false t.directSuperclasses) = .ok r

/-- The declarations so far and a def that gives a record. -/
def withDef (p : Progress) (d : DefSyntax) (r : Record) : Progress :=
  { p with
    db := { p.db with defs := (p.db.defs.keep r).table }
    anonymous := if d.name.isNone then p.anonymous + 1 else p.anonymous }

theorem addDef_eq_ok_iff : p.addDef lets d = .ok q ↔ ∃ r, p.Gives lets d r ∧ q = p.withDef d r := by
  constructor
  · intro h
    obtain ⟨t, draft, r, hstep⟩ := addDef_eq_ok h
    obtain ⟨db, templates, anonymous⟩ := q
    refine ⟨r, ⟨t, hstep.template, hstep.undefined, bind_eq_ok.2 ⟨draft, hstep.draft, hstep.record⟩⟩, ?_⟩
    obtain rfl := hstep.db
    obtain rfl := hstep.templates
    obtain rfl := hstep.anonymous
    rfl
  · rintro ⟨r, ⟨t, ht, hnew, hr⟩, rfl⟩
    obtain ⟨draft, hdraft, hr⟩ := bind_eq_ok.1 hr
    exact DefStep.addDef ⟨ht, hnew, hdraft, hr, rfl, rfl, rfl⟩

theorem Gives.name (h : p.Gives lets d r) : r.name = p.defName d := by
  obtain ⟨t, -, -, h⟩ := h
  obtain ⟨draft, -, h⟩ := bind_eq_ok.1 h
  obtain ⟨m, -, rfl⟩ := Draft.finishIn_eq_ok.1 h
  rfl

theorem Gives.new (h : p.Gives lets d r) : p.db.defs.get? r.name = none := by
  rw [h.name]
  obtain ⟨t, -, hnew, -⟩ := h
  rw [RecordTable.contains_eq_isSome] at hnew
  exact Option.not_isSome_iff_eq_none.1 (Bool.eq_false_iff.1 hnew)

/-! ### A def beside another -/

theorem runAll_defs (enter : Entering) : p.runAll enter lets [.defDecl d₁, .defDecl d₂] =
    p.addDef lets d₁ >>= fun p₁ => p₁.addDef lets d₂ := by
  simp only [runAll, run]
  exact bind_congr fun p₁ => bind_pure _

theorem defName_withDef (hne : d.name ≠ d'.name) (r' : Record) :
    (p.withDef d' r').defName d = p.defName d := by
  unfold defName anonymousName withDef
  cases hd : d.name with
  | some name => rfl
  | none =>
    have hsome : d'.name.isNone = false := by
      cases hd' : d'.name with
      | some name => rfl
      | none => exact (hne (hd.trans hd'.symm)).elim
    rw [hsome]
    rfl

theorem contains_withDef (h' : p.Gives lets d' r') (name : String) :
    (p.withDef d' r').db.defs.contains name = (p.db.defs.contains name || decide (r'.name = name)) := by
  unfold RecordTable.contains withDef
  rw [RecordTable.records_keep h'.new, List.any_append, List.any_cons, List.any_nil, Bool.or_false]

/-- After a def whose name it does not use, a def gives what it gives before it, under another name. -/
theorem gives_withDef_iff (hp : p.Placed)
    (hlets : ∀ o ∈ lets, o.value.Written (Ty.Declared p.declared)) (h' : p.Gives lets d' r')
    (hne : d.name ≠ d'.name) (huse : ¬p.Uses lets d r'.name) :
    (p.withDef d' r').Gives lets d r ↔ p.Gives lets d r ∧ r'.name ≠ p.defName d := by
  have hbuilt : ∀ t, d.toTemplate p.declared lets (p.defName d) = .ok t →
      ((Draft.ofTemplate (p.withDef d' r').db p.templates t [] >>= fun draft =>
          draft.finish (p.withDef d' r').db (p.defName d) d.name.isNone false t.directSuperclasses) =
            .ok r ↔
        (Draft.ofTemplate p.db p.templates t [] >>= fun draft =>
          draft.finish p.db (p.defName d) d.name.isNone false t.directSuperclasses) = .ok r) := by
    intro t ht
    have hnames : ∀ u, Relation.ReflTransGen (Template.Extends p.templates) t u →
        ∀ a ∈ u.identifiers, a ≠ r'.name := fun u hu a ha h => huse ⟨t, u, ht, hu, h ▸ ha⟩
    exact (Template.built_together (Database.agreesAt_keep h'.new) hp.classified.names hp.templates
      (DefSyntax.written_toTemplate (fun _ h => h) hlets ht) (DefSyntax.params_toTemplate ht) hnames
      _ _ _).eq_ok_iff.symm
  unfold Gives
  rw [defName_withDef hne, contains_withDef h']
  constructor
  · rintro ⟨t, ht, hnew, hr⟩
    obtain ⟨hnew, hname⟩ := Bool.or_eq_false_iff.1 hnew
    exact ⟨⟨t, ht, hnew, (hbuilt t ht).1 hr⟩, of_decide_eq_false hname⟩
  · rintro ⟨⟨t, ht, hnew, hr⟩, hname⟩
    exact ⟨t, ht, Bool.or_eq_false_iff.2 ⟨hnew, decide_eq_false hname⟩, (hbuilt t ht).2 hr⟩

/-- Two defs, the later of which does not use the name of the earlier, are added if both can be added
alone and are not of one name. -/
theorem addDefs_eq_ok_iff (hp : p.Placed)
    (hlets : ∀ o ∈ lets, o.value.Written (Ty.Declared p.declared)) (hne : d₂.name ≠ d₁.name)
    (huse : ¬p.Uses lets d₂ (p.defName d₁)) :
    (p.addDef lets d₁ >>= fun p₁ => p₁.addDef lets d₂) = .ok q ↔
      ∃ r₁ r₂, p.Gives lets d₁ r₁ ∧ p.Gives lets d₂ r₂ ∧ p.defName d₁ ≠ p.defName d₂ ∧
        q = (p.withDef d₁ r₁).withDef d₂ r₂ := by
  rw [bind_eq_ok]
  constructor
  · rintro ⟨p₁, h₁, h₂⟩
    obtain ⟨r₁, hr₁, rfl⟩ := addDef_eq_ok_iff.1 h₁
    obtain ⟨r₂, hr₂, rfl⟩ := addDef_eq_ok_iff.1 h₂
    obtain ⟨hr₂, hnames⟩ := (gives_withDef_iff hp hlets hr₁ hne (hr₁.name.symm ▸ huse)).1 hr₂
    exact ⟨r₁, r₂, hr₁, hr₂, hr₁.name ▸ hnames, rfl⟩
  · rintro ⟨r₁, r₂, hr₁, hr₂, hnames, rfl⟩
    refine ⟨_, addDef_eq_ok_iff.2 ⟨r₁, hr₁, rfl⟩, addDef_eq_ok_iff.2 ⟨r₂, ?_, rfl⟩⟩
    exact (gives_withDef_iff hp hlets hr₁ hne (hr₁.name.symm ▸ huse)).2 ⟨hr₂, hr₁.name.symm ▸ hnames⟩

end Progress

/-- Two databases with the same two defs behind those of `db`, in the other order. -/
def Database.Exchanged (db db₁ db₂ : Database) (name₁ name₂ : String) : Prop :=
  ∃ r₁ r₂, r₁.name = name₁ ∧ r₂.name = name₂ ∧ db₁.classes = db.classes ∧ db₂.classes = db.classes ∧
    db₁.defs.records = db.defs.records ++ [r₁, r₂] ∧ db₂.defs.records = db.defs.records ++ [r₂, r₁]

namespace Progress
variable {p q : Progress} {lets : List Override} {d d₁ d₂ : DefSyntax} {r r₁ r₂ : Record}

theorem records_withDefs (h₁ : p.Gives lets d₁ r₁) (h₂ : p.Gives lets d₂ r₂)
    (hnames : p.defName d₁ ≠ p.defName d₂) :
    ((p.withDef d₁ r₁).withDef d₂ r₂).db.defs.records = p.db.defs.records ++ [r₁, r₂] := by
  have hsecond : (p.db.defs.keep r₁).table.get? r₂.name = none := by
    have hnew := RecordTable.get?_eq_none.1 h₂.new
    rw [h₂.name] at hnew ⊢
    rw [RecordTable.get?_eq_none, RecordTable.names, RecordTable.records_keep h₁.new, List.map_append,
      List.mem_append, not_or]
    exact ⟨hnew, fun h => hnames (h₁.name ▸ List.mem_singleton.1 h).symm⟩
  unfold withDef
  rw [RecordTable.records_keep hsecond, RecordTable.records_keep h₁.new, List.append_assoc]
  rfl

/-- In either order both defs are added, with the same records, or it fails. -/
theorem exchange_together (hp : p.Placed)
    (hlets : ∀ o ∈ lets, o.value.Written (Ty.Declared p.declared)) (h : p.Independent lets d₁ d₂) :
    Together (fun q q' => p.db.Exchanged q.db q'.db (p.defName d₁) (p.defName d₂))
      (p.addDef lets d₁ >>= fun p₁ => p₁.addDef lets d₂)
      (p.addDef lets d₂ >>= fun p₂ => p₂.addDef lets d₁) := by
  refine .of_ok (fun q hq => ?_) fun q hq => ?_
  · obtain ⟨r₁, r₂, h₁, h₂, hnames, rfl⟩ := (addDefs_eq_ok_iff hp hlets h.names.symm h.right).1 hq
    have hother := (addDefs_eq_ok_iff hp hlets h.names h.left).2 ⟨r₂, r₁, h₂, h₁, hnames.symm, rfl⟩
    exact ⟨_, hother, r₁, r₂, h₁.name, h₂.name, rfl, rfl, records_withDefs h₁ h₂ hnames,
      records_withDefs h₂ h₁ hnames.symm⟩
  · obtain ⟨r₂, r₁, h₂, h₁, hnames, rfl⟩ := (addDefs_eq_ok_iff hp hlets h.names h.left).1 hq
    exact ⟨_, (addDefs_eq_ok_iff hp hlets h.names.symm h.right).2 ⟨r₁, r₂, h₁, h₂, hnames.symm, rfl⟩⟩

end Progress

/-! ### Descriptions with adjacent defs exchanged -/

/-- The defs are the same but for places; their order is another. -/
def DefSyntax.Swapped (d₁ d₂ d₁' d₂' : DefSyntax) : Prop := d₁.Similar d₁' ∧ d₂.Similar d₂'

/-- It is these two defs that are in the other order, and no others. -/
def DefSyntax.SwapsOnly (e₁ e₂ d₁ d₂ d₁' d₂' : DefSyntax) : Prop :=
  d₁ = e₁ ∧ d₂ = e₂ ∧ d₁.Swapped d₂ d₁' d₂'

namespace Statement

/-- The statements with two adjacent defs exchanged. The position counts the statements before them, in
turn in each scope that they stand in. -/
def exchangeAt : List Nat → List Statement → List Statement
  | [], ss => ss
  | n :: position, ss => ss.take n ++
    match position, ss.drop n with
    | [], .defDecl d₁ :: .defDecl d₂ :: rest => .defDecl d₂ :: .defDecl d₁ :: rest
    | position, .scope ls body :: rest => .scope ls (exchangeAt position body) :: rest
    | _, rest => rest

/-- The two adjacent defs at a position. -/
def pairAt? : List Nat → List Statement → Option (DefSyntax × DefSyntax)
  | [], _ => none
  | n :: position, ss =>
    match position, ss.drop n with
    | [], .defDecl d₁ :: .defDecl d₂ :: _ => some (d₁, d₂)
    | position, .scope _ body :: _ => pairAt? position body
    | _, _ => none

/-- Any two adjacent defs can be exchanged, and nothing else with them. -/
theorem related_exchangeAt {position : List Nat} {ss : List Statement} {d₁ d₂ : DefSyntax}
    (h : pairAt? position ss = some (d₁, d₂)) :
    Related ClassSyntax.Similar (DefSyntax.SwapsOnly d₁ d₂) ss (exchangeAt position ss) := by
  have hself : ∀ ss, Related ClassSyntax.Similar (DefSyntax.SwapsOnly d₁ d₂) ss ss :=
    related_self ClassSyntax.similar_self
  induction position generalizing ss with
  | nil => cases h
  | cons n position ih =>
    unfold pairAt? at h
    unfold exchangeAt
    have hsplit := List.take_append_drop n ss
    generalize ss.take n = first, ss.drop n = later at hsplit h
    obtain rfl := hsplit
    refine (hself first).append ?_
    split at h
    · obtain ⟨rfl, rfl⟩ := Prod.mk.inj (Option.some.inj h)
      exact .exchange ⟨rfl, rfl, DefSyntax.similar_self _, DefSyntax.similar_self _⟩ (hself _)
    · exact .scope (List.forall₂_same.2 fun l _ => l.similar_self fun _ => rfl) (ih h) (hself _)
    · cases h

end Statement

namespace Moment

/-- The two defs come next, under the lets. -/
def Meets (m : Moment) (lets : List Override) (d₁ d₂ : DefSyntax) : Prop :=
  ∃ file rest frames, m.frames = ⟨file, lets, .defDecl d₁ :: .defDecl d₂ :: rest⟩ :: frames

/-- After the same declarations two defs come next that `E` has in the other order in the other run. If
they are independent, they are added in either order, with the same records, or they fail in either. -/
def Exchanges (E : DefSyntax → DefSyntax → DefSyntax → DefSyntax → Prop) (m m' : Moment) : Prop :=
  ∃ lets d₁ d₂ lets' d₁' d₂', m.Meets lets d₁ d₂ ∧ m'.Meets lets' d₂' d₁' ∧ E d₁ d₂ d₁' d₂' ∧
    m.progress.db = m'.progress.db ∧
    (m.progress.Independent lets d₁ d₂ → ∀ enter,
      Together (fun q q' => m.progress.db.Exchanged q.db q'.db (m.progress.defName d₁)
          (m.progress.defName d₂))
        (m.progress.runAll enter lets [.defDecl d₁, .defDecl d₂])
        (m'.progress.runAll enter lets' [.defDecl d₂', .defDecl d₁']))

variable {E : DefSyntax → DefSyntax → DefSyntax → DefSyntax → Prop}

theorem Related.exchanges (hE : ∀ d₁ d₂ d₁' d₂', E d₁ d₂ d₁' d₂' → d₁.Swapped d₂ d₁' d₂')
    {m m' : Moment} (h : m.Related ClassSyntax.Similar E m') (hcross : m.Crossing E m')
    (hm : m.Satisfies Progress.Placed fun p o => o.value.Written (Ty.Declared p.declared)) :
    m.Exchanges E m' := by
  cases hcross with
  | @mk p p' file file' lets lets' d₁ d₂ d₁' d₂' rest rest' frames frames' hd =>
    obtain ⟨hd₁, hd₂⟩ := hE _ _ _ _ hd
    refine ⟨lets, d₁, d₂, lets', d₁', d₂', ⟨_, _, _, rfl⟩, ⟨_, _, _, rfl⟩, hd, h.progress.db,
      fun hindependent enter => ?_⟩
    have hp : p.Similar p' := h.progress
    have hlets : SimilarLets lets lets' := (List.forall₂_cons.1 h.frames).1.lets
    have hwritten := hm.lets _ (List.mem_cons_self ..)
    have hother : Together Progress.Similar (p.addDef lets d₂ >>= fun p₂ => p₂.addDef lets d₁)
        (p'.addDef lets' d₂' >>= fun p₂ => p₂.addDef lets' d₁') :=
      (hp.addDef_together hlets hd₂).bind fun q q' hq => hq.addDef_together hlets hd₁
    have hboth := (Progress.exchange_together hm.progress hwritten hindependent).trans hother
      fun q q' q'' h hsimilar => hsimilar.db ▸ h
    rw [Progress.runAll_defs, Progress.runAll_defs]
    exact hboth

end Moment

namespace SearchPath

/-- Two descriptions that are the same but for adjacent defs in the other order run in step up to the first
moment at which such defs come next, or to the end. There, if they are independent, running both has a
result in either order or in neither, and the databases that result are the same but for the order of the
two defs. Which defs these are says `E`: with `DefSyntax.SwapsOnly` they are two given ones, wherever they
stand. -/
theorem start_exchanged {E : DefSyntax → DefSyntax → DefSyntax → DefSyntax → Prop}
    (hE : ∀ d₁ d₂ d₁' d₂', E d₁ d₂ d₁' d₂' → d₁.Swapped d₂ d₁' d₂') {s s' : SearchPath}
    (hs : s.Related ClassSyntax.Similar E s') {statements statements' : List Statement}
    (h : Statement.Related ClassSyntax.Similar E statements statements') :
    Moment.InStep s s' (Moment.Crossing E) (Moment.Exchanges E) (.start statements) (.start statements') :=
  (start_inStep (fun _ _ => id) hs h).imp fun _ _ hn hcross hrelated =>
    hrelated.exchanges hE hcross (Progress.placed_invariant.reaches hn)

/-- A file with a class that names a def in a default and in its body. -/
def swapping : SearchPath where
  tree := (FileTree.emptyAt []).insert "b.td"
    "let v = 2 in class B<dag d = (Z)> : A \x7b dag e = d; dag f = (Z v); \x7d".toUTF8
  dirs := [""]

def swappingText : String :=
  "def Z; class A \x7b int v = 1; \x7d include \"b.td\" def X : B<(Z 1)> \x7b int w = v; \x7d def : B;"

theorem swapping_exchanged :
    ∃ statements d₁ d₂ p, readStatements "main" swappingText = .ok statements ∧
      Statement.pairAt? [3] statements = some (d₁, d₂) ∧
      Progress.start.runAll (swapping.enter 1 []) [] (statements.take 3) = .ok p ∧
      p.Independent [] d₁ d₂ ∧
      Moment.InStep swapping swapping (Moment.Crossing (d₁.SwapsOnly d₂)) (Moment.Exchanges (d₁.SwapsOnly d₂))
        (.start statements) (.start (Statement.exchangeAt [3] statements)) ∧
      (swapping.process statements).toOption.map (fun db => db.defs.names) =
        some ["Z", "X", "anonymous_0"] ∧
      (swapping.process (Statement.exchangeAt [3] statements)).toOption.map (fun db => db.defs.names) =
        some ["Z", "anonymous_0", "X"] := by
  have hrun : ((readStatements "main" swappingText).toOption.bind fun statements =>
      (Statement.pairAt? [3] statements).bind fun (d₁, d₂) =>
        (Progress.start.runAll (swapping.enter 1 []) [] (statements.take 3)).toOption.map fun p =>
          (d₁.name ≠ d₂.name && p.spares [] d₁ (p.defName d₂) && p.spares [] d₂ (p.defName d₁),
            (swapping.process statements).toOption.map fun db => db.defs.names,
            (swapping.process (Statement.exchangeAt [3] statements)).toOption.map
              fun db => db.defs.names)) =
      some (true, some ["Z", "X", "anonymous_0"], some ["Z", "anonymous_0", "X"]) := by
    decide +kernel
  obtain ⟨statements, hread, hrun⟩ := Option.bind_eq_some_iff.1 hrun
  obtain ⟨⟨d₁, d₂⟩, hpair, hrun⟩ := Option.bind_eq_some_iff.1 hrun
  obtain ⟨p, hp, hrun⟩ := Option.map_eq_some_iff.1 hrun
  simp only [Prod.mk.injEq, Bool.and_eq_true, decide_eq_true_eq] at hrun
  obtain ⟨⟨⟨hnames, hleft⟩, hright⟩, hfirst, hsecond⟩ := hrun
  have hself : swapping.Related ClassSyntax.Similar (d₁.SwapsOnly d₂) swapping :=
    swapping.related_self ClassSyntax.similar_self
  exact ⟨statements, d₁, d₂, p, ok_of_toOption hread, hpair, ok_of_toOption hp,
    ⟨hnames, Progress.not_uses_of_spares hleft, Progress.not_uses_of_spares hright⟩,
    start_exchanged (fun _ _ _ _ h => h.2.2) hself (Statement.related_exchangeAt hpair), hfirst, hsecond⟩

end SearchPath
end TypedRecords
