import TypedRecords.Proofs.Include.Moments
import TypedRecords.Proofs.Value.Projection

/-!
# The element type of a list of defs

A list that declares no element type and is expected to have none takes it from its elements. Where
these are defs it is a class that all of them derive from, the last one among the superclasses of the
first def. No other class that they share derives from it, since a class stands behind those that it
derives from itself (`Moment.list_of_defs_typed`).
-/

namespace TypedRecords

/-! ### Shared classes -/

/-- All the records derive from the class. -/
def Record.Share (rs : List Record) (name : String) : Prop := ∀ r ∈ rs, name ∈ r.superclasses

/-- The records share the class, and no class that they share derives from it. -/
structure Record.MostDerived (classes : RecordTable) (rs : List Record) (name : String) : Prop where
  shared : Record.Share rs name
  declared : (classes.get? name).isSome
  minimal : ∀ other, Record.Share rs other →
    ∃ c, classes.get? other = some c ∧ name ∉ c.superclasses

/-- A superclass that does not stand behind another one does not derive from it. -/
theorem Record.Closed.not_derives {classes : RecordTable} {r : Record} (h : r.Closed classes)
    (hclasses : ∀ c ∈ classes.records, c.Closed classes) {before after : List String}
    {name other : String} (heq : r.superclasses = before ++ name :: after)
    (hother : other ∈ r.superclasses) (hnot : other ∉ after) :
    ∃ c, classes.get? other = some c ∧ name ∉ c.superclasses := by
  obtain ⟨front, back, hsplit⟩ := List.append_of_mem hother
  obtain ⟨c, hc, hfront⟩ := h.superclasses_before hclasses hsplit
  refine ⟨c, hc, fun hmem => hnot ?_⟩
  obtain ⟨front₁, front₂, rfl⟩ := List.append_of_mem (hfront name hmem)
  have hnodup := h.nodup
  rw [heq, List.nodup_middle, List.nodup_cons, List.mem_append, not_or] at hnodup
  have hsame : before ++ name :: after = front₁ ++ name :: (front₂ ++ other :: back) := by
    rw [← heq, hsplit, List.append_assoc, List.cons_append]
  obtain ⟨-, -, rfl⟩ := (List.append_cons_inj_of_notMem hnodup.1.1 hnodup.1.2).1 hsame
  exact List.mem_append_right _ (List.mem_cons_self ..)

section
variable {store : Store} {refs : List RecordRef} {r : Record} {rs : List Record}

theorem referencedRecords_refs (h : List.Forall₂ (fun ref r => ref.get? store = some r) refs rs) :
    referencedRecords store (refs.map .record) = some rs := by
  induction h with
  | nil => rfl
  | cons href _ ih =>
    simp only [List.map_cons, referencedRecords, href, ih]
    rfl

/-- The type that references take together is the last shared class of the first def. -/
theorem commonType_refs
    (h : List.Forall₂ (fun ref r => ref.get? store = some r) refs (r :: rs)) :
    (commonType store (refs.map .record) = some .anyRecord ∧
      ∀ name, ¬Record.Share (r :: rs) name) ∨
    ∃ before name after, commonType store (refs.map .record) = some (.record name) ∧
      r.superclasses = before ++ name :: after ∧ Record.Share (r :: rs) name ∧
      ∀ other ∈ after, ¬Record.Share (r :: rs) other := by
  have hshare : ∀ name, ((r :: rs).all (·.isSubclassOf name)) = true ↔
      Record.Share (r :: rs) name := fun name => by
    simp only [List.all_eq_true, Record.isSubclassOf, List.contains_iff_mem, Record.Share]
  have hrecords := referencedRecords_refs h
  obtain ⟨ref, refs, href, hrefs, rfl⟩ := List.forall₂_cons_right_iff.1 h
  rw [List.map_cons] at hrecords ⊢
  simp only [commonType, hrecords]
  cases hfind : r.superclasses.reverse.find? fun name => (r :: rs).all (·.isSubclassOf name) with
  | none =>
    refine .inl ⟨rfl, fun name hname => ?_⟩
    rw [List.find?_eq_none] at hfind
    exact hfind name (List.mem_reverse.2 (hname r (List.mem_cons_self ..))) ((hshare name).2 hname)
  | some name =>
    obtain ⟨hname, after, before, heq, hafter⟩ := List.find?_eq_some_iff_append.1 hfind
    refine .inr ⟨before.reverse, name, after.reverse, rfl, ?_, (hshare name).1 hname,
      fun other hother hshared => ?_⟩
    · rw [← List.reverse_reverse r.superclasses, heq]
      simp
    · have hnot := hafter other (List.mem_reverse.1 hother)
      rw [(hshare other).2 hshared] at hnot
      cases hnot

end

/-- In a closed database the type that defs take together is a most derived class that they share, and
it is no class in particular only where they share none. -/
theorem Database.Closed.commonType_refs {db : Database} (hdb : db.Closed) {refs : List RecordRef}
    {rs : List Record} (hne : refs ≠ [])
    (hrefs : List.Forall₂ (fun ref r => ref.get? db.store = some r) refs rs) :
    (commonType db.store (refs.map .record) = some .anyRecord ∧ ∀ name, ¬Record.Share rs name) ∨
    ∃ name, commonType db.store (refs.map .record) = some (.record name) ∧
      Record.MostDerived db.classes rs name := by
  cases hrefs with
  | nil => exact absurd rfl hne
  | @cons ref r refs rs href hrefs =>
    refine (TypedRecords.commonType_refs (.cons href hrefs)).imp id ?_
    rintro ⟨before, name, after, hcommon, heq, hshared, hafter⟩
    have hr : r.Closed db.classes := hdb .defs r (List.mem_of_getElem? href)
    exact ⟨name, hcommon, hshared, hr.get?_of_mem (heq ▸ by simp), fun other hother =>
      hr.not_derives (hdb .classes) heq (hother r (List.mem_cons_self ..))
        fun hbehind => hafter other hbehind hother⟩

/-! ### Lists -/

theorem convertElements_self {store : Store} {element : Ty} {place : Location} {vs : List Value}
    (h : ∀ v ∈ vs, element.Admits store v) : convertElements store element place vs = .ok vs := by
  induction vs with
  | nil => rfl
  | cons v vs ih =>
    obtain ⟨hv, hvs⟩ := List.forall_mem_cons.1 h
    rw [convertElements, hv.convert, ih hvs]
    rfl

/-- The elements evaluate to the values, one after the other. -/
inductive Scope.Elements {σ : Type} (s : Scope σ) (declared : Option Ty) :
    List Expr → σ → List Value → σ → Prop
  | nil (st : σ) : Elements s declared [] st [] st
  | cons {e : Expr} {es : List Expr} {v : Value} {vs : List Value} {st st₁ st' : σ}
      (he : (evaluate s e declared).run st = .ok (some v, st₁))
      (hes : Elements s declared es st₁ vs st') : Elements s declared (e :: es) st (v :: vs) st'

theorem Scope.Elements.evaluateItems {σ : Type} {s : Scope σ} {declared : Option Ty}
    {es : List Expr} {st st' : σ} {vs : List Value} (h : s.Elements declared es st vs st')
    (place : Location) : (evaluateItems s place declared es).run st = .ok (vs, st') := by
  induction h with
  | nil => rfl
  | cons he _ ih =>
    rw [TypedRecords.evaluateItems]
    exact run_bind_eq_ok.2 ⟨_, _, he, run_bind_eq_ok.2 ⟨_, _, ih, rfl⟩⟩

namespace Moment

/-- At every moment of a run, an untyped list of defs has a value, which holds the defs in the order in
which they are written. Its element type is a class that they share and that no class that they share
derives from, or no class in particular, which is so exactly where they share none. -/
theorem list_of_defs_typed {search : SearchPath} {statements : List Statement} {m : Moment}
    (hm : Relation.ReflTransGen (Step search) (.start statements) m) {σ : Type} (s : Scope σ)
    (hs : s.db = m.progress.db) {items : List Expr} (hitems : items ≠ []) (place : Location)
    {expected : Option Ty} (hexpected : expected.bind Ty.element? = none) {st st' : σ}
    {refs : List RecordRef} {rs : List Record}
    (helements : s.Elements none items st (refs.map .record) st')
    (hrefs : List.Forall₂ (fun ref r => ref.get? m.progress.db.store = some r) refs rs) :
    ∃ element,
      (evaluate s (.list items none place) expected).run st =
        .ok (some (.list element (refs.map .record)), st') ∧
      (element = .anyRecord ↔ ∀ name, ¬Record.Share rs name) ∧
      (element ≠ .anyRecord → ∃ name, element = .record name ∧
        Record.MostDerived m.progress.db.classes rs name) := by
  have hclosed : m.progress.db.Closed := (Progress.classified_invariant.reaches hm).progress.closed
  have hne : refs ≠ [] := by
    rintro rfl
    cases helements
    exact hitems rfl
  have hlist : ∀ element, commonType s.db.store (refs.map .record) = some element →
      (∀ ref ∈ refs, element.Admits s.db.store (.record ref)) →
        (evaluate s (.list items none place) expected).run st =
          .ok (some (.list element (refs.map .record)), st') := by
    intro element helement hadmits
    rw [evaluate]
    simp only [hexpected, Option.or_none]
    refine run_bind_eq_ok.2 ⟨_, _, helements.evaluateItems place, ?_⟩
    rw [makeList, Option.none_or, helement]
    dsimp only
    rw [convertElements_self (List.forall_mem_map.2 hadmits)]
    rfl
  rw [← hs] at hrefs hclosed ⊢
  obtain ⟨hcommon, hnone⟩ | ⟨name, hcommon, hderived⟩ := hclosed.commonType_refs hne hrefs
  · exact ⟨.anyRecord, hlist _ hcommon fun _ _ => trivial, iff_of_true rfl hnone,
      fun h => absurd rfl h⟩
  · refine ⟨.record name, hlist _ hcommon fun ref href => ?_,
      iff_of_false (by simp) fun h => h name hderived.shared, fun _ => ⟨name, rfl, hderived⟩⟩
    obtain ⟨i, hi, rfl⟩ := List.getElem_of_mem href
    have hi' : i < rs.length := hrefs.length_eq ▸ hi
    exact ⟨rs[i], hrefs.get hi hi', .inr (hderived.shared _ (List.getElem_mem hi'))⟩

/-- Two defs that derive from the same classes in different orders, and one that derives from none. -/
def cousins : String :=
  "class Base; class Left : Base; class Right : Base; def a : Left, Right; def b : Right, Left; def c;"

theorem cousins_typed :
    ∃ statements m, readStatements "cousins" cousins = .ok statements ∧
      Relation.ReflTransGen (Step ⟨.emptyAt [], []⟩) (.start statements) m ∧
      ∃ (r r' : Record) (name : String), r.superclasses = ["Base", "Left", "Right"] ∧
        r'.superclasses = ["Base", "Right", "Left"] ∧
        evaluateClosed m.progress.db
            (.list [.reference "a" (.start ""), .reference "b" (.start "")] none (.start "")) none =
          .ok (some (.list (.record name) [.record ⟨"a", 0⟩, .record ⟨"b", 1⟩])) ∧
        Record.MostDerived m.progress.db.classes [r, r'] name ∧
        evaluateClosed m.progress.db
            (.list [.reference "a" (.start ""), .reference "c" (.start "")] none (.start "")) none =
          .ok (some (.list .anyRecord [.record ⟨"a", 0⟩, .record ⟨"c", 2⟩])) := by
  have hrun : ((SearchPath.run ⟨.emptyAt [], []⟩ "cousins" cousins).toOption.map fun db =>
      (["a", "b", "c"].map db.ref?, db.defs.records.map Record.superclasses)) =
        some ([some ⟨"a", 0⟩, some ⟨"b", 1⟩, some ⟨"c", 2⟩],
          [["Base", "Left", "Right"], ["Base", "Right", "Left"], []]) := by
    decide +kernel
  obtain ⟨db, h, hnames⟩ := ok_of_toOption_map hrun
  obtain ⟨statements, m, hread, hm, rfl⟩ := SearchPath.exists_moment h
  obtain ⟨hrefs, hrecords⟩ := Prod.mk.inj hnames
  obtain ⟨ha, hb, hc⟩ : m.progress.db.ref? "a" = some ⟨"a", 0⟩ ∧
      m.progress.db.ref? "b" = some ⟨"b", 1⟩ ∧ m.progress.db.ref? "c" = some ⟨"c", 2⟩ := by
    simpa using hrefs
  obtain ⟨r, r', r'', hdefs⟩ : ∃ r r' r'', m.progress.db.defs.records = [r, r', r''] := by
    have hlength := congrArg List.length hrecords
    rw [List.length_map] at hlength
    exact List.length_eq_three.1 hlength
  rw [hdefs] at hrecords
  obtain ⟨hr, hr', hr''⟩ : r.superclasses = ["Base", "Left", "Right"] ∧
      r'.superclasses = ["Base", "Right", "Left"] ∧ r''.superclasses = [] := by
    simpa using hrecords
  have helement : ∀ {name : String} {ref : RecordRef}, m.progress.db.ref? name = some ref →
      (evaluate (Scope.closed m.progress.db) (.reference name (.start "")) none).run () =
        .ok (some (.record ref), ()) := by
    intro name ref href
    simp only [evaluate, Scope.lookup, Scope.closed, href]
    rfl
  have helements : ∀ {x y : RecordRef}, m.progress.db.ref? x.name = some x →
      m.progress.db.ref? y.name = some y →
      (Scope.closed m.progress.db).Elements none
        [.reference x.name (.start ""), .reference y.name (.start "")] () ([x, y].map .record) () :=
    fun hx hy => .cons (helement hx) (.cons (helement hy) (.nil ()))
  have hitem : ∀ {i : Nat} {name : String} {q : Record}, [r, r', r''][i]? = some q →
      RecordRef.get? ⟨name, i⟩ m.progress.db.store = some q := fun hq => by
    rw [← hdefs] at hq
    exact hq
  obtain ⟨type, hlist, hany, hclass⟩ := list_of_defs_typed hm _ rfl (List.cons_ne_nil _ _)
    (.start "") (rfl : (none : Option Ty).bind Ty.element? = none) (helements ha hb)
    (.cons (hitem rfl) (.cons (hitem rfl) .nil))
  obtain ⟨name, rfl, hderived⟩ := hclass fun h => hany.1 h "Base" (by simp [Record.Share, hr, hr'])
  obtain ⟨type', hlist', hany', -⟩ := list_of_defs_typed hm _ rfl (List.cons_ne_nil _ _)
    (.start "") (rfl : (none : Option Ty).bind Ty.element? = none) (helements ha hc)
    (.cons (hitem rfl) (.cons (hitem rfl) .nil))
  obtain rfl := hany'.2 (by simp [Record.Share, hr''])
  refine ⟨statements, m, hread, hm, r, r', name, hr, hr', ?_, hderived, ?_⟩
  · rw [evaluateClosed, StateT.run'_eq, hlist]
    rfl
  · rw [evaluateClosed, StateT.run'_eq, hlist']
    rfl

end Moment
end TypedRecords
