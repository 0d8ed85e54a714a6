import TypedRecords.Proofs.Eval.BitInitializer
import TypedRecords.Proofs.Eval.Environment
import TypedRecords.Proofs.Include.Moments
import TypedRecords.Proofs.Inherit.SpelledOut
import TypedRecords.Proofs.Superclass.Shape
import TypedRecords.Proofs.Unset.Finish

/-!
# The width of a bit initializer

How many bits an initializer has can be told before it is evaluated: an operand that is a name has the
width of its declared type, whether it is set or not, and any other operand one bit. So an initializer
of a class has one width in the record of the class and in every record that derives from the class
(`Expr.bits_joined`).
-/

namespace TypedRecords

/-! ### Declared types -/

/-- The bits that an operand other than an initializer stands for, where names have the types. -/
def Expr.declaredWidth (types : String → Option Ty) : Expr → Nat
  | reference name _ => (types name).elim 1 Ty.bitWidth
  | bound _ type => type.bitWidth
  | _ => 1

def Expr.totalWidth (types : String → Option Ty) : List Expr → Nat
  | [] => 0
  | e :: es => e.declaredWidth types + totalWidth types es

/-- The bits of an initializer with the operands, where names have the types. -/
def Expr.bitsWidth (types : String → Option Ty) (items : List Expr) : Nat :=
  totalWidth types (operandsAll items)

theorem Expr.totalWidth_append (types : String → Option Ty) (es es' : List Expr) :
    totalWidth types (es ++ es') = totalWidth types es + totalWidth types es' := by
  induction es with
  | nil => exact (Nat.zero_add _).symm
  | cons e es ih => rw [List.cons_append, totalWidth, totalWidth, ih, Nat.add_assoc]

theorem Expr.totalWidth_congr {types types' : String → Option Ty} {es : List Expr}
    (h : ∀ e ∈ es, e.declaredWidth types = e.declaredWidth types') :
    totalWidth types es = totalWidth types' es := by
  induction es with
  | nil => rfl
  | cons e es ih =>
    obtain ⟨he, hes⟩ := List.forall_mem_cons.1 h
    rw [totalWidth, totalWidth, he, ih hes]

/-- The types that names have where the parameters are in scope and hide what else they may name. -/
def typesUnder (ps : List Param) (types : String → Option Ty) (name : String) : Option Ty :=
  ((ps.find? fun p => p.name = name).map Param.type).or (types name)

def Draft.types (d : Draft) (name : String) : Option Ty := (d.field? name).map DraftField.type

theorem Draft.types_eq_some {d : Draft} {name : String} {type : Ty} :
    d.types name = some type ↔ (name, type) ∈ d.shape := by
  rw [types, Option.map_eq_some_iff]
  constructor
  · rintro ⟨f, hf, rfl⟩
    obtain ⟨hmem, rfl⟩ := mem_of_field? hf
    exact List.mem_map_of_mem hmem
  · intro h
    obtain ⟨f, hf, heq⟩ := List.mem_map.1 h
    obtain ⟨rfl, rfl⟩ := Prod.mk.inj heq
    exact ⟨f, field?_of_mem hf, rfl⟩

/-- The operands stand for so many bits, and those that are names have types. -/
structure Measured (types : String → Option Ty) (es : List Expr) (length : Nat) : Prop where
  length_eq : length = Expr.totalWidth types es
  named : ∀ name place, .reference name place ∈ es → (types name).isSome

namespace Measured
variable {types types' : String → Option Ty} {es es' : List Expr} {k k' : Nat}

theorem append (h : Measured types es k) (h' : Measured types es' k') :
    Measured types (es ++ es') (k + k') where
  length_eq := by rw [h.length_eq, h'.length_eq, Expr.totalWidth_append]
  named name place hmem := (List.mem_append.1 hmem).elim (h.named name place) (h'.named name place)

/-- Operands whose names have the same types stand for the same number of bits. -/
theorem eq_of_types (h : Measured types es k) (h' : Measured types' es k')
    (htypes : ∀ name type, types name = some type → types' name = some type) : k = k' := by
  rw [h.length_eq, h'.length_eq]
  refine Expr.totalWidth_congr fun e he => ?_
  cases e with
  | reference name place =>
    obtain ⟨type, htype⟩ := Option.isSome_iff_exists.1 (h.named name place he)
    rw [Expr.declaredWidth, Expr.declaredWidth, htype, htypes name type htype]
  | _ => rfl

end Measured

/-! ### Evaluation -/

namespace Scope

def types {σ : Type} (s : Scope σ) (name : String) : Option Ty := (s.field name).map Prod.fst

/-- What the fields are read as is of their types. -/
def Fits (s : Scope Unit) : Prop :=
  ∀ name type read, s.field name = some (type, read) → Ensures read fun v => ∀ a ∈ v, a.Fits type

variable {s : Scope Unit}

theorem Fits.under (hs : s.Fits) {bs : Bindings} (hbs : ∀ b ∈ bs, ∀ v ∈ b.value, v.Fits b.type) :
    (s.under bs).Fits := by
  intro name type read hread
  rw [field_under] at hread
  cases hb : bs.find? name with
  | some b =>
    rw [hb] at hread
    obtain ⟨rfl, rfl⟩ := Prod.mk.inj (Option.some.inj hread)
    exact .pure (hbs b (List.mem_of_find?_eq_some hb))
  | none =>
    rw [hb] at hread
    exact hs name type read hread

theorem closed_fits (db : Database) : (closed db).Fits := nofun

end Scope

section
variable {s : Scope Unit} {T : Ty → Prop}

/-- An operand other than an initializer has as many bits as its declared type says, be it set or not. -/
theorem operandWidth_declared (hs : s.Fits) {e : Expr} (he : e.Written T)
    (hne : ∀ items p, e ≠ .bits items p) :
    Ensures (evaluate s e none) fun v => s.operandWidth e v = e.declaredWidth s.types := by
  cases he with
  | unset | int | string | code =>
    rw [evaluate]
    exact .pure rfl
  | @bits items p h => exact absurd rfl (hne items p)
  | list ht h =>
    rw [evaluate]
    refine (Ensures.any _).bind fun values _ => ?_
    refine (Ensures.lift (Q := fun v => v.bitWidth = 1) fun v hv => ?_).bind fun v hv => .pure hv
    obtain ⟨element, ws, -, -, rfl⟩ := makeList_eq_ok hv
    rfl
  | @dag operator args p ho h =>
    have rest : ∀ op, Ensures (do return some (Value.dag op (← evaluateArgs s args)))
        fun v => s.operandWidth (.dag operator args p) v = 1 :=
      fun op => (Ensures.any _).bind fun _ _ => .pure rfl
    rw [evaluate]
    dsimp only
    split
    · exact rest _
    · exact (Ensures.any _).bind fun v _ => (Ensures.any _).bind fun op _ => rest op
  | bang h =>
    rw [evaluate]
    refine (Ensures.any _).bind fun values _ => ?_
    cases values with
    | none => exact .pure rfl
    | some vs =>
      exact (Ensures.lift fun v hv => Bang.bitWidth_apply hv).bind fun v hv => .pure hv
  | reference name place =>
    rw [evaluate, Scope.lookup, Expr.declaredWidth, Scope.types]
    cases hf : s.field name with
    | some field =>
      have htype : s.operandType? (.reference name place) = some field.1 := by
        rw [Scope.operandType?, hf]
        rfl
      intro st v st' hv
      cases v with
      | none => exact s.unsetWidth_of_type htype
      | some v => exact (hs name field.1 field.2 hf st _ st' hv v rfl).bitWidth
    | none =>
      cases s.db.ref? name with
      | some ref => exact .pure rfl
      | none => exact .throw
  | @bound value type h =>
    rw [evaluate]
    refine .pure ?_
    cases value with
    | none => exact s.unsetWidth_of_type rfl
    | some v => exact (h v rfl).elim

/-- A name that stands for bits is that of a field: a def does not stand for bits. -/
theorem operandRow_named (name : String) (p place : Location) :
    Ensures (operandRow s place (.reference name p)) fun _ => (s.types name).isSome := by
  rw [operandRow, evaluate, Scope.lookup, Scope.types]
  cases s.field name with
  | some field => exact (Ensures.any _).bind fun v _ => .lift fun _ _ => rfl
  | none =>
    cases s.db.ref? name with
    | some ref =>
      refine (Ensures.pure (Q := fun v => v = some (.record ref)) rfl).bind fun v hv => ?_
      subst hv
      exact .throw
    | none => exact (Ensures.throw (Q := fun _ => False)).bind fun _ h => h.elim

theorem operandRow_single (hs : s.Fits) (place : Location) {e : Expr} (he : e.Written T)
    (hne : ∀ items p, e ≠ .bits items p) (hsingle : e.operands = [e]) :
    Ensures (operandRow s place e) fun row => Measured s.types e.operands row.length := by
  have hlength : Ensures (operandRow s place e) fun row => row.length = e.declaredWidth s.types :=
    (operandWidth_declared hs he hne).bind fun v hv => .lift fun row hrow =>
      (Scope.length_operandBits hrow).trans hv
  intro st row st' h
  rw [hsingle]
  refine ⟨?_, fun name p hmem => ?_⟩
  · exact hlength st row st' h
  · obtain rfl := List.mem_singleton.1 hmem
    exact operandRow_named name p place st row st' h

mutual

theorem operandRow_measured (hs : s.Fits) (place : Location) :
    ∀ e : Expr, e.Written T →
      Ensures (operandRow s place e) fun row => Measured s.types e.operands row.length
  | .bits items p, he => by
    cases he with
    | bits h =>
      rw [operandRow_bits, Expr.operands]
      exact evaluateBits_measured hs p items h
  | .unset, he | .int _, he | .string _, he | .code _, he | .list .., he | .dag .., he | .bang .., he
  | .reference .., he | .bound .., he => operandRow_single hs place he nofun rfl

theorem evaluateBits_measured (hs : s.Fits) (place : Location) :
    ∀ es : List Expr, (∀ e ∈ es, e.Written T) →
      Ensures (evaluateBits s place es) fun bits => Measured s.types (Expr.operandsAll es) bits.length
  | [], _ => by
    rw [evaluateBits]
    exact .pure ⟨rfl, fun _ _ => nofun⟩
  | e :: es, hes => by
    obtain ⟨he, hes⟩ := List.forall_mem_cons.1 hes
    rw [evaluateBits_cons, Expr.operandsAll]
    refine (operandRow_measured hs place e he).bind fun row hrow => ?_
    refine (evaluateBits_measured hs place es hes).bind fun bits hbits => .pure ?_
    rw [List.length_append]
    exact hrow.append hbits

end

theorem evaluate_bits_measured (hs : s.Fits) {items : List Expr} {place : Location}
    (he : Expr.Written T (.bits items place)) {expected : Option Ty} {st st' : Unit} {v : Option Value}
    (h : (evaluate s (.bits items place) expected).run st = .ok (v, st')) :
    ∃ lsbFirst, v = some (.bits lsbFirst) ∧
      Measured s.types (Expr.operandsAll items) lsbFirst.length := by
  cases he with
  | bits he =>
    rw [evaluate] at h
    obtain ⟨msbFirst, st₁, hbits, h⟩ := run_bind_eq_ok.1 h
    obtain ⟨rfl, rfl⟩ := run_pure_eq_ok.1 h
    refine ⟨_, rfl, ?_⟩
    rw [List.length_reverse]
    exact evaluateBits_measured hs place items he st msbFirst _ hbits

end

/-! ### Bindings and records -/

section
variable {db : Database} {className : String} {place : Location} {missing : Missing} {ps : List Param}
  {args : List (Option Value)} {bs : Bindings}

/-- Parameters are bound to values of their types. -/
theorem fits_of_bindParams (h : bindParams db className place missing [] ps args = .ok bs) :
    ∀ b ∈ bs, ∀ v ∈ b.value, v.Fits b.type := by
  obtain ⟨added, rfl, -, htakes, -⟩ := bindParams_spelledOut h
  intro b hb v hv
  have hv : b.value = some v := hv
  have hassign := htakes b hb (.param className b.name) place
  obtain ⟨u, -, hu⟩ := assign_eq_ok (hv ▸ hassign)
  exact Value.fits_of_convert hu

/-- Under bindings of the parameters, names have the types of the parameters. -/
theorem types_under_of_bindParams (h : bindParams db className place missing [] ps args = .ok bs)
    {σ : Type} (s : Scope σ) : (s.under bs).types = typesUnder ps s.types := by
  obtain ⟨added, hadded, htypes, -⟩ := bindParams_spelledOut h
  obtain rfl : bs = added := hadded.trans (List.nil_append added)
  have hall : List.Forall₂ (fun b p => (b.name, b.type) = (p.name, p.type)) bs ps := by
    rw [← List.forall₂_map_left_iff (R := fun x p => x = (Param.name p, Param.type p)),
      ← List.forall₂_map_right_iff (R := Eq), List.forall₂_eq_eq_eq]
    exact htypes
  funext name
  have hfound := find?_of_forall₂ (p := fun b => decide (b.name = name))
    (q := fun p => decide (p.name = name)) hall fun b p hbp => by rw [(Prod.mk.inj hbp).1]
  rw [Scope.types, Scope.field_under, typesUnder, Bindings.find?]
  obtain ⟨hb, hp⟩ | ⟨b, p, hb, hp, hbp⟩ := hfound
  · rw [hb, hp]
    rfl
  · rw [hb, hp, Option.map_some, Option.map_some, ← (Prod.mk.inj hbp).2]
    rfl

end

namespace Draft
variable {d : Draft} {db : Database}

theorem scope_types {σ : Type} (d : Draft) (db : Database)
    (read : DraftField → Eval σ (Option Value)) : (d.scope db read).types = d.types := by
  funext name
  rw [Scope.types, scope, types, Option.map_map]
  rfl

theorem Filled.scope_fits {m : Memo} (hm : d.Filled db m) :
    (d.scope db (readFrom m.table)).Fits := by
  intro name type read hread
  obtain ⟨f, hf, heq⟩ := Option.map_eq_some_iff.1 hread
  obtain ⟨rfl, rfl⟩ := Prod.mk.inj heq
  intro _ v _ hv
  exact (hm.computes (mem_of_field? hf).1 (readFrom_eq_ok.1 hv)).fits

/-- In a record of the draft the expression, written where the parameters are in scope, has the value:
under bindings of the parameters, while the fields on some path are being evaluated. -/
inductive Yields (d : Draft) (db : Database) (ps : List Param) (e : Expr) (v : Option Value) : Prop
  | intro (expected : Option Ty) (depth : Nat) {className : String} {place : Location}
      {missing : Missing} {args : List (Option Value)} {bs : Bindings} {path : List String}
      {m m' : Memo}
      (hbind : bindParams db className place missing [] ps args = .ok bs) (hm : d.Ready db path m)
      (h : (evaluate (d.scope db (d.resolve db depth path)) (e.substitute bs) expected).run m =
        .ok (v, m')) : Yields d db ps e v

theorem Yields.measured {ps : List Param} {items : List Expr} {place : Location} {T : Ty → Prop}
    {v : Option Value} (he : Expr.Written T (.bits items place))
    (h : d.Yields db ps (.bits items place) v) :
    ∃ lsbFirst, v = some (.bits lsbFirst) ∧
      Measured (typesUnder ps d.types) (Expr.operandsAll items) lsbFirst.length := by
  cases h with
  | @intro expected depth _ _ _ _ bs path m m' hbind hm h =>
    -- what the visits answer is what they leave in the memo
    obtain ⟨hm', -, hread⟩ := (visiting d db path m'.table).evaluate
      (scope_scopes _ d rfl fun f hf => visit_sound depth path m'.table hf) _ expected m v m' hm h
    have hv := hread (.refl _)
    rw [evaluate_substitute] at hv
    have hfits := hm'.filled.scope_fits.under (fits_of_bindParams hbind)
    have hmeasured := evaluate_bits_measured hfits he hv
    rwa [types_under_of_bindParams hbind, scope_types] at hmeasured

end Draft

namespace Record
variable {r : Record}

/-- The declared type of the field that a name finds. -/
def types (r : Record) (name : String) : Option Ty := (r.field? name).map Field.type

theorem types_eq_some (h : (r.fields.map Field.name).Nodup) {name : String} {type : Ty} :
    r.types name = some type ↔ (name, type) ∈ r.shape := by
  rw [types, Option.map_eq_some_iff]
  constructor
  · rintro ⟨f, hf, rfl⟩
    obtain ⟨hmem, rfl⟩ := (field?_eq_some h).1 hf
    exact List.mem_map_of_mem hmem
  · intro hmem
    obtain ⟨f, hf, heq⟩ := List.mem_map.1 hmem
    obtain ⟨rfl, rfl⟩ := Prod.mk.inj heq
    exact ⟨f, (field?_eq_some h).2 ⟨hf, rfl⟩, rfl⟩

theorem types_of_finish {d : Draft} {db : Database} {name : String} {anonymous isClass : Bool}
    {direct : List String} (h : Draft.finish d db name anonymous isClass direct = .ok r) :
    r.types = d.types := by
  funext field
  refine Option.ext fun type => ?_
  rw [types_eq_some (Draft.names_of_finish h), Draft.types_eq_some, Draft.shape_of_finish h]

/-- The record was finished from a draft in which the expression, written where the parameters are in
scope, has the value. -/
def Yields (r : Record) (ps : List Param) (e : Expr) (v : Option Value) : Prop :=
  ∃ d db name anonymous isClass direct,
    Draft.finish d db name anonymous isClass direct = .ok r ∧ d.Yields db ps e v

theorem Yields.measured {ps : List Param} {items : List Expr} {place : Location} {T : Ty → Prop}
    {v : Option Value} (he : Expr.Written T (.bits items place))
    (h : r.Yields ps (.bits items place) v) :
    ∃ lsbFirst, v = some (.bits lsbFirst) ∧
      Measured (typesUnder ps r.types) (Expr.operandsAll items) lsbFirst.length := by
  obtain ⟨d, db, name, anonymous, isClass, direct, hr, h⟩ := h
  rw [types_of_finish hr]
  exact h.measured he

end Record

/-- Under parameters that hide the same names, what is left finds the same types. -/
theorem typesUnder_mono {types types' : String → Option Ty}
    (h : ∀ name type, types name = some type → types' name = some type) (ps : List Param)
    (name : String) (type : Ty) (htype : typesUnder ps types name = some type) :
    typesUnder ps types' name = some type := by
  unfold typesUnder at htype ⊢
  cases hp : ps.find? fun p => p.name = name with
  | some p =>
    rw [hp] at htype
    exact htype
  | none =>
    rw [hp] at htype
    exact h name type htype

/-- At every moment of a run, a name that has a type in the record of a class has this type in every
record that derives from the class. -/
theorem Moment.types_inherited {search : SearchPath} {statements : List Statement} {m : Moment}
    (hm : Relation.ReflTransGen (Step search) (.start statements) m) {c r : Record} {side : Side}
    (hc : c ∈ m.progress.db.classes.records) (hr : r ∈ (m.progress.db.table side).records)
    (hmem : c.name ∈ r.superclasses) (ps : List Param) (name : String) (type : Ty)
    (htype : typesUnder ps c.types name = some type) : typesUnder ps r.types name = some type := by
  have hshaped : m.progress.Shaped := (Progress.Shaped.invariant.reaches hm).progress
  have hcmem : c ∈ (m.progress.db.table .classes).records := hc
  obtain ⟨_, _, _, -, hcbuilt⟩ := hshaped.builtFrom hcmem
  obtain ⟨_, _, _, -, hrbuilt⟩ := hshaped.builtFrom hr
  have hget : m.progress.db.classes.get? c.name = some c :=
    RecordTable.get?_of_mem hc
  refine typesUnder_mono (fun name type h => ?_) ps name type htype
  rw [Record.types_eq_some hcbuilt.distinct] at h
  exact (Record.types_eq_some hrbuilt.distinct).2 (hshaped.shape_subset hr hget hmem h)

namespace Expr

/-- An initializer is the concatenation of its operands, most significant bit first, and it makes no
difference whether some of them are put together to an initializer of their own. Its width is told by the
types of the parameters and fields that it names: as an argument or a default, and among the fields of a
draft, where every operand that is a name has a type. So it is one width in the record of a class and in
the records that derive from the class. -/
theorem bits_joined :
    (∀ (σ : Type) (s : Scope σ) (items : List Expr) (place : Location) (expected : Option Ty)
      (st st' : σ) (v : Option Value),
      (evaluate s (.bits items place) expected).run st = .ok (v, st') ↔
        ∃ lsbFirst rows, v = some (.bits lsbFirst) ∧ s.Operands items st rows st' ∧
          lsbFirst.reverse = rows.flatten) ∧
    (∀ (σ : Type) (s : Scope σ) (items items' : List Expr) (place place' : Location)
      (expected expected' : Option Ty), operandsAll items = operandsAll items' →
        SameRuns (evaluate s (.bits items place) expected)
          (evaluate s (.bits items' place') expected')) ∧
    (∀ (db : Database) (className : String) (place : Location) (missing : Missing) (ps : List Param)
      (args : List (Option Value)) (bs : Bindings),
      bindParams db className place missing [] ps args = .ok bs →
        ∀ (items : List Expr) (p : Location) (expected : Option Ty) (v : Option Value),
          Written (fun _ => True) (.bits items p) →
          evaluateClosed db ((Expr.bits items p).substitute bs) expected = .ok v →
            ∃ lsbFirst, v = some (.bits lsbFirst) ∧
              lsbFirst.length = bitsWidth (typesUnder ps fun _ => none) items) ∧
    (∀ (d : Draft) (db : Database) (ps : List Param) (items : List Expr) (p : Location)
      (v : Option Value), Written (fun _ => True) (.bits items p) → d.Yields db ps (.bits items p) v →
        (∃ lsbFirst, v = some (.bits lsbFirst) ∧
          lsbFirst.length = bitsWidth (typesUnder ps d.types) items) ∧
        ∀ name q, .reference name q ∈ operandsAll items → (typesUnder ps d.types name).isSome) ∧
    ∀ (search : SearchPath) (statements : List Statement) (m : Moment),
      Relation.ReflTransGen (Moment.Step search) (.start statements) m →
      ∀ c ∈ m.progress.db.classes.records, ∀ side, ∀ r ∈ (m.progress.db.table side).records,
        c.name ∈ r.superclasses →
        ∀ (ps : List Param) (items : List Expr) (p : Location) (lsbFirst : List (Option Bool)),
          Written (fun _ => True) (.bits items p) →
          r.Yields ps (.bits items p) (some (.bits lsbFirst)) →
            (∀ lsbFirst', c.Yields ps (.bits items p) (some (.bits lsbFirst')) →
              lsbFirst.length = lsbFirst'.length) ∧
            ((∀ name q, .reference name q ∈ operandsAll items →
                (typesUnder ps c.types name).isSome) →
              lsbFirst.length = bitsWidth (typesUnder ps c.types) items) := by
  refine ⟨fun σ s items place expected st st' v => evaluate_bits_eq_ok,
    fun σ s items items' place place' expected expected' h => evaluate_bits_congr h place place' _ _,
    fun db className place missing ps args bs hbind items p expected v he h => ?_,
    fun d db ps items p v he h => ?_,
    fun search statements m hm c hc side r hr hmem ps items p lsbFirst he h => ?_⟩
  · obtain ⟨⟨v, ⟨⟩⟩, hv, rfl⟩ := map_eq_ok.1 h
    rw [evaluate_substitute] at hv
    have hfits := (Scope.closed_fits db).under (fits_of_bindParams hbind)
    obtain ⟨lsbFirst, rfl, hmeasured⟩ := evaluate_bits_measured hfits he hv
    rw [types_under_of_bindParams hbind] at hmeasured
    exact ⟨lsbFirst, rfl, hmeasured.length_eq⟩
  · obtain ⟨lsbFirst, rfl, hmeasured⟩ := h.measured he
    exact ⟨⟨lsbFirst, rfl, hmeasured.length_eq⟩, hmeasured.named⟩
  · obtain ⟨_, ⟨⟩, hmeasured⟩ := h.measured he
    have htypes := Moment.types_inherited hm hc hr hmem ps
    refine ⟨fun lsbFirst' h' => ?_, fun hnamed => ?_⟩
    · obtain ⟨_, ⟨⟩, hmeasured'⟩ := h'.measured he
      exact (hmeasured'.eq_of_types hmeasured htypes).symm
    · have hwidth : Measured (typesUnder ps c.types) (operandsAll items)
          (bitsWidth (typesUnder ps c.types) items) := ⟨rfl, hnamed⟩
      exact (hwidth.eq_of_types hmeasured htypes).symm

/-- A class with an initializer in an initializer, where a parameter and a field are named, and a def that
sets both. -/
def joining : String :=
  "class A<bits<2> n> \x7b bits<3> f = ?; bits<6> v = \x7bn, \x7bf, 1\x7d\x7d; \x7d "
    ++ "def X : A<1> \x7b let f = 5; \x7d"

def joiningParams : List Param := [⟨"n", .bits 2, none⟩]

def joiningItems : List Expr :=
  [.reference "n" (.start ""), .bits [.reference "f" (.start ""), .int 1] (.start "")]

/-- The draft of a record of `joining`, with the value bound to the parameter and the field's. -/
def joiningDraft (superclasses : List String) (n : Option Value) (f : Expr) : Draft where
  fields := [⟨"f", .bits 3, f, .start ""⟩,
    ⟨"v", .bits 6, (Expr.bits joiningItems (.start "")).substitute [⟨"n", .bits 2, n⟩], .start ""⟩]
  superclasses := superclasses
  instantiations := []
  distinct := by simp

def joiningClass : Record where
  name := "A"
  anonymous := false
  isClass := true
  fields := [⟨"f", .bits 3, none⟩,
    ⟨"v", .bits 6, some (.bits [some true, none, none, none, none, none])⟩]
  superclasses := []
  directSuperclasses := []
  linked := false

def joiningDef : Record where
  name := "X"
  anonymous := false
  isClass := false
  fields := [⟨"f", .bits 3, some (.bits [some true, some false, some true])⟩,
    ⟨"v", .bits 6,
      some (.bits [some true, some true, some false, some true, some true, some false])⟩]
  superclasses := ["A"]
  directSuperclasses := ["A"]
  linked := false

theorem joining_joined :
    ∃ (statements : List Statement) (m : Moment),
      readStatements "joining" joining = .ok statements ∧
      Relation.ReflTransGen (Moment.Step ⟨.emptyAt [], []⟩) (.start statements) m ∧
      joiningClass ∈ m.progress.db.classes.records ∧ joiningDef ∈ m.progress.db.defs.records ∧
      joiningClass.Yields joiningParams (.bits joiningItems (.start ""))
        (some (.bits [some true, none, none, none, none, none])) ∧
      joiningDef.Yields joiningParams (.bits joiningItems (.start ""))
        (some (.bits [some true, some true, some false, some true, some true, some false])) ∧
      (∀ lsbFirst, joiningClass.Yields joiningParams (.bits joiningItems (.start ""))
        (some (.bits lsbFirst)) → 6 = lsbFirst.length) ∧
      bitsWidth (typesUnder joiningParams joiningClass.types) joiningItems = 6 ∧
      SameRuns (evaluate (.closed m.progress.db) (.bits joiningItems (.start "")) none)
        (evaluate (.closed m.progress.db)
          (.bits [.reference "n" (.start ""), .reference "f" (.start ""), .int 1] (.start "")) none) ∧
      bitsWidth (typesUnder joiningParams fun _ => none) [.reference "n" (.start "")] = 2 := by
  have hrun : ((SearchPath.run ⟨.emptyAt [], []⟩ "joining" joining).toOption.map fun db =>
      (db.classes.records, db.defs.records)) = some ([joiningClass], [joiningDef]) := by
    decide +kernel
  obtain ⟨db, h, hrecords⟩ := ok_of_toOption_map hrun
  obtain ⟨statements, m, hread, hm, rfl⟩ := SearchPath.exists_moment h
  obtain ⟨hclasses, hdefs⟩ := Prod.mk.inj hrecords
  have hclass : joiningClass ∈ m.progress.db.classes.records := hclasses ▸ List.mem_singleton_self _
  have hdef : joiningDef ∈ m.progress.db.defs.records := hdefs ▸ List.mem_singleton_self _
  have hready : ∀ d : Draft, d.Ready .empty [] [] := fun d => ⟨.nil, List.forall_mem_nil _⟩
  have hunset : (joiningDraft [] none .unset).Yields .empty joiningParams
      (.bits joiningItems (.start "")) (some (.bits [some true, none, none, none, none, none])) :=
    .intro none 2 (rfl : bindParams .empty "A" (.start "") .unset [] joiningParams [] = .ok _)
      (hready _) rfl
  have hfinish : (joiningDraft [] none .unset).finish .empty "A" false true [] = .ok joiningClass :=
    rfl
  have hcyields : joiningClass.Yields joiningParams (.bits joiningItems (.start ""))
      (some (.bits [some true, none, none, none, none, none])) :=
    ⟨_, .empty, "A", false, true, [], hfinish, hunset⟩
  have hryields : joiningDef.Yields joiningParams (.bits joiningItems (.start ""))
      (some (.bits [some true, some true, some false, some true, some true, some false])) :=
    ⟨joiningDraft ["A"] (some (.bits [some true, some false])) (.int 5), .empty, "X", false, false,
      ["A"], rfl, .intro none 2
      (rfl : bindParams .empty "A" (.start "") .refused [] joiningParams [some (.int 1)] = .ok _)
      (hready _) rfl⟩
  have hwritten : Written (fun _ => True) (.bits joiningItems (.start "")) := by
    refine .bits (List.forall_mem_cons.2 ⟨.reference _ _, List.forall_mem_singleton.2 (.bits ?_)⟩)
    exact List.forall_mem_cons.2 ⟨.reference _ _, List.forall_mem_singleton.2 (.int _)⟩
  obtain ⟨-, hnested, hargument, hdraft, hinherited⟩ := bits_joined
  obtain ⟨-, hnamed⟩ := hdraft _ _ _ _ _ _ hwritten hunset
  rw [← Record.types_of_finish hfinish] at hnamed
  obtain ⟨hlength, hdeclared⟩ := hinherited _ _ m hm joiningClass hclass .defs joiningDef hdef
    (List.mem_singleton_self _) _ _ _ _ hwritten hryields
  obtain ⟨_, ⟨⟩, hdefault⟩ := hargument .empty "A" (.start "") .unset joiningParams [] _ rfl
    [.reference "n" (.start "")] (.start "") none (some (.bits [none, none]))
    (.bits (List.forall_mem_singleton.2 (.reference _ _))) rfl
  exact ⟨statements, m, hread, hm, hclass, hdef, hcyields, hryields, hlength, (hdeclared hnamed).symm,
    hnested _ _ _ _ _ _ _ _ rfl, hdefault.symm⟩

end Expr
end TypedRecords
