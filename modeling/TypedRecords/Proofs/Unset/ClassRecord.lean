import TypedRecords.Proofs.Run.Invariant
import TypedRecords.Proofs.Unset.Defaults
import TypedRecords.Proofs.Unset.Finish

/-!
# Records of classes

The record of a class is what its template gives where parameters take their defaults and others are
unset. If an instance can be built with the same defaults, the class is declared with success and its
record is below every such instance: what differs between instances is unset in it
(`Progress.addClass_below`). The declaration is refused only where it needs a value that is unset
without arguments and set in the instance, as `Progress.Wants` tells; each of the ways in which it can
does occur (`Progress.wanting_refused`).
-/

namespace TypedRecords

/-- Some parameter that has no default has a value. -/
def Template.TakesArgument (t : Template) (bs : Bindings) : Prop :=
  ∃ (i : Nat) (q : Param) (b : Binding), t.params[i]? = some q ∧ bs[i]? = some b ∧
    q.default = none ∧ b.value.isSome

namespace Progress

/-- The template of a class declaration is instantiated: arguments are bound, all of which have to be
there, and every field is evaluated. -/
structure Instance (p : Progress) (lets : List Override) (c : ClassSyntax)
    (args : List (Option Value)) (t : Template) (bs : Bindings) (r : Record) : Prop where
  template : c.toTemplate (fun name => name = c.name || p.declared name) lets = .ok t
  bindings : t.bind p.db args c.place .refused = .ok bs
  record : ∃ d, Draft.ofTemplate p.db p.templates t bs = .ok d ∧
    d.finish p.db c.name false false t.directSuperclasses = .ok r

theorem addClass_eq {p : Progress} {lets : List Override} {c : ClassSyntax} {t : Template}
    (hnew : p.declared c.name = false)
    (ht : c.toTemplate (fun name => name = c.name || p.declared name) lets = .ok t) :
    p.addClass lets c = do
      let bs ← t.bind p.db [] c.place .unset
      let draft ← Draft.ofTemplate p.db p.templates t bs
      let record ← draft.finish p.db c.name false true t.directSuperclasses
      return { p with
        db := { p.db with classes := (p.db.classes.keep record).table }
        templates := t :: p.templates } := by
  unfold addClass
  rw [hnew, ht]
  rfl

/-- Without arguments the class declaration wants a value that it has where the parameters of its
template are bound to `bs`: in the default of a parameter, in what it inherits, or in a field. -/
inductive Wants (p : Progress) (c : ClassSyntax) (t : Template) (bs : Bindings) : ParseError → Prop
  | default {i : Nat} {q : Param} {e : Expr} {bound : Bindings} {err : ParseError}
      (hq : t.params[i]? = some q) (he : q.default = some e)
      (hbound : bindParams p.db t.name c.place .unset [] (t.params.take i) [] = .ok bound)
      (h : q.Wants p.db t.name c.place e bound (bs.take i) err) : Wants p c t bs err
  | inherited {unset : Bindings} {err : ParseError} (hunset : t.bind p.db [] c.place .unset = .ok unset)
      (h : Inherited.Wants p.db p.templates ⟨t, unset, bs⟩ err) : Wants p c t bs err
  | field {unset : Bindings} {d d' : Draft} {err : ParseError}
      (hunset : t.bind p.db [] c.place .unset = .ok unset)
      (hd : Draft.ofTemplate p.db p.templates t unset = .ok d)
      (hd' : Draft.ofTemplate p.db p.templates t bs = .ok d') (h : d.Wants p.db d' err) :
      Wants p c t bs err

theorem Instance.bind_unset {p : Progress} {lets : List Override} {c : ClassSyntax}
    {args : List (Option Value)} {t : Template} {bs : Bindings} {r : Record}
    (h : p.Instance lets c args t bs r) (hkeeps : t.KeepsDefaults p.db c.place bs) :
    Follows (p.Wants c t bs) Bindings.Le (t.bind p.db [] c.place .unset) (.ok bs) := by
  obtain ⟨-, hbs⟩ := Template.bind_eq_ok_iff.1 h.bindings
  rw [Template.bind_nil]
  refine bindParams_unset .nil hbs hkeeps.keepsFrom fun i q e before hq he hbefore err h => ?_
  rw [List.length_nil, Nat.zero_add] at h
  exact .default hq he hbefore h

theorem Instance.bind_eq {p : Progress} {lets : List Override} {c : ClassSyntax}
    {args : List (Option Value)} {t : Template} {bs : Bindings} {r : Record}
    (h : p.Instance lets c args t bs r) (hkeeps : t.KeepsDefaults p.db c.place bs)
    (hargs : ¬t.TakesArgument bs) : t.bind p.db [] c.place .unset = .ok bs := by
  obtain ⟨-, hbs⟩ := Template.bind_eq_ok_iff.1 h.bindings
  rw [Template.bind_nil]
  refine bindParams_eq hbs hkeeps.keepsFrom fun i q b hq hb hdefault => ?_
  rw [List.length_nil, Nat.zero_add] at hb
  exact Option.not_isSome_iff_eq_none.1 fun hsome => hargs ⟨i, q, b, hq, hb, hdefault, hsome⟩

theorem Instance.addClass {p : Progress} {lets : List Override} {c : ClassSyntax}
    (hnew : p.declared c.name = false) {args : List (Option Value)} {t : Template} {bs : Bindings}
    {r : Record} (h : p.Instance lets c args t bs r) (hkeeps : t.KeepsDefaults p.db c.place bs)
    (hargs : ¬t.TakesArgument bs) : ∃ p', p.addClass lets c = .ok p' := by
  obtain ⟨d, hd, hr⟩ := h.record
  obtain ⟨q, hq⟩ := Draft.exists_finish hr c.name false true t.directSuperclasses
  rw [addClass_eq hnew h.template, bind_of_ok (h.bind_eq hkeeps hargs), bind_of_ok hd, bind_of_ok hq]
  exact ⟨_, rfl⟩

/-- A class of which an instance can be built with the defaults of its parameters is added, with a
record below the instance in which parameters without a default are unset. Or else the instance gives
some parameter an argument, and the declaration is refused as it wants a value that it has in the
instance. -/
theorem addClass_below {p : Progress} {lets : List Override} {c : ClassSyntax}
    (hnew : p.declared c.name = false) {args : List (Option Value)} {t : Template} {bs : Bindings}
    {r : Record} (h : p.Instance lets c args t bs r) (hkeeps : t.KeepsDefaults p.db c.place bs) :
    (∃ p' unset d q, p.addClass lets c = .ok p' ∧ p.ClassStep lets c p' t unset d q ∧
      (∀ (i : Nat) (param : Param) (b : Binding), t.params[i]? = some param → unset[i]? = some b →
        param.default = none → b.value = none) ∧
      List.Forall₂ Field.Le q.fields r.fields ∧ q.superclasses = r.superclasses) ∨
    t.TakesArgument bs ∧ ∃ e, p.addClass lets c = .error e ∧ p.Wants c t bs e := by
  obtain ⟨d', hd', hr⟩ := h.record
  have hrefused : ∀ e, p.addClass lets c = .error e → p.Wants c t bs e →
      t.TakesArgument bs ∧ ∃ e, p.addClass lets c = .error e ∧ p.Wants c t bs e := by
    intro e he hwants
    refine ⟨by_contra fun hargs => ?_, e, he, hwants⟩
    obtain ⟨p', hp'⟩ := h.addClass hnew hkeeps hargs
    cases hp'.symm.trans he
  have heq := addClass_eq hnew h.template
  rcases h.bind_unset hkeeps bs rfl with ⟨unset, hunset, hbelow⟩ | ⟨e, he, hwants⟩
  · rw [bind_of_ok hunset] at heq
    rcases Draft.ofTemplate_follows p.templates t hbelow d' hd' with ⟨d, hd, hle⟩ | ⟨e, he, hwants⟩
    · rw [bind_of_ok hd] at heq
      rcases Draft.finish_follows hle c.name false true t.directSuperclasses _ _ _ _ r hr with
        ⟨q, hq, hfields, hsupers⟩ | ⟨e, he, hwants⟩
      · rw [bind_of_ok hq] at heq
        exact .inl ⟨_, unset, d, q, heq, ⟨hnew, h.template, hunset, hd, hq, rfl, rfl, rfl⟩,
          Template.unset_of_bind hunset, hfields, hsupers⟩
      · exact .inr (hrefused e (heq.trans (bind_of_error he _)) (.field hunset hd hd' hwants))
    · exact .inr (hrefused e (heq.trans (bind_of_error he _)) (.inherited hunset hwants))
  · exact .inr (hrefused e (heq.trans (bind_of_error he _)) hwants)

/-! ### Declarations -/

def somewhere : Location := .start "classes"

/-- A class whose fields need its parameters in part; one of the parameters has a default. -/
def tally : ClassSyntax where
  name := "Tally"
  namePlace := somewhere
  params := [⟨.int, "x", none, somewhere⟩, ⟨.int, "y", some (.boolean true), somewhere⟩]
  parents := []
  body := [
    .field .int "sum" (some (.bang "!add" [.reference "x" somewhere, .reference "y" somewhere]
      somewhere)) somewhere,
    .field .int "known" (some (.reference "y" somewhere)) somewhere,
    .field (.bits 2 somewhere) "bits" (some (.bits [.reference "x" somewhere, .boolean true]
      somewhere)) somewhere,
    .field .dag "node" (some (.dag "op" somewhere [⟨some "x", some (.reference "x" somewhere)⟩]
      somewhere)) somewhere]
  place := somewhere

def tallyBindings : Bindings := [⟨"x", .int, some (.int 1)⟩, ⟨"y", .int, some (.int 1)⟩]

theorem tally_below :
    ∃ t r p' unset d q, Progress.start.Instance [] tally [some (.int 1)] t tallyBindings r ∧
      t.KeepsDefaults Progress.start.db somewhere tallyBindings ∧
      Progress.start.addClass [] tally = .ok p' ∧
      Progress.start.ClassStep [] tally p' t unset d q ∧
      List.Forall₂ Field.Le q.fields r.fields ∧
      r.fields.map Field.value = [some (.int 2), some (.int 1), some (.bits [some true, some true]),
        some (.dag (.name "op") [⟨some "x", some (.int 1)⟩])] ∧
      p'.db.classes.records.map (fun r => r.fields.map Field.value) =
        [[none, some (.int 1), some (.bits [some true, none]),
          some (.dag (.name "op") [⟨some "x", none⟩])]] := by
  obtain ⟨t, r, hinstance, hparams, hvalues⟩ : ∃ t r,
      Progress.start.Instance [] tally [some (.int 1)] t tallyBindings r ∧
        t.params = [⟨"x", .int, none⟩, ⟨"y", .int, some (.int 1)⟩] ∧
        r.fields.map Field.value = [some (.int 2), some (.int 1),
          some (.bits [some true, some true]), some (.dag (.name "op") [⟨some "x", some (.int 1)⟩])] :=
    ⟨_, _, ⟨rfl, rfl, _, rfl, rfl⟩, rfl, rfl⟩
  have hkeeps : t.KeepsDefaults Progress.start.db somewhere tallyBindings := by
    unfold Template.KeepsDefaults
    rw [hparams]
    rintro (_ | _ | i) p b hp hb default hdefault
    · obtain rfl := Option.some.inj hp
      cases hdefault
    · obtain rfl := Option.some.inj hp
      obtain rfl := Option.some.inj hb
      obtain rfl := Option.some.inj hdefault
      exact ⟨some (.int 1), rfl, rfl⟩
    · cases hb
  obtain ⟨p₁, hadded, hrecords⟩ : ∃ p₁, Progress.start.addClass [] tally = .ok p₁ ∧
      p₁.db.classes.records.map (fun r => r.fields.map Field.value) =
        [[none, some (.int 1), some (.bits [some true, none]),
          some (.dag (.name "op") [⟨some "x", none⟩])]] := ⟨_, rfl, rfl⟩
  rcases addClass_below rfl hinstance hkeeps with ⟨p', unset, d, q, hp', hstep, -, hfields, -⟩ |
    ⟨-, e, he, -⟩
  · obtain rfl := Except.ok.inj (hadded.symm.trans hp')
    exact ⟨t, r, p₁, unset, d, q, hinstance, hkeeps, hadded, hstep, hfields, hvalues, hrecords⟩
  · cases hadded.symm.trans he

/-- A class declaration with arguments for its parameters, and why it is refused without them. -/
structure Refusal where
  before : Progress
  decl : ClassSyntax
  args : List (Option Value)
  cause : Cause

structure Refusal.Occurs (x : Refusal) : Prop where
  instantiated : ∃ t bs r, x.before.Instance [] x.decl x.args t bs r
  refused : ∃ place, x.before.addClass [] x.decl = .error ⟨x.cause, place⟩

/-- The declaration of a class `A` with one parameter. -/
def oneParam (type : TypeSyntax) (default : Option ValueSyntax) (body : List ItemSyntax) :
    ClassSyntax :=
  ⟨"A", somewhere, [⟨type, "x", default, somewhere⟩], [], body, somewhere⟩

def twoBits : ValueSyntax := .bits [.reference "x" somewhere, .boolean true] somewhere

def itemWanted : Refusal where
  before := .start
  decl := oneParam .int none
    [.field (.list .int) "l" (some (.list [.reference "x" somewhere] none somewhere)) somewhere]
  args := [some (.int 1)]
  cause := .elementUnset

def operatorWanted : Refusal where
  before := .start
  decl := oneParam .string none
    [.field .dag "d" (some (.dag "x" somewhere [] somewhere)) somewhere]
  args := [some (.string "op")]
  cause := .badDagOperator none

def bitWanted : Refusal where
  before := .start
  decl := oneParam .bit none [.field .int "i" (some twoBits) somewhere]
  args := [some (.bit true)]
  cause := .incompatible (.field "i") .int (.bits 2)

def elementBitWanted : Refusal where
  before := .start
  decl := oneParam .bit none
    [.field (.list .int) "l" (some (.list [twoBits] none somewhere)) somewhere]
  args := [some (.bit true)]
  cause := .elementIncompatible (.bits 2) .int

def operandBitWanted : Refusal where
  before := .start
  decl := oneParam .bit none
    [.field .int "i" (some (.bang "!add" [twoBits] somewhere)) somewhere]
  args := [some (.bit true)]
  cause := .notInt .bits

/-- Both parents inherit `T`: one passes its parameter on, the other gives the argument 1. -/
def sameArgumentWanted : Refusal where
  before := {
    db := ⟨⟨[⟨"T", false, true, [], [], [], false⟩, ⟨"L", false, true, [], ["T"], ["T"], false⟩,
      ⟨"R", false, true, [], ["T"], ["T"], false⟩], by decide⟩, .empty⟩
    templates := [⟨"R", [], [⟨"T", [.int 1], somewhere⟩], [], []⟩,
      ⟨"L", [⟨"x", .int, none⟩], [⟨"T", [.reference "x" somewhere], somewhere⟩], [], []⟩,
      ⟨"T", [⟨"a", .int, none⟩], [], [], []⟩]
    anonymous := 0 }
  decl := ⟨"A", somewhere, [⟨.int, "x", none, somewhere⟩],
    [⟨"L", [.reference "x" somewhere], somewhere⟩, ⟨"R", [], somewhere⟩], [], somewhere⟩
  args := [some (.int 1)]
  cause := .diamond "T"

/-- No instance keeps the default, which does not convert. -/
def defaultNotKept : Refusal where
  before := .start
  decl := oneParam .int (some (.string [] somewhere)) []
  args := [some (.int 1)]
  cause := .incompatible (.param "A" "x") .int .string

def nameTaken : Refusal where
  before := {
    db := ⟨⟨[⟨"A", false, true, [], [], [], false⟩], by decide⟩, .empty⟩
    templates := [⟨"A", [], [], [], []⟩]
    anonymous := 0 }
  decl := ⟨"A", somewhere, [], [], [], somewhere⟩
  args := []
  cause := .classDefined "A"

/-- A name that is taken, a default that has to be kept, and each of the ways in which a value that is
unset is wanted. -/
theorem wanting_refused :
    nameTaken.Occurs ∧ defaultNotKept.Occurs ∧ itemWanted.Occurs ∧ operatorWanted.Occurs ∧
      bitWanted.Occurs ∧ elementBitWanted.Occurs ∧ operandBitWanted.Occurs ∧
      sameArgumentWanted.Occurs := by
  refine ⟨?_, ?_, ?_, ?_, ?_, ?_, ?_, ?_⟩
  all_goals exact ⟨⟨_, _, _, rfl, rfl, _, rfl, rfl⟩, _, rfl⟩

end Progress
end TypedRecords
