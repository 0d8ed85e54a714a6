import TypedRecords.Proofs.Inherit.Linear
import TypedRecords.Proofs.Together.Basic
import TypedRecords.Proofs.Value.Projection

/-!
# Arguments spelled out

What a template's parameters are bound to can be written as arguments: the bindings of a template are
bound again to their own values, since converting what was converted changes nothing and a default is
not looked at where there is an argument. So a parent whose defaults are spelled out, all of them or the
first ones, stands for the same class with the same bindings, on every path that leads to the class
(`Template.bind_spelledOut`).
-/

namespace TypedRecords
variable {db : Database}

/-! ### Bindings -/

/-- The value `v`, given for the parameter, is what the parameter is bound to. -/
def Binding.Takes (b : Binding) (store : Store) (v : Option Value) : Prop :=
  ∀ target place, assign store target b.type place v = .ok b.value

theorem Binding.takes_of_assign {b : Binding} {store : Store} {target : Target} {place : Location}
    {v : Option Value} (h : assign store target b.type place v = .ok b.value) : b.Takes store v :=
  assign_elsewhere h

/-- A parameter takes what it is bound to: what was converted converts to itself. -/
theorem Binding.Takes.value {b : Binding} {store : Store} {v : Option Value} (h : b.Takes store v) :
    b.Takes store b.value := by
  intro target place
  cases hb : b.value with
  | none => rfl
  | some w =>
    obtain ⟨u, -, hu⟩ := assign_eq_ok (hb ▸ h target place)
    rw [assign, (Ty.admits_of_convert hu).convert]

theorem paramValue_elsewhere {className : String} {place : Location} {missing : Missing}
    {bound : Bindings} {p : Param} {args : List (Option Value)} {raw : Option Value}
    (h : paramValue db className place missing bound p args = .ok raw) (place' : Location) :
    paramValue db className place' missing bound p args = .ok raw := by
  unfold paramValue at h ⊢
  split
  · exact h
  · rename_i hdefault
    simpa only [hdefault] using h
  · rename_i hdefault
    simp only [hdefault] at h
    cases missing with
    | refused => cases h
    | unset => exact h

/-- The parameters take what they are bound to, and arguments that they take, at least as many as there
were, bind them in the same way. What becomes of a parameter that has neither argument nor default
matters only where there is one. -/
theorem bindParams_spelledOut {className : String} {place : Location} {missing : Missing}
    {bound bs : Bindings} {ps : List Param} {args : List (Option Value)}
    (h : bindParams db className place missing bound ps args = .ok bs) :
    ∃ added : Bindings, bs = bound ++ added ∧
      added.map (fun b => (b.name, b.type)) = ps.map (fun p => (p.name, p.type)) ∧
      (∀ b ∈ added, b.Takes db.store b.value) ∧
      ∀ (k : Nat) (vs : List (Option Value)) (place' : Location) (missing' : Missing),
        args.length ≤ k → (missing' = missing ∨ ps.length ≤ k) →
        List.Forall₂ (fun v b => b.Takes db.store v) vs (added.take k) →
        bindParams db className place' missing' bound ps vs = .ok bs := by
  induction ps generalizing bound args with
  | nil => exact ⟨[], Except.ok.inj h ▸ (List.append_nil _).symm, rfl, List.forall_mem_nil _,
      fun _ _ _ _ _ _ _ => h⟩
  | cons p ps ih =>
    obtain ⟨raw, hraw, h⟩ := bind_eq_ok.1 h
    obtain ⟨value, hvalue, h⟩ := bind_eq_ok.1 h
    obtain ⟨added, rfl, htypes, htakes, hagain⟩ := ih h
    have hp : Binding.Takes ⟨p.name, p.type, value⟩ db.store raw := Binding.takes_of_assign hvalue
    refine ⟨⟨p.name, p.type, value⟩ :: added, by simp, by simp [htypes],
      List.forall_mem_cons.2 ⟨hp.value, htakes⟩, fun k vs place' missing' hk hmissing hvs => ?_⟩
    have hrest := hagain (k - 1) vs.tail place' missing'
      (by rw [List.length_tail]; omega) (hmissing.imp_right fun hps => by simp at hps; omega)
    cases k with
    | zero =>
      -- there were no arguments, so the parameter comes to its value as it did before
      obtain rfl : args = [] := List.eq_nil_of_length_eq_zero (Nat.le_zero.1 hk)
      obtain rfl : missing' = missing := hmissing.resolve_right (by simp)
      obtain rfl : vs = [] := List.forall₂_nil_right_iff.1 hvs
      exact bind_eq_ok.2 ⟨raw, paramValue_elsewhere hraw place',
        bind_eq_ok.2 ⟨value, hp _ place', hrest .nil⟩⟩
    | succ k =>
      rw [List.take_succ_cons] at hvs
      obtain ⟨v, ws, hv, hws, rfl⟩ := List.forall₂_cons_right_iff.1 hvs
      exact bind_eq_ok.2 ⟨v, rfl, bind_eq_ok.2 ⟨value, hv _ place', hrest hws⟩⟩

namespace Template

theorem bind_again {t : Template} {args : List (Option Value)} {place : Location}
    {missing : Missing} {bs : Bindings} (h : t.bind db args place missing = .ok bs) :
    bs.map (fun b => (b.name, b.type)) = t.params.map (fun p => (p.name, p.type)) ∧
    (∀ b ∈ bs, b.Takes db.store b.value) ∧
    ∀ (k : Nat) (vs : List (Option Value)) (place' : Location) (missing' : Missing),
      args.length ≤ k → (missing' = missing ∨ t.params.length ≤ k) →
      List.Forall₂ (fun v b => b.Takes db.store v) vs (bs.take k) →
      t.bind db vs place' missing' = .ok bs := by
  obtain ⟨added, hadded, htypes, htakes, hagain⟩ := bindParams_spelledOut (bind_eq_ok_iff.1 h).2
  obtain rfl : bs = added := hadded.trans (List.nil_append added)
  refine ⟨htypes, htakes, fun k vs place' missing' hk hmissing hvs => ?_⟩
  have hlength : bs.length = t.params.length := by simpa using congrArg List.length htypes
  have hlength' : vs.length = min k bs.length := by simpa using hvs.length_eq
  exact bind_eq_ok_iff.2 ⟨by omega, hagain k vs place' missing' hk hmissing hvs⟩

end Template

/-! ### Parents -/

def Template.withParents (t : Template) (ps : List ParentRef) : Template := { t with parents := ps }

namespace ParentRef

/-- Where the parent `p` stands for the class `a`, `q` names this class and has arguments, at least as
many as `p`, that the parameters take: what these are bound to, or what it was converted from. -/
structure SpellsOut (db : Database) (ts : List Template) (outer outer' : Bindings) (p q : ParentRef)
    (a : Ancestor) : Prop where
  leads : ∃ older, p.Leads db ts outer a older
  name : q.name = p.name
  values : ∃ k vs, p.args.length ≤ k ∧
    evaluateWritten db outer' a.template.params q.args = .ok vs ∧
    List.Forall₂ (fun v b => b.Takes db.store v) vs (a.bindings.take k)

variable {ts : List Template} {outer outer' : Bindings} {p q : ParentRef} {a : Ancestor}

/-- A parent that is spelled out leads to the same class with the same bindings. -/
theorem SpellsOut.leads_too (h : SpellsOut db ts outer outer' p q a) :
    ∃ older, p.Leads db ts outer a older ∧ q.Leads db ts outer' a older := by
  obtain ⟨older, hleads⟩ := h.leads
  obtain ⟨k, vs, hk, hvs, htakes⟩ := h.values
  obtain ⟨hname, args, hargs, hbind⟩ := hleads.gives
  obtain ⟨newer, hfound, hnewer⟩ := hleads.found
  refine ⟨older, hleads, ⟨newer, hfound, fun t ht => h.name ▸ hnewer t ht⟩, hname.trans h.name.symm,
    vs, hvs, ?_⟩
  exact (Template.bind_again hbind).2.2 k vs q.place .refused
    (Nat.le_trans (length_of_evaluateWritten hargs).le hk) (.inl rfl) htakes

end ParentRef

namespace Draft
variable {ts older : List Template} {outer outer' : Bindings} {p q : ParentRef} {a : Ancestor}

theorem inherit_same (hp : p.Leads db ts outer a older) (hq : q.Leads db ts outer' a older)
    (d : Draft) : Together Eq (d.inherit db ts p outer) (d.inherit db ts q outer') := by
  rw [inherit_of_leads hp, inherit_of_leads hq]
  cases d.instantiation? a.name with
  | none => exact .refl (fun _ => rfl) _
  | some previous =>
    dsimp only
    split
    · exact .ok rfl
    · exact .error _ _

theorem instantiation_of_inherit (hp : p.Leads db ts outer a older) {d d' : Draft}
    (h : d.inherit db ts p outer = .ok d') : d'.instantiation? a.name = some a.bindings := by
  rw [inherit_of_leads hp] at h
  cases hd : d.instantiation? a.name with
  | some previous =>
    rw [hd] at h
    dsimp only at h
    split at h
    · rename_i hprevious
      rw [← Except.ok.inj h, hd, hprevious]
    · cases h
  | none =>
    rw [hd] at h
    obtain ⟨d₁, -, h⟩ := bind_eq_ok.1 h
    obtain ⟨d₂, -, h⟩ := bind_eq_ok.1 h
    rw [← pure_eq_ok.1 h, instantiation?, addInstance]
    exact List.lookup_cons_self

theorem inherit_of_instantiation (hp : p.Leads db ts outer a older) {d : Draft}
    (h : d.instantiation? a.name = some a.bindings) : d.inherit db ts p outer = .ok d := by
  rw [inherit_of_leads hp, h]
  exact if_pos rfl

theorem ofTemplate_same {t : Template} {bs : Bindings} {qs : List ParentRef}
    (h : List.Forall₂ (fun p q => q = p ∨ ∃ a, p.SpellsOut db ts bs bs q a) t.parents qs) :
    Together Eq (ofTemplate db ts t bs) (ofTemplate db ts (t.withParents qs) bs) := by
  refine (Together.foldlM (R := Eq) h (fun p q d d' hpq hd => ?_) rfl).bind fun d d' hd => ?_
  · obtain rfl := hd
    obtain rfl | ⟨a, ha⟩ := hpq
    · exact .refl (fun _ => rfl) _
    · obtain ⟨older, hp, hq⟩ := ha.leads_too
      exact inherit_same hp hq d
  · obtain rfl := hd
    exact .refl (fun _ => rfl) _

theorem record_same {t : Template} {bs : Bindings} {qs : List ParentRef}
    (h : List.Forall₂ (fun p q => q = p ∨ ∃ a, p.SpellsOut db ts bs bs q a) t.parents qs)
    (name : String) (anonymous isClass : Bool) (direct : List String) :
    Together Eq
      (ofTemplate db ts t bs >>= fun d => d.finish db name anonymous isClass direct)
      (ofTemplate db ts (t.withParents qs) bs >>= fun d =>
        d.finish db name anonymous isClass direct) :=
  (ofTemplate_same h).bind fun _ _ hd => hd ▸ .refl (fun _ => rfl) _

end Draft

namespace Template

/-- The bindings of a template are bound again by their own values, and are of its parameters exactly.
So the values that defaults gave may be written as arguments, before or after their conversion: the
parent does the same to every draft, agrees with the class as it was applied by the other one, and gives
the same record. -/
theorem bind_spelledOut (db : Database) :
    (∀ (t : Template) (args : List (Option Value)) (place : Location) (missing : Missing)
      (bs : Bindings), t.bind db args place missing = .ok bs →
        bs.map (fun b => (b.name, b.type)) = t.params.map (fun p => (p.name, p.type)) ∧
        (∀ place' missing', t.bind db (bs.map Binding.value) place' missing' = .ok bs) ∧
        ∀ (k : Nat) (vs : List (Option Value)) (place' : Location), args.length ≤ k →
          List.Forall₂ (fun v b => b.Takes db.store v) vs (bs.take k) →
          t.bind db vs place' missing = .ok bs) ∧
    (∀ (ts : List Template) (outer outer' : Bindings) (p q : ParentRef) (a : Ancestor),
      p.SpellsOut db ts outer outer' q a →
        (∀ d d', Draft.inherit db ts d p outer = .ok d' ↔ Draft.inherit db ts d q outer' = .ok d') ∧
        (∀ d d', Draft.inherit db ts d p outer = .ok d' →
          d'.instantiation? a.name = some a.bindings) ∧
        ∀ d, d.instantiation? a.name = some a.bindings →
          Draft.inherit db ts d p outer = .ok d ∧ Draft.inherit db ts d q outer' = .ok d) ∧
    ∀ (ts : List Template) (t : Template) (bs : Bindings) (qs : List ParentRef),
      List.Forall₂ (fun p q => q = p ∨ ∃ a, p.SpellsOut db ts bs bs q a) t.parents qs →
        (t.withParents qs).directSuperclasses = t.directSuperclasses ∧
        ∀ name anonymous isClass direct r,
          (Draft.ofTemplate db ts t bs >>= fun d => d.finish db name anonymous isClass direct) =
              .ok r ↔
            (Draft.ofTemplate db ts (t.withParents qs) bs >>= fun d =>
              d.finish db name anonymous isClass direct) = .ok r := by
  refine ⟨fun t args place missing bs h => ?_, fun ts outer outer' p q a h => ?_,
    fun ts t bs qs h => ⟨directSuperclasses_congr ?_, fun name anonymous isClass direct r =>
      (Draft.record_same h name anonymous isClass direct).eq_ok_iff⟩⟩
  · obtain ⟨htypes, htakes, hagain⟩ := bind_again h
    have hlength : bs.length = t.params.length := by simpa using congrArg List.length htypes
    have hargs : args.length ≤ t.params.length := (bind_eq_ok_iff.1 h).1
    refine ⟨htypes, fun place' missing' => ?_,
      fun k vs place' hk hvs => hagain k vs place' missing hk (.inl rfl) hvs⟩
    refine hagain bs.length _ place' missing' (hlength ▸ hargs) (.inr hlength.ge) ?_
    rw [List.take_length, List.forall₂_map_left_iff, List.forall₂_same]
    exact htakes
  · obtain ⟨older, hp, hq⟩ := h.leads_too
    exact ⟨fun d d' => (Draft.inherit_same hp hq d).eq_ok_iff,
      fun d d' hd => Draft.instantiation_of_inherit hp hd,
      fun d hd => ⟨Draft.inherit_of_instantiation hp hd, Draft.inherit_of_instantiation hq hd⟩⟩
  · refine (map_eq_of_forall₂ h fun p q hpq => ?_).symm
    exact hpq.elim (fun hq => congrArg _ hq.symm) fun ⟨_, ha⟩ => ha.name.symm

/-- A class whose second parameter takes what the first was converted to. -/
def sized : Template :=
  ⟨"Sized", [⟨"n", .bits 2, none⟩, ⟨"m", .int, some (.reference "n" (.start ""))⟩], [], [],
    [.field "v" .int (some (.reference "m" (.start ""))) (.start "")]⟩

def sizedBindings : Bindings :=
  [⟨"n", .bits 2, some (.bits [some false, some true])⟩, ⟨"m", .int, some (.int 2)⟩]

/-- The class reached twice, with its default and with this spelled out. -/
def sizedTwice (second : List Expr) : Template :=
  ⟨"x", [], [⟨"Sized", [.int 2], .start ""⟩, ⟨"Sized", second, .start ""⟩], [], []⟩

theorem sized_spelledOut :
    sized.bind .empty [some (.int 2)] (.start "") .refused = .ok sizedBindings ∧
    sized.bind .empty (sizedBindings.map Binding.value) (.start "") .unset = .ok sizedBindings ∧
    ∃ r, (Draft.ofTemplate .empty [sized] (sizedTwice [.int 2, .int 2]) [] >>= fun d =>
        d.finish .empty "x" false false ["Sized"]) = .ok r ∧
      r.fields = [⟨"v", .int, some (.int 2)⟩] ∧
      ∀ d : Draft, d.instantiation? "Sized" = some sizedBindings →
        d.inherit .empty [sized] ⟨"Sized", [.int 2, .int 2], .start ""⟩ [] = .ok d := by
  have hbind : sized.bind .empty [some (.int 2)] (.start "") .refused = .ok sizedBindings := by rfl
  have hspells : ParentRef.SpellsOut .empty [sized] [] [] ⟨"Sized", [.int 2], .start ""⟩
      ⟨"Sized", [.int 2, .int 2], .start ""⟩ ⟨sized, sizedBindings⟩ :=
    { leads := ⟨[], ⟨[], rfl, List.forall_mem_nil _⟩, rfl, [some (.int 2)], rfl, hbind⟩
      name := rfl
      values := ⟨2, [some (.int 2), some (.int 2)], by decide, rfl,
        .cons (fun _ _ => rfl) (.cons (fun _ _ => rfl) .nil)⟩ }
  have hrun : ((Draft.ofTemplate .empty [sized] (sizedTwice [.int 2]) [] >>= fun d =>
      d.finish .empty "x" false false ["Sized"]).map Record.fields) =
        .ok [⟨"v", .int, some (.int 2)⟩] := by rfl
  obtain ⟨r, hr, hfields⟩ := map_eq_ok.1 hrun
  obtain ⟨hbound, hparents, hrecord⟩ := bind_spelledOut .empty
  refine ⟨hbind, (hbound _ _ _ _ _ hbind).2.1 _ _, r, ?_, hfields,
    fun d hd => ((hparents _ _ _ _ _ _ hspells).2.2 d hd).2⟩
  exact ((hrecord _ (sizedTwice [.int 2]) _ _
    (.cons (.inl rfl) (.cons (.inr ⟨_, hspells⟩) .nil))).2 _ _ _ _ r).1 hr

end Template
end TypedRecords
