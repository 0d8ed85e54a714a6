import TypedRecords.Proofs.Place.Nodes

/-!
# Reading stays on the text

Every parser comes from a cursor on a text to a cursor on it, and the places where rules fail on the way
are places of the text. So whatever the grammar reads has only nodes that begin on the text
(`begins_of_readStatements`), and a text that is refused is refused at a place of it
(`has_of_readStatements`).
-/

namespace TypedRecords

/-! ### Failed rules -/

namespace Attempts
variable {P : Location → Prop} {a b : Attempts}

/-- All places where rules failed satisfy `P`. -/
def Within (P : Location → Prop) : Attempts → Prop
  | none => True
  | failed _ place inner => P place ∧ inner.Within P
  | both first second => first.Within P ∧ second.Within P

theorem Within.append (ha : a.Within P) (hb : b.Within P) : (a ++ b).Within P := by
  cases a with
  | none => exact hb
  | failed => cases b <;> first | exact ha | exact ⟨ha, hb⟩
  | both => cases b <;> first | exact ha | exact ⟨ha, hb⟩

end Attempts

namespace Furthest
variable {P : Location → Prop}

theorem place_note {f : Furthest} (h : P f.place) (rule : Rule) {place : Location} (hplace : P place)
    (earlier : Nat) : P (f.note rule place earlier).place := by
  unfold note
  split_ifs
  · exact h
  · exact hplace
  · exact hplace
  · exact h

theorem place_add {f : Furthest} (h : P f.place) {a : Attempts} (ha : a.Within P) :
    P (f.add a).place := by
  induction a generalizing f with
  | none => exact h
  | failed rule place inner ih => exact place_note (ih h ha.2) rule ha.1 _
  | both first second ihf ihs => exact ihs (ihf h ha.1) ha.2

end Furthest

/-! ### Parsers -/

theorem forall_mem_getD {α : Type} {P : α → Prop} {as : Option (List α)}
    (h : ∀ bs ∈ as, ∀ b ∈ bs, P b) : ∀ a ∈ as.getD [], P a := by
  cases as with
  | none => exact List.forall_mem_nil _
  | some as => exact h as rfl

section
variable {α β : Type} {o : Source} {Q : α → Prop} {R : β → Prop}

/-- What was read satisfies `Q` and ends on the text, and rules failed at places of the text only. -/
inductive Reply.Stays (o : Source) (Q : α → Prop) : Reply α → Prop
  | read {a : α} {c : Cursor} {tried : Attempts} (hc : o.On c) (ha : Q a) (ht : tried.Within o.Has) :
      Stays o Q ⟨some (a, c), tried⟩
  | refused {tried : Attempts} (ht : tried.Within o.Has) : Stays o Q ⟨none, tried⟩

namespace Reply.Stays

theorem imp {r : Reply α} (h : r.Stays o Q) {Q' : α → Prop}
    (hQ : r.outcome.isSome = true → ∀ a, Q a → Q' a) : r.Stays o Q' := by
  cases h with
  | read hc ha ht => exact .read hc (hQ rfl _ ha) ht
  | refused ht => exact .refused ht

/-- Rules may have failed before. -/
theorem behind {r : Reply α} (h : r.Stays o Q) {t : Attempts} (ht : t.Within o.Has) :
    Stays o Q ⟨r.outcome, t ++ r.attempts⟩ := by
  cases h with
  | read hc ha ht' => exact .read hc ha (ht.append ht')
  | refused ht' => exact .refused (ht.append ht')

end Reply.Stays

namespace Parser
variable {p q : Parser α} {f : α → Parser β}

/-- From a cursor on the text the parser stays on it, and what it reads satisfies `Q`. -/
def Stays (p : Parser α) (o : Source) (Q : α → Prop) : Prop := ∀ c, o.On c → (p c).Stays o Q

theorem accepts_named {rule : Rule} {c : Cursor} (h : p.Accepts c) : (named rule p).Accepts c := by
  unfold Accepts named at *
  cases hp : (p c).outcome with
  | none =>
    rw [hp] at h
    cases h
  | some r => simp only [hp, Option.isSome_some]

namespace Stays

theorem pure {a : α} (h : Q a) : (Pure.pure a : Parser α).Stays o Q := fun _ hc => .read hc h trivial

theorem fail : (Parser.fail : Parser α).Stays o Q := fun _ _ => .refused trivial

theorem bind (h : p.Stays o Q) (hf : ∀ a, Q a → (f a).Stays o R) : (p >>= f).Stays o R := by
  intro c hc
  have hp := h c hc
  show (Parser.bind p f c).Stays o R
  unfold Parser.bind
  generalize p c = r at hp
  cases hp with
  | read hc' ha ht => exact (hf _ ha _ hc').behind ht
  | refused ht => exact .refused ht

theorem mono {Q' : α → Prop} (h : p.Stays o Q) (hQ : ∀ a, Q a → Q' a) : p.Stays o Q' :=
  fun c hc => (h c hc).imp fun _ => hQ

/-- What was read first does not matter for what is read behind it. -/
theorem seq (h : p.Stays o Q) (hf : ∀ a, (f a).Stays o R) : (p >>= f).Stays o R :=
  .bind h fun a _ => hf a

theorem orElse (hp : p.Stays o Q) (hq : q.Stays o Q) : (p <|> q).Stays o Q := by
  intro c hc
  have hpc := hp c hc
  show (Parser.orElse p (fun _ => q) c).Stays o Q
  unfold Parser.orElse
  generalize p c = r at hpc
  cases hpc with
  | read hc' ha ht => exact .read hc' ha ht
  | refused ht => exact (hq c hc).behind ht

theorem named {rule : Rule} (h : p.Stays o Q) : (Parser.named rule p).Stays o Q := by
  intro c hc
  have hp := h c hc
  unfold Parser.named
  generalize p c = r at hp
  cases hp with
  | read hc' ha ht => exact .read hc' ha ht
  | refused ht => exact .refused ⟨⟨c, hc, rfl⟩, ht⟩

theorem optional (h : p.Stays o Q) : (Parser.optional p).Stays o fun a => ∀ b ∈ a, Q b := by
  intro c hc
  have hp := h c hc
  unfold Parser.optional
  generalize p c = r at hp
  cases hp with
  | read hc' ha ht => exact .read hc' (fun b hb => Option.some.inj hb ▸ ha) ht
  | refused ht => exact .read hc nofun ht

theorem scan (s : Scanner α) : (Parser.scan s).Stays o fun _ => True := by
  intro c hc
  unfold Parser.scan
  cases s c.rest with
  | none => exact .refused trivial
  | some r => exact .read (hc.advance r.2) trivial trivial

theorem skip : Parser.skip.Stays o fun _ => True := fun _ hc => .read (hc.advance _) trivial trivial

theorem symbol (text : String) : (Parser.symbol text).Stays o fun _ => True := .scan _

theorem token (rule : Rule) (s : Scanner α) : (Parser.token rule s).Stays o fun _ => True :=
  .named (.scan s)

theorem keyword (k : Keyword) : (Parser.keyword k).Stays o fun _ => True := .token _ _

theorem identifier : Parser.identifier.Stays o fun _ => True := .token _ _

theorem manyUpTo (h : p.Stays o Q) (limit : Nat) :
    (Parser.manyUpTo p limit).Stays o fun as => ∀ a ∈ as, Q a := by
  induction limit with
  | zero => exact .pure (List.forall_mem_nil _)
  | succ limit ih =>
    intro c hc
    have hpart : (Parser.skip >>= fun _ => p).Stays o Q := .seq .skip fun _ => h
    have hp := hpart c hc
    unfold Parser.manyUpTo
    dsimp only
    generalize (Parser.skip >>= fun _ => p) c = r at hp
    cases hp with
    | refused ht => exact .read hc (List.forall_mem_nil _) ht
    | @read a c' _ hc' ha ht =>
      have hrest := ih c' hc'
      dsimp only
      generalize Parser.manyUpTo p limit c' = r at hrest
      cases hrest with
      | read hc'' has ht' => exact .read hc'' (List.forall_mem_cons.2 ⟨ha, has⟩) (ht.append ht')
      | refused ht' => exact .refused (ht.append ht')

theorem many (h : p.Stays o Q) : (Parser.many p).Stays o fun as => ∀ a ∈ as, Q a :=
  fun c => manyUpTo h _ c

theorem separated (h : p.Stays o Q) : (Parser.separated p).Stays o fun as => ∀ a ∈ as, Q a := by
  refine .bind h fun a ha => .bind (.many ?_) fun as has => .pure (List.forall_mem_cons.2 ⟨ha, has⟩)
  exact .seq (.symbol _) fun _ => .seq .skip fun _ => h

theorem separatedOrNone (h : p.Stays o Q) :
    (Parser.separatedOrNone p).Stays o fun as => ∀ a ∈ as, Q a :=
  .bind (.optional (.separated h)) fun _ has => .pure (forall_mem_getD has)

/-- A part that notes where it begins. What it reads may depend on its being read from there. -/
theorem node {rule : Rule} {f : Location → Parser α}
    (h : ∀ c, o.On c → (f c.place).Stays o fun a =>
      (Parser.named rule (Parser.here >>= f)).Accepts c → Q a) :
    (Parser.named rule (Parser.here >>= f)).Stays o Q := by
  refine .named fun c hc => ?_
  -- the place noted is that of the cursor at hand, so the condition can be met from it
  have hf : ((Parser.here >>= f) c).Stays o _ := (h c hc c hc).behind (t := .none) trivial
  exact hf.imp fun haccepts a ha => ha (accepts_named haccepts)

/-- A token behind the place where it begins. -/
theorem tokenAt {g : Location → α → Parser β} (hp : p.Stays o Q)
    (hg : ∀ c, o.On c → p.Accepts c → ∀ a, Q a → (g c.place a).Stays o R) :
    (Parser.here >>= fun place => p >>= g place).Stays o R := by
  intro c hc
  refine Reply.Stays.behind (t := .none) ?_ trivial
  show (Parser.bind p (g c.place) c).Stays o R
  have hpc := hp c hc
  unfold Parser.bind
  have haccepts := hg c hc
  unfold Accepts at haccepts
  generalize p c = r at hpc haccepts
  cases hpc with
  | read hc' ha ht => exact (haccepts rfl _ ha _ hc').behind ht
  | refused ht => exact .refused ht

end Stays
end Parser
end

/-! ### The grammar -/

namespace Parser.Stays
variable {o : Source}

theorem plainType (rule : Rule) (k : Keyword) {type : TypeSyntax} (h : type.nodes = []) :
    (Parser.plainType rule k type).Stays o fun t => o.BeginsAll t.nodes :=
  .named (.seq (.keyword k) fun _ => .pure (h ▸ List.forall_mem_nil _))

theorem bitsType : Parser.bitsType.Stays o fun t => o.BeginsAll t.nodes := by
  refine .node fun c hc => .seq (.keyword _) fun _ => .seq .skip fun _ => ?_
  refine .seq (.symbol _) fun _ => .seq .skip fun _ => .seq (.token _ _) fun _ => .seq .skip fun _ => ?_
  exact .seq (.symbol _) fun _ => .pure fun h => List.forall_mem_singleton.2 ⟨c, hc, rfl, h⟩

theorem classType : Parser.classType.Stays o fun t => o.BeginsAll t.nodes :=
  .node fun c hc => .seq .identifier fun _ =>
    .pure fun h => List.forall_mem_singleton.2 ⟨c, hc, rfl, h⟩

theorem fieldTypeTo (depth : Nat) :
    (Parser.fieldTypeTo depth).Stays o fun t => o.BeginsAll t.nodes := by
  induction depth with
  | zero => exact .fail
  | succ depth ih =>
    have listType : (Parser.listType (Parser.fieldTypeTo depth)).Stays o fun t =>
        o.BeginsAll t.nodes := by
      refine .named (.seq (.keyword _) fun _ => .seq .skip fun _ => .seq (.symbol _) fun _ => ?_)
      refine .seq .skip fun _ => .bind ih fun element helement => .seq .skip fun _ => ?_
      exact .seq (.symbol _) fun _ => .pure helement
    refine .named (.orElse .bitsType (.orElse listType (.orElse (.plainType _ _ rfl) ?_)))
    refine .orElse (.plainType _ _ rfl) (.orElse (.plainType _ _ rfl) (.orElse (.plainType _ _ rfl) ?_))
    exact .orElse (.plainType _ _ rfl) .classType

theorem fieldType : Parser.fieldType.Stays o fun t => o.BeginsAll t.nodes := fun c => fieldTypeTo _ c

/-! #### Values -/

theorem integer : Parser.integer.Stays o fun v => o.BeginsAll v.nodes :=
  .tokenAt (.token _ _) fun c hc h _ _ => .pure (List.forall_mem_singleton.2 ⟨c, hc, rfl, h⟩)

theorem string : Parser.string.Stays o fun v => o.BeginsAll v.nodes :=
  .tokenAt (.token _ _) fun c hc h _ _ => .pure (List.forall_mem_singleton.2 ⟨c, hc, rfl, h⟩)

theorem reference : Parser.reference.Stays o fun v => o.BeginsAll v.nodes :=
  .tokenAt (.named .identifier) fun c hc h _ _ => .pure (List.forall_mem_singleton.2 ⟨c, hc, rfl, h⟩)

-- one level of the values that contain values, which are read to some depth
section
variable {depth : Nat} (h : (valueTo depth).Stays o fun v => o.BeginsAll v.nodes)
include h

theorem values : (Parser.separatedOrNone (valueTo depth)).Stays o fun vs =>
    o.BeginsAll (ValueSyntax.nodesAll vs) :=
  (separatedOrNone h).mono fun vs hvs => ValueSyntax.nodesAll_eq vs ▸ List.forall_mem_flatMap.2 hvs

theorem bitsInit : (Parser.bitsInit (valueTo depth)).Stays o fun v => o.BeginsAll v.nodes := by
  refine .node fun c hc => .seq (.symbol _) fun _ => .seq .skip fun _ => ?_
  refine .bind (values h) fun items hitems => .seq .skip fun _ => .seq (.symbol _) fun _ => ?_
  exact .pure fun haccepts => List.forall_mem_cons.2 ⟨⟨c, hc, rfl, depth, haccepts⟩, hitems⟩

theorem listInit : (Parser.listInit (valueTo depth)).Stays o fun v => o.BeginsAll v.nodes := by
  have suffix : Parser.listSuffix.Stays o fun t => o.BeginsAll t.nodes := by
    refine .named (.seq (.symbol _) fun _ => .seq .skip fun _ => .bind .fieldType fun t ht => ?_)
    exact .seq .skip fun _ => .seq (.symbol _) fun _ => .pure ht
  refine .node fun c hc => .seq (.symbol _) fun _ => .seq .skip fun _ => ?_
  refine .bind (values h) fun items hitems => .seq .skip fun _ => .seq (.symbol _) fun _ => ?_
  refine .seq .skip fun _ => .bind (.optional suffix) fun element helement => .pure fun haccepts => ?_
  have hplace : o.Begins ⟨.listInit, c.place⟩ := ⟨c, hc, rfl, depth, haccepts⟩
  cases element with
  | none => exact List.forall_mem_cons.2 ⟨hplace, hitems⟩
  | some t =>
    exact List.forall_mem_cons.2 ⟨hplace, List.forall_mem_append.2 ⟨hitems, helement t rfl⟩⟩

theorem dagArg : (Parser.dagArg (valueTo depth)).Stays o fun a =>
    o.BeginsAll (ValueSyntax.nodesOption a.value) := by
  refine .named (.orElse (.seq (.token _ _) fun _ => .pure (List.forall_mem_nil _)) ?_)
  refine .bind h fun v hv => .seq .skip fun _ => ?_
  refine .seq (.optional (Q := fun _ => True) ?_) fun _ => .pure hv
  exact .seq (.symbol _) fun _ => .seq .skip fun _ => .token _ _

theorem dagInit : (Parser.dagInit (valueTo depth)).Stays o fun v => o.BeginsAll v.nodes := by
  refine .node fun c hc => .seq (.symbol _) fun _ => .seq .skip fun _ => ?_
  refine .tokenAt (.named (.named .identifier)) fun c' hc' hoperator _ _ => .seq .skip fun _ => ?_
  refine .bind (separatedOrNone (dagArg h)) fun args hargs => .seq .skip fun _ => ?_
  refine .seq (.symbol _) fun _ => .pure fun haccepts => ?_
  have hnodes : o.BeginsAll (ValueSyntax.nodesArgs args) :=
    ValueSyntax.nodesArgs_eq args ▸ List.forall_mem_flatMap.2 hargs
  exact List.forall_mem_cons.2 ⟨⟨c, hc, rfl, depth, haccepts⟩,
    List.forall_mem_cons.2 ⟨⟨c', hc', rfl, hoperator⟩, hnodes⟩⟩

theorem bangOp : (Parser.bangOp (valueTo depth)).Stays o fun v => o.BeginsAll v.nodes := by
  refine .node fun c hc => .seq (.token _ _) fun _ => .seq .skip fun _ => .seq (.symbol _) fun _ => ?_
  refine .seq .skip fun _ => .bind (values h) fun args hargs => .seq .skip fun _ => ?_
  refine .seq (.symbol _) fun _ => .pure fun haccepts => ?_
  exact List.forall_mem_cons.2 ⟨⟨c, hc, rfl, depth, haccepts⟩, hargs⟩

end

theorem valueTo (depth : Nat) : (Parser.valueTo depth).Stays o fun v => o.BeginsAll v.nodes := by
  induction depth with
  | zero => exact .fail
  | succ depth ih =>
    have unset : Parser.unset.Stays o fun v => o.BeginsAll v.nodes :=
      .named (.seq (.symbol _) fun _ => .pure (List.forall_mem_nil _))
    have boolean : Parser.boolean.Stays o fun v => o.BeginsAll v.nodes :=
      .named (.orElse (.seq (.keyword _) fun _ => .pure (List.forall_mem_nil _))
        (.seq (.keyword _) fun _ => .pure (List.forall_mem_nil _)))
    have code : Parser.code.Stays o fun v => o.BeginsAll v.nodes :=
      .seq (.token _ _) fun _ => .pure (List.forall_mem_nil _)
    refine .orElse unset (.orElse boolean (.orElse .integer (.orElse .string (.orElse code ?_))))
    refine .orElse (.bitsInit ih) (.orElse (.listInit ih) (.orElse (.dagInit ih) ?_))
    exact .orElse (.bangOp ih) .reference

theorem value : Parser.value.Stays o fun v => o.BeginsAll v.nodes := fun c => valueTo _ c

theorem initializer : Parser.initializer.Stays o fun v => o.BeginsAll (ValueSyntax.nodesOption v) := by
  refine (Stays.optional (.seq (.symbol _) fun _ => .seq .skip fun _ => .value)).mono fun v hv => ?_
  cases v with
  | none => exact List.forall_mem_nil _
  | some v => exact hv v rfl

/-! #### Declarations -/

/-- What is read of a binding, whose place is noted before. -/
theorem binding (place : Location) :
    (Parser.binding place).Stays o fun l => l.place = place ∧ o.BeginsAll l.value.nodes := by
  refine .seq .identifier fun _ => .seq .skip fun _ => .seq (.symbol _) fun _ => .seq .skip fun _ => ?_
  exact .bind .value fun v hv => .pure ⟨rfl, hv⟩

theorem letBinding : Parser.letBinding.Stays o fun l => o.BeginsAll (l.nodes .letBinding) :=
  .node fun c hc => (binding c.place).mono fun _ hl haccepts =>
    List.forall_mem_cons.2 ⟨⟨c, hc, hl.1.symm, haccepts⟩, hl.2⟩

theorem templateParam : Parser.templateParam.Stays o fun p => o.BeginsAll p.nodes := by
  refine .node fun c hc => .bind .fieldType fun type htype => .seq .skip fun _ => ?_
  refine .seq .identifier fun _ => .seq .skip fun _ => .bind .initializer fun default hdefault => ?_
  refine .pure fun haccepts => List.forall_mem_cons.2 ⟨⟨c, hc, rfl, haccepts⟩, ?_⟩
  exact List.forall_mem_append.2 ⟨htype, hdefault⟩

theorem templateParams : Parser.templateParams.Stays o fun ps => ∀ p ∈ ps, o.BeginsAll p.nodes := by
  refine .named (.seq (.symbol _) fun _ => .seq .skip fun _ => ?_)
  refine .bind (.separated .templateParam) fun ps hps => .seq .skip fun _ => ?_
  exact .seq (.symbol _) fun _ => .pure hps

theorem parent : Parser.parent.Stays o fun p => o.BeginsAll p.nodes := by
  have args : Parser.parentArgs.Stays o fun vs => ∀ v ∈ vs, o.BeginsAll v.nodes := by
    refine .named (.seq (.symbol _) fun _ => .seq .skip fun _ => ?_)
    refine .bind (.separatedOrNone .value) fun vs hvs => .seq .skip fun _ => ?_
    exact .seq (.symbol _) fun _ => .pure hvs
  refine .node fun c hc => .seq .identifier fun _ => .seq .skip fun _ => ?_
  refine .bind (.optional args) fun vs hvs => .pure fun haccepts => ?_
  refine List.forall_mem_cons.2 ⟨⟨c, hc, rfl, haccepts⟩, ?_⟩
  rw [ValueSyntax.nodesAll_eq]
  exact List.forall_mem_flatMap.2 (forall_mem_getD hvs)

theorem parentList : Parser.parentList.Stays o fun ps => ∀ p ∈ ps, o.BeginsAll p.nodes :=
  .named (.seq (.symbol _) fun _ => .seq .skip fun _ => .separated .parent)

theorem fieldLet : Parser.fieldLet.Stays o fun i => o.BeginsAll i.nodes := by
  refine .node fun c hc => .seq (.keyword _) fun _ => .seq .skip fun _ => ?_
  refine .bind (.binding c.place) fun l hl => .seq .skip fun _ => .seq (.symbol _) fun _ => ?_
  exact .pure fun haccepts => List.forall_mem_cons.2 ⟨⟨c, hc, hl.1.symm, haccepts⟩, hl.2⟩

theorem fieldDecl : Parser.fieldDecl.Stays o fun i => o.BeginsAll i.nodes := by
  refine .node fun c hc => .seq (.optional (.keyword _)) fun _ => .seq .skip fun _ => ?_
  refine .bind .fieldType fun type htype => .seq .skip fun _ => .seq .identifier fun _ => ?_
  refine .seq .skip fun _ => .bind .initializer fun value hvalue => .seq .skip fun _ => ?_
  refine .seq (.symbol _) fun _ => .pure fun haccepts => ?_
  exact List.forall_mem_cons.2 ⟨⟨c, hc, rfl, haccepts⟩, List.forall_mem_append.2 ⟨htype, hvalue⟩⟩

theorem body : Parser.body.Stays o fun is => ∀ i ∈ is, o.BeginsAll i.nodes := by
  refine .named (.orElse (.seq (.symbol _) fun _ => .pure (List.forall_mem_nil _)) ?_)
  refine .seq (.symbol _) fun _ => .seq .skip fun _ => ?_
  refine .bind (.many (.orElse .fieldLet .fieldDecl)) fun is his => .seq .skip fun _ => ?_
  exact .seq (.symbol _) fun _ => .pure his

/-! #### Statements -/

theorem inclusion : Parser.inclusion.Stays o fun s => o.BeginsAll s.nodes := by
  refine .node fun c hc => .seq (.keyword _) fun _ => .seq .skip fun _ => ?_
  refine .tokenAt (.token _ _) fun c' hc' hfile _ _ => .pure fun haccepts => ?_
  exact List.forall_mem_cons.2 ⟨⟨c, hc, rfl, haccepts⟩,
    List.forall_mem_singleton.2 ⟨c', hc', rfl, hfile⟩⟩

theorem classDecl : Parser.classDecl.Stays o fun s => o.BeginsAll s.nodes := by
  refine .node fun c hc => .seq (.keyword _) fun _ => .seq .skip fun _ => ?_
  refine .tokenAt .identifier fun c' hc' hname _ _ => .seq .skip fun _ => ?_
  refine .bind (.optional .templateParams) fun params hparams => .seq .skip fun _ => ?_
  refine .bind (.optional .parentList) fun parents hparents => .seq .skip fun _ => ?_
  refine .bind .body fun body hbody => .pure fun haccepts => ?_
  refine List.forall_mem_cons.2 ⟨⟨c, hc, rfl, haccepts⟩,
    List.forall_mem_cons.2 ⟨⟨c', hc', rfl, hname⟩, List.forall_mem_append.2 ⟨?_, ?_⟩⟩⟩
  · exact List.forall_mem_append.2 ⟨List.forall_mem_flatMap.2 (forall_mem_getD hparams),
      List.forall_mem_flatMap.2 (forall_mem_getD hparents)⟩
  · exact List.forall_mem_flatMap.2 hbody

theorem defDecl : Parser.defDecl.Stays o fun s => o.BeginsAll s.nodes := by
  refine .node fun c hc => .seq (.keyword _) fun _ => .seq .skip fun _ => ?_
  refine .seq (.optional .identifier) fun _ => .seq .skip fun _ => ?_
  refine .bind (.optional .parentList) fun parents hparents => .seq .skip fun _ => ?_
  refine .bind .body fun body hbody => .pure fun haccepts => ?_
  refine List.forall_mem_cons.2 ⟨⟨c, hc, rfl, haccepts⟩, List.forall_mem_append.2 ⟨?_, ?_⟩⟩
  · exact List.forall_mem_flatMap.2 (forall_mem_getD hparents)
  · exact List.forall_mem_flatMap.2 hbody

theorem letScope {statement : Parser Statement} (h : statement.Stays o fun s => o.BeginsAll s.nodes) :
    (Parser.letScope statement).Stays o fun ss => ∀ s ∈ ss, o.BeginsAll s.nodes := by
  refine .named (.orElse (.seq (.symbol _) fun _ => .seq .skip fun _ => ?_) ?_)
  · refine .bind (.many h) fun body hbody => .seq .skip fun _ => ?_
    exact .seq (.symbol _) fun _ => .pure hbody
  · exact .bind h fun s hs => .pure (List.forall_mem_singleton.2 hs)

theorem statementTo (depth : Nat) :
    (Parser.statementTo depth).Stays o fun s => o.BeginsAll s.nodes := by
  induction depth with
  | zero => exact .fail
  | succ depth ih =>
    refine .orElse .inclusion (.orElse .classDecl (.orElse .defDecl (.named ?_)))
    refine .seq (.keyword _) fun _ => .seq .skip fun _ => .bind (.separated .letBinding) fun ls hls => ?_
    refine .seq .skip fun _ => .seq (.keyword _) fun _ => .seq .skip fun _ => ?_
    refine .bind (.letScope ih) fun body hbody => .pure (List.forall_mem_append.2 ⟨?_, ?_⟩)
    · exact List.forall_mem_flatMap.2 hls
    · exact Statement.nodesAll_eq body ▸ List.forall_mem_flatMap.2 hbody

theorem file : Parser.file.Stays o fun ss => o.BeginsAll (Statement.nodesAll ss) := by
  have statement : Parser.statement.Stays o fun s => o.BeginsAll s.nodes := fun c => statementTo _ c
  have endOfInput : Parser.endOfInput.Stays o fun _ => True := by
    refine .named fun c hc => ?_
    split_ifs
    · exact .read hc trivial trivial
    · exact .refused trivial
  refine .named (.seq .skip fun _ => .bind (.many statement) fun ss hss => .seq .skip fun _ => ?_)
  exact .seq endOfInput fun _ => .pure (Statement.nodesAll_eq ss ▸ List.forall_mem_flatMap.2 hss)

end Parser.Stays

/-! ### Whole texts -/

namespace Source
variable {o : Source}

/-- All nodes of the statements that a text is read as begin on the text. -/
theorem begins_of_readStatements {statements : List Statement}
    (h : readStatements o.name o.text = .ok statements) :
    o.BeginsAll (Statement.nodesAll statements) := by
  have hfile := Parser.Stays.file _ o.on_start
  unfold readStatements at h
  generalize Parser.file (Cursor.start o.name o.text) = r at h hfile
  cases hfile with
  | read hc hnodes ht => exact Except.ok.inj h ▸ hnodes
  | refused ht => cases h

/-- A text that is refused is refused at a place of it. -/
theorem has_of_readStatements {e : SyntaxError} (h : readStatements o.name o.text = .error e) :
    o.Has e.place := by
  have hfile := Parser.Stays.file _ o.on_start
  unfold readStatements at h
  generalize Parser.file (Cursor.start o.name o.text) = r at h hfile
  cases hfile with
  | read hc hnodes ht => cases h
  | refused ht => exact Except.error.inj h ▸ Furthest.place_add ⟨_, o.on_start, rfl⟩ ht

end Source
end TypedRecords
