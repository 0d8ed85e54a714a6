import TypedRecords.Proofs.Together.Run

/-!
# Renaming template parameters

A template parameter is seen from its declaration on: in the defaults of later parameters, in the
arguments of parents and in the body. Calling it otherwise in all these places, by a name that stands in
none of them, changes nothing that a run leaves (`SearchPath.process_renamed`), and there is such a
renaming for every parameter of every class (`Statement.related_rename`).
-/

namespace TypedRecords

/-! ### What a renaming is -/

/-- The renaming of `p` to `q` makes `b` of `a`, which is not `q`. -/
def Renaming (p q a b : String) : Prop := a ≠ q ∧ b = if a = p then q else a

/-- Parameters that see the renamed one. A parameter that has the same name has the same new one. -/
inductive ParamSyntax.RenamesLater (p q : String) : List ParamSyntax → List ParamSyntax → Prop
  | nil : RenamesLater p q [] []
  | cons {x y : ParamSyntax} {xs ys : List ParamSyntax} (htype : x.type.Similar y.type)
      (hname : Renaming p q x.name y.name)
      (hdefault : Option.Rel (ValueSyntax.Similar (Renaming p q)) x.default y.default)
      (hrest : RenamesLater p q xs ys) : RenamesLater p q (x :: xs) (y :: ys)

/-- One parameter is called `q` instead of `p`. The defaults of those before it, and its own, do not
see it. -/
inductive ParamSyntax.Renames (p q : String) : List ParamSyntax → List ParamSyntax → Prop
  | earlier {x y : ParamSyntax} {xs ys : List ParamSyntax} (htype : x.type.Similar y.type)
      (hname : x.name = y.name) (hp : x.name ≠ p) (hq : x.name ≠ q)
      (hdefault : Option.Rel (ValueSyntax.Similar Eq) x.default y.default)
      (hrest : Renames p q xs ys) : Renames p q (x :: xs) (y :: ys)
  | declared {x y : ParamSyntax} {xs ys : List ParamSyntax} (htype : x.type.Similar y.type)
      (hp : x.name = p) (hq : y.name = q)
      (hdefault : Option.Rel (ValueSyntax.Similar Eq) x.default y.default)
      (hrest : RenamesLater p q xs ys) : Renames p q (x :: xs) (y :: ys)

/-- The class with its parameter `p` renamed to `q`, and otherwise the same but for places. -/
structure ClassSyntax.Renames (p q : String) (c c' : ClassSyntax) : Prop where
  name : c.name = c'.name
  ne : p ≠ q
  params : ParamSyntax.Renames p q c.params c'.params
  parents : List.Forall₂ (ParentSyntax.Similar (Renaming p q)) c.parents c'.parents
  body : List.Forall₂ (ItemSyntax.Similar (Renaming p q)) c.body c'.body

/-- The class is the same but for places, or but for the name of one parameter. -/
def ClassSyntax.Renamed (c c' : ClassSyntax) : Prop :=
  c.Similar c' ∧ c.paramNames = c'.paramNames ∨ ∃ p q, c.Renames p q c'

/-- All defs stand in their order. -/
abbrev InOrder (_ _ _ _ : DefSyntax) : Prop := False

/-! ### Renamed classes are similar -/

section
variable {p q : String}

theorem Renaming.eq_iff {a b x y : String} (hx : Renaming p q x y) (ha : Renaming p q a b) :
    x = a ↔ y = b := by
  obtain ⟨hxq, rfl⟩ := hx
  obtain ⟨haq, rfl⟩ := ha
  constructor
  · rintro rfl
    rfl
  · intro h
    split at h <;> split at h <;> simp_all

theorem Renaming.mem_iff {a b : String} {xs ys : List String} (h : List.Forall₂ (Renaming p q) xs ys)
    (ha : Renaming p q a b) : a ∈ xs ↔ b ∈ ys := by
  induction h with
  | nil => simp
  | cons hx _ ih => rw [List.mem_cons, List.mem_cons, ih, eq_comm, hx.eq_iff ha, eq_comm]

/-- Under the renamed parameter identifiers correspond as they are renamed. -/
theorem Renaming.corresponds {a b : String} {xs ys : List String}
    (h : List.Forall₂ (Renaming p q) xs ys) (ha : Renaming p q a b) (hp : a = p → p ∈ xs) :
    Corresponds Eq xs ys a b := by
  induction h with
  | nil =>
    have hne : a ≠ p := fun h => List.not_mem_nil (hp h)
    exact .free (by rw [ha.2, if_neg hne])
  | @cons x y xs ys hx _ ih =>
    by_cases hxa : x = a
    · obtain rfl := (hx.eq_iff ha).1 hxa
      exact hxa ▸ .here
    · refine .there hxa (fun hy => hxa ((hx.eq_iff ha).2 hy)) (ih fun hap => ?_)
      exact List.mem_of_ne_of_mem (fun hpx => hxa (hpx.symm.trans hap.symm)) (hp hap)

theorem renaming_of_ne {a : String} (hp : a ≠ p) (hq : a ≠ q) : Renaming p q a a :=
  ⟨hq, (if_neg hp).symm⟩

theorem renaming_self (hne : p ≠ q) : Renaming p q p q := ⟨hne, (if_pos rfl).symm⟩

namespace ParamSyntax

theorem RenamesLater.names {ps qs : List ParamSyntax} (h : RenamesLater p q ps qs) :
    List.Forall₂ (Renaming p q) (ps.map name) (qs.map name) := by
  induction h with
  | nil => exact .nil
  | cons _ hname _ _ ih => exact .cons hname ih

theorem Renames.names {ps qs : List ParamSyntax} (h : Renames p q ps qs) (hne : p ≠ q) :
    List.Forall₂ (Renaming p q) (ps.map name) (qs.map name) ∧ p ∈ ps.map name := by
  induction h with
  | earlier _ hname hp hq _ _ ih =>
    exact ⟨.cons (hname ▸ renaming_of_ne hp hq) ih.1, List.mem_cons_of_mem _ ih.2⟩
  | declared _ hp hq _ hrest =>
    refine ⟨.cons ?_ hrest.names, List.mem_map.2 ⟨_, List.mem_cons_self .., hp⟩⟩
    rw [hp, hq]
    exact renaming_self hne

theorem RenamesLater.similar {ps qs : List ParamSyntax} (h : RenamesLater p q ps qs)
    {xs ys : List String} (hxs : List.Forall₂ (Renaming p q) xs ys) (hp : p ∈ xs) :
    SimilarAll xs ys ps qs := by
  induction h generalizing xs ys with
  | nil => exact .nil
  | cons htype hname hdefault _ ih =>
    refine .cons htype ?_ (Renaming.mem_iff hxs hname) (ih ?_ (List.mem_append_left _ hp))
    · exact optionRel_imp (fun _ _ h => h.imp fun _ _ hab => hab.corresponds hxs fun _ => hp) hdefault
    · exact List.rel_append hxs (.cons hname .nil)

/-- Parameters of which one is renamed are similar behind others of neither name. -/
theorem Renames.similar {ps qs : List ParamSyntax} (h : Renames p q ps qs) (hne : p ≠ q)
    {xs : List String} (hp : p ∉ xs) (hq : q ∉ xs) : SimilarAll xs xs ps qs := by
  have hself : ∀ xs : List String, ∀ v v' : ValueSyntax, v.Similar Eq v' →
      v.Similar (Corresponds Eq xs xs) v' := fun xs _ _ h => h.imp fun a b hab => hab ▸ .self rfl xs
  -- up to the declaration the parameters have the same names, so `xs` stands on both sides
  induction h generalizing xs with
  | earlier htype hname hxp hxq hdefault _ ih =>
    refine .cons htype (optionRel_imp (hself xs) hdefault) (by rw [hname]) (hname ▸ ih ?_ ?_)
    · simpa [hp] using hxp.symm
    · simpa [hq] using hxq.symm
  | declared htype hp' hq' hdefault hrest =>
    subst hp' hq'
    refine .cons htype (optionRel_imp (hself xs) hdefault) (iff_of_false hp hq) (hrest.similar ?_ ?_)
    · refine List.rel_append (List.forall₂_same.2 fun a ha => ?_) (.cons (renaming_self hne) .nil)
      exact renaming_of_ne (fun h => hp (h ▸ ha)) fun h => hq (h ▸ ha)
    · exact List.mem_append_right _ (List.mem_singleton_self _)

end ParamSyntax

namespace ClassSyntax

theorem Renames.similar {c c' : ClassSyntax} (h : c.Renames p q c') : c.Similar c' := by
  obtain ⟨hnames, hp⟩ := h.params.names h.ne
  have hcorresponds : ∀ a b, Renaming p q a b → Corresponds Eq c.paramNames c'.paramNames a b :=
    fun a b hab => hab.corresponds hnames fun _ => hp
  exact
    { name := h.name
      params := h.params.similar h.ne List.not_mem_nil List.not_mem_nil
      parents := h.parents.imp fun _ _ h => h.imp hcorresponds
      body := h.body.imp fun _ _ h => h.imp hcorresponds }

theorem Renamed.similar {c c' : ClassSyntax} (h : c.Renamed c') : c.Similar c' := by
  obtain ⟨h, -⟩ | ⟨p, q, h⟩ := h
  · exact h
  · exact h.similar

end ClassSyntax
end

/-! ### Every parameter can be renamed -/

namespace ValueSyntax

mutual

/-- The value with the identifier `p` called `q`. -/
def rename (p q : String) : ValueSyntax → ValueSyntax
  | reference name place => .reference (if name = p then q else name) place
  | bits items place => .bits (renameAll p q items) place
  | list items element place => .list (renameAll p q items) element place
  | dag operator operatorPlace args place =>
    .dag (if operator = p then q else operator) operatorPlace (renameArgs p q args) place
  | bang operator args place => .bang operator (renameAll p q args) place
  | unset => .unset
  | boolean truth => .boolean truth
  | integer literal place => .integer literal place
  | string body place => .string body place
  | code body => .code body

def renameAll (p q : String) : List ValueSyntax → List ValueSyntax
  | [] => []
  | v :: vs => v.rename p q :: renameAll p q vs

def renameArgs (p q : String) : List (DagArg ValueSyntax) → List (DagArg ValueSyntax)
  | [] => []
  | ⟨name, some v⟩ :: as => ⟨name, some (v.rename p q)⟩ :: renameArgs p q as
  | ⟨name, none⟩ :: as => ⟨name, none⟩ :: renameArgs p q as

end

variable {p q : String}

mutual

theorem similar_rename : ∀ v : ValueSyntax, v.mentions q = false →
    v.Similar (Renaming p q) (v.rename p q)
  | .unset, _ => .unset
  | .boolean truth, _ => .boolean truth
  | .integer literal place, _ => .integer literal place place
  | .string body place, _ => .string body place place
  | .code body, _ => .code body
  | .bits items _, h => .bits (similarAll_renameAll items h)
  | .list items element _, h =>
    .list (similarAll_renameAll items h) (optionRel_self TypeSyntax.similar_self element)
  | .bang _ args _, h => .bang (similarAll_renameAll args h)
  | .reference _ _, h => .reference ⟨of_decide_eq_false h, rfl⟩
  | .dag _ _ args _, h => by
    obtain ⟨ho, hargs⟩ := Bool.or_eq_false_iff.1 h
    exact .dag ⟨of_decide_eq_false ho, rfl⟩ (similarArgs_renameArgs args hargs)

theorem similarAll_renameAll : ∀ vs : List ValueSyntax, mentionsAny q vs = false →
    SimilarAll (Renaming p q) vs (renameAll p q vs)
  | [], _ => .nil
  | v :: vs, h => by
    obtain ⟨hv, hvs⟩ := Bool.or_eq_false_iff.1 h
    exact .cons (similar_rename v hv) (similarAll_renameAll vs hvs)

theorem similarArgs_renameArgs : ∀ as : List (DagArg ValueSyntax), mentionsArgs q as = false →
    SimilarArgs (Renaming p q) as (renameArgs p q as)
  | [], _ => .nil
  | ⟨_, some v⟩ :: as, h => by
    obtain ⟨hv, has⟩ := Bool.or_eq_false_iff.1 h
    exact .value (similar_rename v hv) (similarArgs_renameArgs as has)
  | ⟨_, none⟩ :: as, h => .none (similarArgs_renameArgs as h)

end

end ValueSyntax

theorem optionRel_map {α : Type} {R : α → α → Prop} {f : α → α} :
    ∀ {o : Option α}, (∀ a ∈ o, R a (f a)) → Option.Rel R o (o.map f)
  | some a, h => .some (h a rfl)
  | none, _ => .none

namespace ParamSyntax
variable {p q : String}

def mentions (name : String) (x : ParamSyntax) : Bool :=
  x.name = name || x.default.any (·.mentions name)

def rename (p q : String) (x : ParamSyntax) : ParamSyntax :=
  { x with name := if x.name = p then q else x.name, default := x.default.map (·.rename p q) }

/-- The parameters with `p` called `q` from its declaration on. -/
def renameFrom (p q : String) : List ParamSyntax → List ParamSyntax
  | [] => []
  | x :: xs =>
    if x.name = p then { x with name := q } :: xs.map (rename p q) else x :: renameFrom p q xs

theorem renamesLater_map : ∀ {xs : List ParamSyntax}, (∀ x ∈ xs, x.mentions q = false) →
    RenamesLater p q xs (xs.map (rename p q))
  | [], _ => .nil
  | x :: xs, h => by
    obtain ⟨hx, hxs⟩ := List.forall_mem_cons.1 h
    obtain ⟨hname, hdefault⟩ := Bool.or_eq_false_iff.1 hx
    refine .cons x.type.similar_self ⟨of_decide_eq_false hname, rfl⟩ (optionRel_map fun v hv => ?_)
      (renamesLater_map hxs)
    rw [Option.mem_def.1 hv] at hdefault
    exact v.similar_rename hdefault

theorem renames_renameFrom : ∀ {xs : List ParamSyntax}, p ∈ xs.map name →
    (∀ x ∈ xs, x.mentions q = false) → Renames p q xs (renameFrom p q xs)
  | x :: xs, hp, h => by
    obtain ⟨hx, hxs⟩ := List.forall_mem_cons.1 h
    obtain ⟨hname, -⟩ := Bool.or_eq_false_iff.1 hx
    have hdefault := optionRel_self (fun v : ValueSyntax => v.similar_self fun _ => rfl) x.default
    rw [renameFrom]
    split
    · next hxp => exact .declared x.type.similar_self hxp rfl hdefault (renamesLater_map hxs)
    · next hxp =>
      have hp : p ∈ xs.map name := List.mem_of_ne_of_mem (fun h => hxp h.symm) hp
      exact .earlier x.type.similar_self rfl hxp (of_decide_eq_false hname) hdefault
        (renames_renameFrom hp hxs)

end ParamSyntax

namespace ParentSyntax

def rename (p q : String) (r : ParentSyntax) : ParentSyntax :=
  { r with args := ValueSyntax.renameAll p q r.args }

end ParentSyntax

namespace ItemSyntax

def mentions (name : String) : ItemSyntax → Bool
  | field _ _ value _ => value.any (·.mentions name)
  | override l => l.value.mentions name

def rename (p q : String) : ItemSyntax → ItemSyntax
  | field type name value place => .field type name (value.map (·.rename p q)) place
  | override l => .override { l with value := l.value.rename p q }

theorem similar_rename {p q : String} :
    ∀ i : ItemSyntax, i.mentions q = false → i.Similar (Renaming p q) (i.rename p q)
  | .field type _ value _, h => by
    refine .field type.similar_self (optionRel_map fun v hv => v.similar_rename ?_)
    rw [mentions, Option.mem_def.1 hv] at h
    exact h
  | .override l, h => .override ⟨rfl, l.value.similar_rename h⟩

end ItemSyntax

namespace ClassSyntax
variable {p q : String}

/-- The name is that of a parameter, or it stands in a default, a parent argument or the body. -/
def mentions (name : String) (c : ClassSyntax) : Bool :=
  c.params.any (·.mentions name) || c.parents.any (fun r => ValueSyntax.mentionsAny name r.args) ||
    c.body.any (·.mentions name)

/-- The class with its parameter `p`, if it has one, called `q`. -/
def rename (p q : String) (c : ClassSyntax) : ClassSyntax :=
  if p ∈ c.paramNames then
    { c with
      params := ParamSyntax.renameFrom p q c.params
      parents := c.parents.map (·.rename p q)
      body := c.body.map (·.rename p q) }
  else c

theorem renamed_rename {c : ClassSyntax} (h : c.mentions q = false) : c.Renamed (c.rename p q) := by
  simp only [mentions, Bool.or_eq_false_iff, List.any_eq_false, Bool.not_eq_true] at h
  obtain ⟨⟨hparams, hparents⟩, hbody⟩ := h
  unfold rename
  split
  · next hp =>
    have hne : p ≠ q := by
      rintro rfl
      obtain ⟨x, hx, hname⟩ := List.mem_map.1 hp
      exact of_decide_eq_false (Bool.or_eq_false_iff.1 (hparams x hx)).1 hname
    exact .inr ⟨p, q,
      { name := rfl
        ne := hne
        params := ParamSyntax.renames_renameFrom hp hparams
        parents := List.forall₂_map_right_iff.2 (List.forall₂_same.2 fun r hr =>
          ⟨rfl, ValueSyntax.similarAll_renameAll r.args (hparents r hr)⟩)
        body := List.forall₂_map_right_iff.2 (List.forall₂_same.2 fun i hi =>
          i.similar_rename (hbody i hi)) }⟩
  · exact .inl ⟨c.similar_self, rfl⟩

end ClassSyntax

namespace Statement
variable {name p q : String}

mutual

/-- The statement with the parameter `p` of the class `name` called `q`. -/
def rename (name p q : String) : Statement → Statement
  | includeFile i => .includeFile i
  | classDecl c => .classDecl (if c.name = name then c.rename p q else c)
  | defDecl d => .defDecl d
  | scope ls body => .scope ls (renameAll name p q body)

def renameAll (name p q : String) : List Statement → List Statement
  | [] => []
  | s :: ss => s.rename name p q :: renameAll name p q ss

end

mutual

/-- The class `name` mentions `q`. -/
def mentionsIn (name q : String) : Statement → Bool
  | includeFile _ | defDecl _ => false
  | classDecl c => c.name = name && c.mentions q
  | scope _ body => mentionsAnyIn name q body

def mentionsAnyIn (name q : String) : List Statement → Bool
  | [] => false
  | s :: ss => s.mentionsIn name q || mentionsAnyIn name q ss

end

/-- A parameter of a class can be called by any name that the class does not mention. -/
theorem related_rename : ∀ ss : List Statement, mentionsAnyIn name q ss = false →
    Related ClassSyntax.Renamed InOrder ss (renameAll name p q ss)
  | [], _ => .nil
  | .includeFile _ :: ss, h => .includeFile rfl (related_rename ss h)
  | .defDecl d :: ss, h => .defDecl d.similar_self (related_rename ss h)
  | .scope ls body :: ss, h => by
    obtain ⟨hbody, hss⟩ := Bool.or_eq_false_iff.1 h
    exact .scope (List.forall₂_same.2 fun l _ => l.similar_self fun _ => rfl)
      (related_rename body hbody) (related_rename ss hss)
  | .classDecl c :: ss, h => by
    obtain ⟨hc, hss⟩ := Bool.or_eq_false_iff.1 h
    rw [mentionsIn, Bool.and_eq_false_imp] at hc
    rw [renameAll, rename]
    refine .classDecl ?_ (related_rename ss hss)
    split
    · next hname => exact ClassSyntax.renamed_rename (hc (decide_eq_true hname))
    · exact .inl ⟨c.similar_self, rfl⟩

end Statement

/-! ### Runs -/

namespace SearchPath

theorem process_renamed_together {s s' : SearchPath} (hs : s.Related ClassSyntax.Renamed InOrder s')
    {statements statements' : List Statement}
    (h : Statement.Related ClassSyntax.Renamed InOrder statements statements') :
    (s.process statements).toOption = (s'.process statements').toOption := by
  have hstep := start_inStep (fun _ _ => ClassSyntax.Renamed.similar) hs h
  have hout := hstep.ends_together (fun m m' hcross => by cases hcross with | mk hswap => exact hswap)
    (Moment.start_ends s statements) (Moment.start_ends s' statements')
  exact Together.toOption_eq (hout.bind fun p p' hp => .ok hp)

/-- A parameter of a class can be called by any name that stands nowhere in the class: where the
statements are run with success they still are, and leave the same database. The same holds of texts and
files that differ in nothing else but such renamings and places. -/
theorem process_renamed (s : SearchPath) (statements : List Statement) :
    (∀ name p q, Statement.mentionsAnyIn name q statements = false →
      (s.process (Statement.renameAll name p q statements)).toOption =
        (s.process statements).toOption) ∧
      ∀ (s' : SearchPath) (statements' : List Statement),
        s.Related ClassSyntax.Renamed InOrder s' →
        Statement.Related ClassSyntax.Renamed InOrder statements statements' →
        (s'.process statements').toOption = (s.process statements).toOption ∧
        ∀ source text source' text', readStatements source text = .ok statements →
          readStatements source' text' = .ok statements' →
          (s'.run source' text').toOption = (s.run source text).toOption := by
  have hself : s.Related ClassSyntax.Renamed InOrder s :=
    s.related_self fun c => .inl ⟨c.similar_self, rfl⟩
  refine ⟨fun name p q hq => ?_, fun s' statements' hs h => ?_⟩
  · exact (process_renamed_together hself (Statement.related_rename statements hq)).symm
  · have hout := process_renamed_together hs h
    refine ⟨hout.symm, fun source text source' text' hread hread' => ?_⟩
    rw [run_eq_process hread, run_eq_process hread', hout]

/-- A file with a class that has parameters of the same names. -/
def shadowing : SearchPath where
  tree := (FileTree.emptyAt []).insert "b.td"
    "class B<int p, int q = p> : A<(D p), p> \x7b int y = q; \x7d".toUTF8
  dirs := [""]

/-- A parameter is called like a def, which is meant before its declaration and outside of the class. -/
def shadowingText : String :=
  "def p; def D; class A<dag d = (p), int p = 3, int r = p> \x7b dag e = d; int x = !add(p, r); \x7d " ++
    "include \"b.td\" def X : A; let e = (p) in \x7b def : B<5>; \x7d"

theorem shadowing_renamed :
    ∃ statements, readStatements "main" shadowingText = .ok statements ∧
      Statement.mentionsAnyIn "A" "q" statements = false ∧
      (shadowing.process (Statement.renameAll "A" "p" "q" statements)).toOption =
        (shadowing.process statements).toOption ∧
      (shadowing.process statements).toOption.map (fun db => db.defs.text) =
        some ("def p \x7b\n\x7d\ndef D \x7b\n\x7d\ndef X \x7b\t// A\n  dag e = (p);\n  int x = 6;\n\x7d\n" ++
          "def anonymous_0 \x7b\t// A B\n  dag e = (p);\n  int x = 10;\n  int y = 5;\n\x7d\n") := by
  have hread : ((readStatements "main" shadowingText).toOption.map fun statements =>
      (Statement.mentionsAnyIn "A" "q" statements,
        (shadowing.process statements).toOption.map fun db => db.defs.text)) =
        some (false, some
          ("def p \x7b\n\x7d\ndef D \x7b\n\x7d\ndef X \x7b\t// A\n  dag e = (p);\n  int x = 6;\n\x7d\n" ++
          "def anonymous_0 \x7b\t// A B\n  dag e = (p);\n  int x = 10;\n  int y = 5;\n\x7d\n")) := by
    decide +kernel
  obtain ⟨statements, h, hresult⟩ := ok_of_toOption_map hread
  obtain ⟨hq, htext⟩ := Prod.mk.inj hresult
  exact ⟨statements, h, hq, (process_renamed shadowing statements).1 "A" "p" "q" hq, htext⟩

end SearchPath
end TypedRecords
