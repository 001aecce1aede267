import PklAnalysis.Proofs.Lattice.TakingApart

/-!
# Subtypes that say less

If a type is firmly below another one, vaguer types are below each other.  What the first of the
vaguer types opens to at the end is unknown, or it matches something that is below a type more
precise than the second; pairs of which this holds, `TypeEnv.VaguelyBelow`, follow from each other.
-/

namespace PklAnalysis

namespace TypeEnv

variable (env : TypeEnv Id)

/-- Whatever the first of two types opens to at the end is unknown, or matches something that is
below a more precise type than the second. -/
structure VaguelyBelow (a' b' : Ty) : Prop where
  left : a'.isNormal env.base = true
  right : b'.isNormal env.base = true
  opens : ∀ u', env.Opens a' u' → u'.isHead = true → u' = .unknown ∨
    ∃ u, Ty.SameLeaf (Ty.Vaguer env.base) u' u ∧ env.AboveSome u b'

variable {env}

/-! ## Firm pairs at the end -/

theorem FirmSubtype.rule {u l : Ty} (h : env.FirmSubtype u l) (hne : u ≠ l)
    (hu : u.isFree = false) (hl : l.isFree = false) (hnothing : u ≠ .nothing) :
    env.ShapesFollow env.FirmSubtype u l := by
  rcases h.cases with he | hf | hf | hn | ⟨-, -, hrule⟩
  · exact absurd he hne
  · exact absurd (hu.symm.trans hf) nofun
  · exact absurd (hl.symm.trans hf) nofun
  · exact absurd hn hnothing
  · exact hrule

theorem argAt_zip {ps qs : List Ty} (h : ps.length = qs.length) {X : Ty → Ty → Prop} :
    (∀ e ∈ ps.zip qs, X e.2 e.1) ↔ ∀ i < qs.length, X (argAt qs i) (argAt ps i) := by
  constructor
  · intro hX i hi
    have hi' : i < ps.length := h ▸ hi
    have hmem : (ps[i], qs[i]) ∈ ps.zip qs :=
      List.mem_iff_getElem.mpr ⟨i, by rw [List.length_zip]; omega, by simp⟩
    simpa [argAt, hi, hi'] using hX _ hmem
  · rintro hX e he
    obtain ⟨i, hi, rfl⟩ := List.mem_iff_getElem.mp he
    rw [List.length_zip] at hi
    have hi' : i < ps.length := by omega
    have hi : i < qs.length := by omega
    simpa [argAt, hi, hi'] using hX i hi

theorem argAt_zipIdx {ps args : List Ty} {X : Ty → Ty → Prop} :
    (∀ e ∈ ps.zipIdx, X e.1 (argAt args e.2)) ↔ ∀ i < ps.length, X (argAt ps i) (argAt args i) := by
  constructor
  · intro hX i hi
    have hmem : (ps[i], i) ∈ ps.zipIdx := List.mem_iff_getElem.mpr ⟨i, by simpa using hi, by simp⟩
    simpa [argAt, hi] using hX _ hmem
  · rintro hX e he
    obtain ⟨i, hi, rfl⟩ := List.mem_iff_getElem.mp he
    have hi' : i < ps.length := by simpa using hi
    simpa [argAt, hi'] using hX i hi'

/-- A function that is firmly below another one. -/
theorem FirmSubtype.function {ps qs : List Ty} {r s : Ty}
    (h : env.FirmSubtype (.function ps r) (.function qs s)) :
    ps.length = qs.length ∧ (∀ i < qs.length, env.FirmSubtype (argAt qs i) (argAt ps i)) ∧
      env.FirmSubtype r s := by
  by_cases he : Ty.function ps r = .function qs s
  · cases he
    exact ⟨rfl, fun i _ => .refl _, .refl _⟩
  · obtain ⟨hlength, hps, hr⟩ := h.rule he rfl rfl nofun
    exact ⟨hlength, (argAt_zip hlength).mp hps, hr⟩

/-- A class that is firmly below another one. -/
theorem FirmSubtype.classes {d e : DeclRef} {as bs : List Ty}
    (h : env.FirmSubtype (.class d as) (.class e bs)) :
    ∃ view, env.asSupertype? (.class d as) e = some view ∧
      ArgsFollow env.FirmSubtype (env.classDef e) view bs := by
  by_cases he : Ty.class d as = .class e bs
  · cases he
    exact ⟨as, asSupertype?_self d as, .refl .refl _ as⟩
  · exact h.rule he rfl rfl nofun

theorem vaguer_functionView {ps' ps : List Ty} {r' r : Ty}
    (hps : Ty.Pointwise (Ty.Vaguer env.base) ps' ps) (hr : r'.Vaguer env.base r) :
    (env.base.functionView ps' r').Vaguer env.base (env.base.functionView ps r) := by
  rw [BaseTypes.functionView, BaseTypes.functionView, hps.1]
  cases env.base.functions[ps.length]? with
  | none => exact Ty.SameLeaf.vaguer ⟨rfl, rfl, fun _ h => absurd h (Nat.not_lt_zero _)⟩
  | some f => exact Ty.SameLeaf.vaguer ⟨rfl, hps.append_singleton hr⟩

section Regular

variable (henv : env.IsRegular)
include henv

/-- Types that are vaguer than a firm pair. -/
theorem vaguelyBelow_of_firmSubtype {a' a b' b : Ty} (h : env.FirmSubtype a b)
    (ha : a'.Vaguer env.base a) (hb : b'.Vaguer env.base b) : env.VaguelyBelow a' b' := by
  refine ⟨ha.isNormal_left, hb.isNormal_left, fun u' hopens hu' => ?_⟩
  refine (henv.exists_opens hopens hu' fun l' hl' => ha.exists_leaf hl').imp_right ?_
  rintro ⟨u, hu, hsame⟩
  have hhead : u.isHead = true := hsame.isHead_eq.symm.trans hu'
  exact ⟨u, hsame, b, hb, below_of_opens hu hhead (.inl h)⟩

omit henv in
theorem VaguelyBelow.left_of_opens {a' x b' : Ty} (h : env.VaguelyBelow a' b')
    (hx : x.isNormal env.base = true) (hopens : env.Opens a' x) : env.VaguelyBelow x b' :=
  ⟨hx, h.right, fun u' hu' hhead => h.opens u' (hopens.trans hu') hhead⟩

theorem VaguelyBelow.expand_left {a' b' : Ty} (h : env.VaguelyBelow a' b') :
    env.VaguelyBelow (env.expand a') b' := by
  have hnormal := henv.isNormal_expand h.left
  rw [expand_eq] at hnormal ⊢
  cases hx : env.expand? a' with
  | none => exact ⟨rfl, h.right, fun u' hu' _ => .inl (hu'.eq_of_isHead rfl)⟩
  | some x =>
    rw [hx] at hnormal
    exact h.left_of_opens hnormal (unfolds_of_expandFrom? hx).opens

theorem VaguelyBelow.expand_right {a' b' : Ty} (h : env.VaguelyBelow a' b') :
    env.VaguelyBelow a' (env.expand b') := by
  refine ⟨h.left, henv.isNormal_expand h.right, fun u' hu' hhead => ?_⟩
  refine (h.opens u' hu' hhead).imp_right ?_
  rintro ⟨u, hsame, habove⟩
  refine ⟨u, hsame, ?_⟩
  rw [expand_eq]
  cases hx : env.expand? b' with
  | none =>
    obtain ⟨b, hb, hbelow⟩ := habove
    exact ⟨b, .unknown hb.isNormal_right, hbelow⟩
  | some x =>
    exact habove.unfolds (hsame.isHead_eq.symm.trans hhead) henv (unfolds_of_expandFrom? hx)

/-- Arguments that are vaguer than some that agree. -/
theorem vaguelyBelow_args {c : Option ClassDef} {as' as bs' bs : List Ty}
    (has : Ty.Pointwise (Ty.Vaguer env.base) as' as)
    (hbs : Ty.Pointwise (Ty.Vaguer env.base) bs' bs)
    (h : ArgsFollow env.FirmSubtype c as bs) : ArgsFollow env.VaguelyBelow c as' bs' := by
  intro i hi
  have hforth (h : env.FirmSubtype (argAt as i) (argAt bs i)) :
      env.VaguelyBelow (argAt as' i) (argAt bs' i) :=
    vaguelyBelow_of_firmSubtype henv h (has.argAt i) (hbs.argAt i)
  have hback (h : env.FirmSubtype (argAt bs i) (argAt as i)) :
      env.VaguelyBelow (argAt bs' i) (argAt as' i) :=
    vaguelyBelow_of_firmSubtype henv h (hbs.argAt i) (has.argAt i)
  have hX := h i (by rwa [← has.1, ← hbs.1])
  revert hX
  cases varianceIn c i with
  | covariant => exact hforth
  | contravariant => exact hback
  | invariant => exact And.imp hforth hback

/-- Two ends that are vaguer than a firm pair follow by the rule for their shapes. -/
theorem shapesFollow_of_isHead {a' b' u l : Ty} (hopen : subtypeShortcut a' b' = .open)
    (ha : Ty.SameLeaf (Ty.Vaguer env.base) a' u) (hb : Ty.SameLeaf (Ty.Vaguer env.base) b' l)
    (hahead : a'.isHead = true) (hbhead : b'.isHead = true) (h : env.FirmSubtype u l) :
    env.ShapesFollow env.VaguelyBelow a' b' := by
  obtain ⟨hne, hafree, hbfree, -, -⟩ := subtypeShortcut_open_iff.mp hopen
  cases a' with
  | nothing | nullable | union | typeAlias => exact (Bool.false_ne_true hahead).elim
  | unknown | param => exact (Bool.false_ne_true hafree.symm).elim
  | literal s =>
    obtain rfl := ha.of_literal
    cases b' with
    | nothing | nullable | union | typeAlias => exact (Bool.false_ne_true hbhead).elim
    | unknown | param => exact (Bool.false_ne_true hbfree.symm).elim
    | literal t =>
      obtain rfl := hb.of_literal
      exact h.rule hne rfl rfl nofun
    | «class» e bs' =>
      obtain ⟨bs, rfl, -⟩ := hb.of_class
      exact vaguelyBelow_of_firmSubtype henv (h.rule nofun rfl rfl nofun)
        Ty.sameLeaf_stringType.vaguer hb.vaguer
    | function qs' s' =>
      obtain ⟨qs, s, rfl, -⟩ := hb.of_function
      exact vaguelyBelow_of_firmSubtype henv (h.rule nofun rfl rfl nofun)
        Ty.sameLeaf_stringType.vaguer hb.vaguer
  | function ps' r' =>
    obtain ⟨ps, r, rfl, hps, hr⟩ := ha.of_function
    cases b' with
    | nothing | nullable | union | typeAlias => exact (Bool.false_ne_true hbhead).elim
    | unknown | param => exact (Bool.false_ne_true hbfree.symm).elim
    | literal t =>
      obtain rfl := hb.of_literal
      exact (h.rule nofun rfl rfl nofun : False).elim
    | «class» e bs' =>
      obtain ⟨bs, rfl, -⟩ := hb.of_class
      exact vaguelyBelow_of_firmSubtype henv (h.rule nofun rfl rfl nofun)
        (vaguer_functionView hps hr) hb.vaguer
    | function qs' s' =>
      obtain ⟨qs, s, rfl, hqs, hs⟩ := hb.of_function
      obtain ⟨hlength, hparams, hresult⟩ := h.function
      have hlength' : ps'.length = qs'.length := by rw [hps.1, hqs.1, hlength]
      refine ⟨hlength', (argAt_zip hlength').mpr fun i hi => ?_, ?_⟩
      · exact vaguelyBelow_of_firmSubtype henv (hparams i (hqs.1 ▸ hi)) (hqs.argAt i) (hps.argAt i)
      · exact vaguelyBelow_of_firmSubtype henv hresult hr hs
  | «class» d as' =>
    obtain ⟨as, rfl, has⟩ := ha.of_class
    cases b' with
    | nothing | nullable | union | typeAlias => exact (Bool.false_ne_true hbhead).elim
    | unknown | param => exact (Bool.false_ne_true hbfree.symm).elim
    | literal t =>
      obtain rfl := hb.of_literal
      exact (h.rule nofun rfl rfl nofun : False).elim
    | «class» e bs' =>
      obtain ⟨bs, rfl, hbs⟩ := hb.of_class
      obtain ⟨view, hview, hargs⟩ := h.classes
      obtain ⟨view', hview', hvague⟩ := henv.exists_vaguer_view has hview
      exact ⟨view', hview', vaguelyBelow_args henv hvague hbs hargs⟩
    | function qs' s' =>
      obtain ⟨qs, s, rfl, hqs, hs⟩ := hb.of_function
      obtain ⟨f, hf, view, hview, hparams, hresult⟩ := h.rule nofun rfl rfl nofun
      obtain ⟨view', hview', hvague⟩ := henv.exists_vaguer_view has hview
      refine ⟨f, hqs.1 ▸ hf, view', hview', argAt_zipIdx.mpr fun i hi => ?_, ?_⟩
      · exact vaguelyBelow_of_firmSubtype henv (argAt_zipIdx.mp hparams i (hqs.1 ▸ hi))
          (hqs.argAt i) (hvague.argAt i)
      · rw [hqs.1]
        exact vaguelyBelow_of_firmSubtype henv hresult (hvague.argAt _) hs

/-- The rule for the shapes of an end and another type. -/
theorem VaguelyBelow.shapesFollow_of_isHead {a' b' : Ty} (h : env.VaguelyBelow a' b')
    (hopen : subtypeShortcut a' b' = .open) (ha : a'.isHead = true) :
    env.ShapesFollow env.VaguelyBelow a' b' := by
  obtain ⟨-, hafree, hbfree, -, -⟩ := subtypeShortcut_open_iff.mp hopen
  obtain ⟨u, hsame, habove⟩ := (h.opens a' (.refl a') ha).resolve_left (by
    rintro rfl
    exact Bool.false_ne_true hafree.symm)
  have huhead : u.isHead = true := hsame.isHead_eq.symm.trans ha
  have hend {b : Ty} (hb : b.isNormal env.base = true) (habove : env.AboveSome u b) :
      env.VaguelyBelow a' b := by
    refine ⟨h.left, hb, fun u' hopens _ => ?_⟩
    rw [hopens.eq_of_isHead ha]
    exact .inr ⟨u, hsame, habove⟩
  cases hb : b'.isHead with
  | true =>
    obtain ⟨l, hbl, hfirm⟩ := habove.head huhead hb (by
      rintro rfl
      exact Bool.false_ne_true hbfree.symm)
    exact TypeEnv.shapesFollow_of_isHead henv hopen hsame hbl ha hb hfirm
  | false =>
    cases b' with
    | unknown | «class» | function | literal | param => exact (Bool.false_ne_true hb.symm).elim
    | nothing => exact (Bool.false_ne_true h.right).elim
    | typeAlias e bs =>
      have hexpand := h.expand_right henv
      cases a' <;> first | exact (Bool.false_ne_true ha).elim | exact hexpand
    | union ms =>
      obtain ⟨m, hm, habove⟩ := habove.union huhead
      have hmember := hend ((Ty.isNormal_union h.right).2 m hm).2 habove
      cases a' <;> first | exact (Bool.false_ne_true ha).elim | exact ⟨m, hm, hmember⟩
    | nullable t =>
      have hcontent := (habove.nullable huhead).imp hsame.isNull_eq.trans
        (hend (Ty.isNormal_nullable.mp h.right).1)
      cases a' <;> first | exact (Bool.false_ne_true ha).elim | exact hcontent

/-- Such pairs follow from each other. -/
theorem VaguelyBelow.follows {a' b' : Ty} (h : env.VaguelyBelow a' b') :
    env.Follows env.VaguelyBelow a' b' := by
  rw [Follows]
  cases hshort : subtypeShortcut a' b' with
  | holds => trivial
  | fails =>
    obtain rfl := eq_nothing_of_subtypeShortcut hshort
    exact Bool.false_ne_true h.right
  | «open» =>
    cases ha : a'.isHead with
    | true => exact h.shapesFollow_of_isHead henv hshort ha
    | false =>
      cases a' with
      | unknown | «class» | function | literal | param => exact (Bool.false_ne_true ha.symm).elim
      | nothing => exact (Bool.false_ne_true h.left).elim
      | typeAlias d args => exact h.expand_left henv
      | union ms =>
        have hmembers : ∀ m ∈ ms, env.VaguelyBelow m b' := fun m hm =>
          h.left_of_opens ((Ty.isNormal_union h.left).2 m hm).2 (.member hm (.refl m))
        have hexpand := h.expand_right henv
        cases b' <;> first | exact hexpand | exact hmembers
      | nullable t =>
        have hcontent : env.VaguelyBelow t b' ∧ env.VaguelyBelow env.base.nullType b' :=
          ⟨h.left_of_opens (Ty.isNormal_nullable.mp h.left).1 (.content (.refl t)),
            h.left_of_opens rfl (.null t)⟩
        have hexpand := h.expand_right henv
        cases b' <;> first | exact hexpand | exact hcontent

/-- Types that are vaguer than a firm pair are below each other. -/
theorem FirmSubtype.subtype_of_vaguer {a' a b' b : Ty} (h : env.FirmSubtype a b)
    (ha : a'.Vaguer env.base a) (hb : b'.Vaguer env.base b) : env.Subtype a' b' :=
  ⟨env.VaguelyBelow, fun _ _ hxy => hxy.follows henv, vaguelyBelow_of_firmSubtype henv h ha hb⟩

end Regular

end TypeEnv

end PklAnalysis
