import PklAnalysis.Proofs.Lattice.CommonSubtypes
import PklAnalysis.Proofs.Lattice.SuperclassPaths

/-!
# Subtyping is transitive

Below a definite type subtyping composes: two types with a definite type between them are in a
relation that follows from itself (`Chained`).  What is unknown can come in between only with the
arguments that a class gives its superclass, and such an argument is the same for all subclasses, so
nothing is between it and itself (`IsNarrower`).
-/

namespace PklAnalysis

namespace TypeEnv

variable (env : TypeEnv Id)

/-- A straight environment without type aliases and with the classes that the rules need.  Nothing
inherits from the class of `null`, and no class of functions is above another one or above the class
of all functions. -/
structure IsComposable : Prop extends env.IsStraight where
  aliasDef : ∀ d, env.aliasDef d = none
  null : env.Declares env.base.null []
  null_ne : ∀ {d d'}, env.Extends d d' → d'.site ≠ env.base.null.site
  string : env.Declares env.base.string []
  string_ne : env.base.string.site ≠ env.base.null.site
  function : env.Declares env.base.function []
  function_ne : env.base.function.site ≠ env.base.null.site
  functions : ∀ {n f}, env.base.functions[n]? = some f →
    ∃ params, env.Declares f params ∧ IsFunctionParams n params
  functions_apart : ∀ {m n : Nat} {f g g' : DeclRef}, env.base.functions[m]? = some f →
    env.base.functions[n]? = some g → Relation.ReflTransGen env.Extends f g' →
    g'.site = g.site → m = n
  function_apart : ∀ {n : Nat} {g g' : DeclRef}, env.base.functions[n]? = some g →
    Relation.ReflTransGen env.Extends env.base.function g' → g'.site ≠ g.site

/-- A type is below another one, or a definite type is between them. -/
def Chained (a c : Ty) : Prop :=
  env.Subtype a c ∨ ∃ b, env.Applied a ∧ env.Definite b ∧ env.Applied c ∧
    env.Subtype a b ∧ env.Subtype b c

/-- A type that no shortcut settles by itself, and that is no type alias. -/
def IsShaped : Ty → Prop
  | .nullable _ | .class .. | .union _ | .function .. | .literal _ => True
  | _ => False

variable {env}

theorem Chained.of_subtype {a c : Ty} (h : env.Subtype a c) : env.Chained a c := .inl h

/-! ## Shortcuts -/

/-- Between shaped types that differ only the rules for their shapes count. -/
theorem Subtype.shapes {a b : Ty} (h : env.Subtype a b) (ha : IsShaped a) (hb : IsShaped b)
    (hne : a ≠ b) : env.ShapesFollow env.Subtype a b := by
  have hopen : subtypeShortcut a b = .open := by
    unfold subtypeShortcut
    rw [if_neg hne]
    cases a <;> first | exact ha.elim | (cases b <;> first | exact hb.elim | rfl)
  have hfollows := h.follows
  rwa [Follows, hopen] at hfollows

theorem not_subtype_nothing {a : Ty} (ha : IsShaped a) : ¬env.Subtype a .nothing := by
  intro h
  have hfollows := h.follows
  cases a <;> first | exact ha.elim | exact hfollows

theorem eq_nothing_of_fails {a b : Ty} (h : subtypeShortcut a b = .fails) : b = .nothing := by
  unfold subtypeShortcut at h
  grind

/-- What no shortcut settles are two different types, each of them shaped or a type alias. -/
theorem shaped_of_open {a b : Ty} (h : subtypeShortcut a b = .open) :
    a ≠ b ∧ (IsShaped a ∨ ∃ d args, a = .typeAlias d args) ∧
      (IsShaped b ∨ ∃ d args, b = .typeAlias d args) := by
  by_cases hne : a = b
  · simp [subtypeShortcut, hne] at h
  refine ⟨hne, ?_, ?_⟩
  · cases a <;> cases b <;> simp_all [subtypeShortcut, IsShaped]
  · cases a <;> cases b <;> simp_all [subtypeShortcut, IsShaped]

theorem follows_of_shapes {X : Ty → Ty → Prop} {a c : Ty} (hc : c ≠ .nothing)
    (h : env.ShapesFollow X a c) : env.Follows X a c := by
  rw [Follows]
  cases hshort : subtypeShortcut a c with
  | holds => trivial
  | «open» => exact h
  | fails => exact hc (eq_nothing_of_fails hshort)

theorem unknown_subtype (b : Ty) : env.Subtype .unknown b := by
  refine subtype_iff.mpr ?_
  unfold Follows subtypeShortcut
  split <;> grind

theorem subtype_unknown (a : Ty) : env.Subtype a .unknown := by
  refine subtype_iff.mpr ?_
  unfold Follows subtypeShortcut
  split <;> grind

theorem isShaped_of_isAtom {a : Ty} (h : IsAtom a) : IsShaped a := by
  cases a <;> first | exact h.elim | trivial

theorem Definite.isShaped {b : Ty} (h : env.Definite b) (hne : b ≠ .nothing) : IsShaped b := by
  cases h <;> first | exact absurd rfl hne | trivial

/-! ## Classes -/

theorem Applied.congr {d d' : DeclRef} {args : List Ty} (h : env.Applied (.class d args))
    (hdef : env.classDef d = env.classDef d') : env.Applied (.class d' args) :=
  .class (hdef ▸ h.class_inv.1) h.class_inv.2

theorem IsNarrower.congr {d d' : DeclRef} {v w : List Ty} (h : env.IsNarrower d v w)
    (hdef : env.classDef d = env.classDef d') : env.IsNarrower d' v w where
  applied_left := h.applied_left.congr hdef
  applied_right := h.applied_right.congr hdef
  args := hdef ▸ h.args
  definite := h.definite
  length_le := h.length_le

/-- A class below another one has it as an ancestor. -/
theorem Subtype.class_inv (h : env.IsClassed) {d e : DeclRef} {as bs : List Ty}
    (hab : env.Subtype (.class d as) (.class e bs)) :
    ∃ view, env.asSupertype? (.class d as) e = some view ∧
      ArgsFollow env.Subtype (env.classDef e) view bs := by
  by_cases heq : Ty.class d as = .class e bs
  · cases heq
    exact ⟨as, asSupertype_self h d as, .refl .refl _ _⟩
  · exact hab.shapes trivial trivial heq

section Straight

variable (h : env.IsStraight)
include h

theorem applied_asSupertype {d f : DeclRef} {as view : List Ty} (ha : env.Applied (.class d as))
    (hview : env.asSupertype? (.class d as) f = some view) : env.Applied (.class f view) := by
  obtain ⟨e, hsite, hup⟩ := (asSupertype?_eq_some_iff h).mp hview
  exact (applied_up h hup ha).congr (h.classDef_congr hsite)

/-- What is above a definite class is above the classes below it, with narrower arguments. -/
theorem exists_narrower {d e f : DeclRef} {as bs y : List Ty} (ha : env.Applied (.class d as))
    (hb : env.Definite (.class e bs)) (hab : env.Subtype (.class d as) (.class e bs))
    (hy : env.asSupertype? (.class e bs) f = some y) :
    ∃ x, env.asSupertype? (.class d as) f = some x ∧ env.IsNarrower f x y := by
  obtain ⟨v, hv, hvb⟩ := hab.class_inv h.toIsClassed
  have hva := applied_asSupertype h ha hv
  obtain ⟨c, hc, hlength, hbs⟩ := hb.class_inv
  have hle : v.length ≤ bs.length := hlength ▸ hva.class_inv.1 c hc
  have hnarrower : env.IsNarrower e v bs := by
    refine ⟨hva, hb.applied, hvb, fun i => ?_, hle⟩
    by_cases hi : i < bs.length
    · exact .inr (hbs _ (argAt_mem hi))
    · exact .inl (by
        rw [argAt, argAt, List.getElem?_eq_none (by omega), List.getElem?_eq_none (by omega)])
  -- the way from the class to the definite one goes on to the class above
  obtain ⟨e', hsite, hup⟩ := (asSupertype?_eq_some_iff h).mp hv
  obtain ⟨f', hsite', hup'⟩ := (asSupertype?_eq_some_iff h).mp hy
  obtain ⟨x, hx, hxy⟩ := hnarrower.up h hup'
  obtain ⟨f'', hsite'', hx⟩ := up_congr h.toIsClassed hsite.symm hx
  exact ⟨x, (asSupertype?_eq_some_iff h).mpr ⟨f'', hsite''.trans hsite', hup.trans hx⟩,
    hxy.congr (h.classDef_congr hsite')⟩

end Straight

/-- Narrower arguments agree with those that the others agree with. -/
theorem IsNarrower.argsFollow {d : DeclRef} {x y z : List Ty} (h : env.IsNarrower d x y)
    (hz : ∀ a ∈ z, env.Applied a) (hyz : ArgsFollow env.Subtype (env.classDef d) y z) :
    ArgsFollow env.Chained (env.classDef d) x z := by
  intro i hi
  have hxi := Applied.argAt h.applied_left.class_inv.2 i
  have hzi := Applied.argAt hz i
  have hle := h.length_le
  have hyzi := hyz i (by omega)
  rcases h.cases i with heq | ⟨hdefinite, hlt⟩
  · rw [heq]
    revert hyzi
    cases varianceIn (env.classDef d) i with
    | covariant => exact .inl
    | contravariant => exact .inl
    | invariant => exact And.imp .inl .inl
  · have hxyi := h.args i (by omega)
    revert hyzi hxyi
    cases varianceIn (env.classDef d) i with
    | covariant => exact fun hyz hxy => .inr ⟨_, hxi, hdefinite, hzi, hxy, hyz⟩
    | contravariant => exact fun hzy hyx => .inr ⟨_, hzi, hdefinite, hxi, hzy, hyx⟩
    | invariant =>
      exact fun hyz hxy => ⟨.inr ⟨_, hxi, hdefinite, hzi, hxy.1, hyz.1⟩,
        .inr ⟨_, hzi, hdefinite, hxi, hyz.2, hxy.2⟩⟩

/-! ## Functions -/

/-- Narrower arguments of a class of functions fit what the others fit. -/
theorem IsNarrower.functionFollows {f : DeclRef} {params : List TypeParam} {qs x y : List Ty}
    {s : Ty} (h : env.IsNarrower f x y) (hf : env.Declares f params)
    (hparams : IsFunctionParams qs.length params) (hqs : env.Applied (.function qs s))
    (hy : FunctionFollows env.Subtype y qs s) : FunctionFollows env.Chained x qs s := by
  obtain ⟨c, hc, -, rfl⟩ := hf
  have hx := h.applied_left.class_inv.2
  have hxy : ∀ {i}, i < y.length → _ :=
    fun hi => h.args _ (Nat.lt_of_lt_of_le hi (Nat.le_max_right _ _))
  rw [hc] at hxy
  refine ⟨?_, ?_⟩
  · rintro ⟨q, i⟩ he
    have hq := hqs.function_inv.1 q (List.fst_mem_of_mem_zipIdx he)
    have hlt : i < qs.length := by
      have := List.snd_lt_of_mem_zipIdx he
      omega
    have hvariance : varianceIn (some c) i = .contravariant :=
      varianceIn_eq (by rw [hparams.variance, if_pos hlt])
    have hqy := hy.1 (q, i) he
    rcases h.cases i with heq | ⟨hdefinite, hi⟩
    · exact .inl (heq ▸ hqy)
    · have hyx := hxy hi
      simp only [hvariance] at hyx
      exact .inr ⟨_, hq, hdefinite, .argAt hx i, hqy, hyx⟩
  · have hvariance : varianceIn (some c) qs.length = .covariant :=
      varianceIn_eq (by rw [hparams.variance, if_neg (Nat.lt_irrefl _), if_pos rfl])
    rcases h.cases qs.length with heq | ⟨hdefinite, hi⟩
    · exact .inl (heq ▸ hy.2)
    · have hxr := hxy hi
      simp only [hvariance] at hxr
      exact .inr ⟨_, .argAt hx _, hdefinite, hqs.function_inv.2, hxr, hy.2⟩

/-- Arguments that fit a definite function type fit those above it. -/
theorem functionFollows_chained {args qs us : List Ty} {s t : Ty}
    (hargs : ∀ a ∈ args, env.Applied a) (hb : env.Definite (.function qs s))
    (hc : env.Applied (.function us t)) (hab : FunctionFollows env.Subtype args qs s)
    (hlength : qs.length = us.length)
    (hbc : (∀ e ∈ qs.zip us, env.Subtype e.2 e.1) ∧ env.Subtype s t) :
    FunctionFollows env.Chained args us t := by
  refine ⟨?_, .inr ⟨s, .argAt hargs _, hb.function_inv.2, hc.function_inv.2, ?_, hbc.2⟩⟩
  · rintro ⟨u, i⟩ he
    have hu : us[i]? = some u := List.mk_mem_zipIdx_iff_getElem?.mp he
    have hlt : i < qs.length := hlength ▸ (List.getElem?_eq_some_iff.mp hu).1
    have hi : (qs.zip us)[i]? = some (qs[i], u) := by
      simp [List.getElem?_zip_eq_some, hlt, hu]
    have hq : (qs[i], i) ∈ qs.zipIdx :=
      List.mk_mem_zipIdx_iff_getElem?.mpr (List.getElem?_eq_getElem hlt)
    exact .inr ⟨qs[i], hc.function_inv.1 u (List.mem_of_getElem? hu),
      hb.function_inv.1 _ (List.getElem_mem hlt), .argAt hargs i,
      hbc.1 _ (List.mem_of_getElem? hi), hab.1 _ hq⟩
  · exact hlength ▸ hab.2

theorem functionView_cases (ps : List Ty) (r : Ty) :
    (∃ f, env.base.functions[ps.length]? = some f ∧
      env.base.functionView ps r = .class f (ps ++ [r])) ∨
    env.base.functions[ps.length]? = none ∧
      env.base.functionView ps r = .class env.base.function [] := by
  cases hf : env.base.functions[ps.length]? with
  | none => exact .inr ⟨rfl, by rw [BaseTypes.functionView, hf]; rfl⟩
  | some f => exact .inl ⟨f, rfl, by rw [BaseTypes.functionView, hf]⟩

theorem exists_functionView (ps : List Ty) (r : Ty) :
    ∃ d as, env.base.functionView ps r = .class d as := by
  rcases env.functionView_cases ps r with ⟨f, -, heq⟩ | ⟨-, heq⟩
  · exact ⟨_, _, heq⟩
  · exact ⟨_, _, heq⟩

section Composable

variable (h : env.IsComposable) {ps qs : List Ty} {r s : Ty}
include h

theorem applied_functionView (hp : env.Applied (.function ps r)) :
    env.Applied (env.base.functionView ps r) := by
  rcases env.functionView_cases ps r with ⟨f, hf, heq⟩ | ⟨-, heq⟩
  · rw [heq]
    obtain ⟨params, ⟨c, hc, -, rfl⟩, hparams⟩ := h.functions hf
    refine .class (fun c' hc' => ?_) fun a ha => ?_
    · obtain rfl : c = c' := Option.some.inj (hc.symm.trans hc')
      simp [hparams.length_eq]
    · rcases List.mem_append.mp ha with ha | ha
      · exact hp.function_inv.1 a ha
      · exact List.mem_singleton.mp ha ▸ hp.function_inv.2
  · rw [heq]
    exact .plain _

theorem definite_functionView (hp : env.Definite (.function ps r)) :
    env.Definite (env.base.functionView ps r) := by
  rcases env.functionView_cases ps r with ⟨f, hf, heq⟩ | ⟨-, heq⟩
  · rw [heq]
    obtain ⟨params, ⟨c, hc, -, rfl⟩, hparams⟩ := h.functions hf
    refine .class hc (by simp [hparams.length_eq]) fun a ha => ?_
    rcases List.mem_append.mp ha with ha | ha
    · exact hp.function_inv.1 a ha
    · exact List.mem_singleton.mp ha ▸ hp.function_inv.2
  · rw [heq]
    obtain ⟨c, hc, -, hnone⟩ := h.function
    exact .class hc (by rw [hnone]; rfl) (List.forall_mem_nil _)

/-- A class below a function type is below the class of such functions. -/
theorem Subtype.functionView_right {d : DeclRef} {as : List Ty} (ha : env.Applied (.class d as))
    (hsub : env.Subtype (.class d as) (.function ps r)) :
    env.Subtype (.class d as) (env.base.functionView ps r) := by
  obtain ⟨f, hf, args, hargs, hfollows⟩ := hsub.shapes trivial trivial (by simp)
  obtain ⟨params, hdecl, hparams⟩ := h.functions hf
  have hview := applied_asSupertype h.toIsStraight ha hargs
  obtain ⟨c, hc, -, rfl⟩ := id hdecl
  have hle : args.length ≤ ps.length + 1 := hparams.length_eq ▸ hview.class_inv.1 c hc
  rw [BaseTypes.functionView, hf]
  exact subtype_iff.mpr (follows_of_shapes (by simp)
    ⟨args, hargs, argsFollow_of_function hdecl hparams hle hfollows⟩)

/-- A function below another one is an object below its class. -/
theorem Subtype.functionViews (hsub : env.Subtype (.function ps r) (.function qs s)) :
    env.Subtype (env.base.functionView ps r) (env.base.functionView qs s) := by
  by_cases heq : Ty.function ps r = .function qs s
  · cases heq
    exact .refl _
  obtain ⟨hlength, hfollows⟩ := hsub.shapes trivial trivial heq
  cases hf : env.base.functions[qs.length]? with
  | none =>
    -- with too many parameters both are objects of the class of all functions
    rw [BaseTypes.functionView, BaseTypes.functionView, hlength, hf]
    exact .refl _
  | some f =>
    obtain ⟨params, hdecl, hparams⟩ := h.functions hf
    rw [BaseTypes.functionView, BaseTypes.functionView, hlength, hf]
    refine subtype_iff.mpr (follows_of_shapes (by simp) ⟨_, asSupertype_self h.toIsClassed f _, ?_⟩)
    exact argsFollow_of_function hdecl hparams (by simp [hlength])
      ((functionFollows_append hlength).mpr hfollows)

/-! ## The class of `null` -/

/-- Nothing inherits from the class of `null`. -/
theorem site_eq_null {d e : DeclRef} (hpath : Relation.ReflTransGen env.Extends d e)
    (hnull : e.site = env.base.null.site) : d.site = env.base.null.site := by
  rcases hpath.cases_tail with rfl | ⟨x, -, hext⟩
  · exact hnull
  · exact absurd hnull (h.null_ne hext)

theorem site_eq_null_of_subtype {d e : DeclRef} {as bs : List Ty}
    (hsub : env.Subtype (.class d as) (.class e bs)) (hnull : e.site = env.base.null.site) :
    d.site = env.base.null.site := by
  obtain ⟨view, hview, -⟩ := hsub.class_inv h.toIsClassed
  obtain ⟨e', hsite, hup⟩ := (asSupertype?_eq_some_iff h.toIsStraight).mp hview
  exact site_eq_null h (Up.extends hup) (hsite.trans hnull)

/-- An object of a function is not `null`. -/
theorem isNull_functionView (ps : List Ty) (r : Ty) :
    env.base.isNull (env.base.functionView ps r) = false := by
  rcases env.functionView_cases ps r with ⟨f, hf, heq⟩ | ⟨-, heq⟩
  · rw [heq]
    refine decide_eq_false fun hsite => ?_
    obtain ⟨params, ⟨c, hc, -, rfl⟩, hparams⟩ := h.functions hf
    obtain ⟨c', hc', -, hnone⟩ := h.null
    rw [h.classDef_congr hsite] at hc
    obtain rfl : c = c' := Option.some.inj (hc.symm.trans hc')
    have hlength := hparams.length_eq
    rw [hnone] at hlength
    cases hlength
  · rw [heq]
    exact decide_eq_false h.function_ne

/-- Only the class of `null` is below the class of `null`. -/
theorem isNull_of_subtype {a b : Ty} (hatom : IsAtom a) (hne : a ≠ b) (hsub : env.Subtype a b)
    (hnull : env.base.isNull b = true) : env.base.isNull a = true := by
  cases b with
  | «class» e bs =>
    have he : e.site = env.base.null.site := of_decide_eq_true hnull
    cases a with
    | «class» d as => exact decide_eq_true (site_eq_null_of_subtype h hsub he)
    | function ps r =>
      have hview : env.Subtype (env.base.functionView ps r) (.class e bs) :=
        hsub.shapes trivial trivial hne
      have hnot := isNull_functionView h ps r
      obtain ⟨d, as, heq⟩ := env.exists_functionView ps r
      rw [heq] at hview hnot
      exact absurd (site_eq_null_of_subtype h hview he) (of_decide_eq_false hnot)
    | literal text =>
      have hstring : env.Subtype env.base.stringType (.class e bs) :=
        hsub.shapes trivial trivial hne
      exact absurd (site_eq_null_of_subtype h hstring he) h.string_ne
    | _ => exact hatom.elim
  | _ => cases hnull

theorem subtype_nullType {a : Ty} (ha : env.Applied a) (hnull : env.base.isNull a = true) :
    env.Subtype a env.base.nullType := by
  cases a with
  | «class» d as =>
    have hsite : d.site = env.base.null.site := of_decide_eq_true hnull
    obtain ⟨c, hc, -, hnone⟩ := h.null
    have hle := ha.class_inv.1 c (h.classDef_congr hsite ▸ hc)
    rw [hnone] at hle
    obtain rfl := List.eq_nil_of_length_eq_zero (Nat.le_zero.mp hle)
    have hne : env.base.nullType ≠ .nothing := by simp [BaseTypes.nullType, BaseTypes.plain]
    exact subtype_iff.mpr (follows_of_shapes hne ⟨[],
      (asSupertype?_eq_some_iff h.toIsStraight).mpr ⟨d, hsite, .refl⟩, .refl .refl _ _⟩)
  | _ => cases hnull

/-! ## One step through a definite type -/

theorem expand_typeAlias (d : DeclRef) (args : List Ty) :
    env.expand (.typeAlias d args) = .unknown := by
  change (match env.aliasDef d with | some a => _ | none => _) = _
  rw [h.aliasDef]
  rfl

section Step

/-- A class below a definite class that is below a class. -/
theorem class_chained {d e f : DeclRef} {as bs cs : List Ty} (ha : env.Applied (.class d as))
    (hb : env.Definite (.class e bs)) (hc : env.Applied (.class f cs))
    (hab : env.Subtype (.class d as) (.class e bs))
    (hbc : env.Subtype (.class e bs) (.class f cs)) :
    env.ShapesFollow env.Chained (.class d as) (.class f cs) := by
  obtain ⟨y, hy, hyc⟩ := hbc.class_inv h.toIsClassed
  obtain ⟨x, hx, hxy⟩ := exists_narrower h.toIsStraight ha hb hab hy
  exact ⟨x, hx, hxy.argsFollow hc.class_inv.2 hyc⟩

/-- A class below a definite class that is below a function type. -/
theorem function_chained {d e : DeclRef} {as bs : List Ty} (ha : env.Applied (.class d as))
    (hb : env.Definite (.class e bs)) (hc : env.Applied (.function qs s))
    (hab : env.Subtype (.class d as) (.class e bs))
    (hbc : env.Subtype (.class e bs) (.function qs s)) :
    env.ShapesFollow env.Chained (.class d as) (.function qs s) := by
  obtain ⟨f, hf, y, hy, hyc⟩ := hbc.shapes trivial trivial (by simp)
  obtain ⟨x, hx, hxy⟩ := exists_narrower h.toIsStraight ha hb hab hy
  obtain ⟨params, hdecl, hparams⟩ := h.functions hf
  exact ⟨f, hf, x, hx, hxy.functionFollows hdecl hparams hc hyc⟩

/-- A function below a class that is below a function type has as many parameters. -/
theorem functions_chained {e : DeclRef} {bs : List Ty} (ha : env.Applied (.function ps r))
    (hb : env.Definite (.class e bs)) (hc : env.Applied (.function qs s))
    (hab : env.Subtype (.function ps r) (.class e bs))
    (hbc : env.Subtype (.class e bs) (.function qs s)) :
    env.ShapesFollow env.Chained (.function ps r) (.function qs s) := by
  have hview : env.Subtype (env.base.functionView ps r) (.class e bs) :=
    hab.shapes trivial trivial (by simp)
  have happlied := applied_functionView h ha
  rcases env.functionView_cases ps r with ⟨f, hf, heq⟩ | ⟨-, heq⟩
  all_goals
    rw [heq] at hview happlied
    obtain ⟨g, hg, x, hx, hfollows⟩ := function_chained h happlied hb hc hview hbc
    obtain ⟨g', hsite, hup⟩ := (asSupertype?_eq_some_iff h.toIsStraight).mp hx
  · -- the class of the function is the one that the function type asks for
    have hlength := h.functions_apart hf hg (Up.extends hup) hsite
    obtain rfl : f = g := Option.some.inj (hf.symm.trans (hlength ▸ hg))
    obtain rfl : ps ++ [r] = x :=
      Option.some.inj ((asSupertype_self h.toIsClassed f _).symm.trans hx)
    exact ⟨hlength, (functionFollows_append hlength).mp hfollows⟩
  · exact absurd hsite (h.function_apart hg (Up.extends hup))

variable {a b c : Ty} (ha : env.Applied a) (hb : env.Definite b) (hc : env.Applied c)
  (hab : env.Subtype a b) (hbc : env.Subtype b c)
include ha hb hc hab hbc

/-- What is between two types is between the types that they follow from. -/
theorem shapes_of_atoms (hatom : IsAtom a) (hbatom : IsAtom b) (hshaped : IsShaped c)
    (hac : a ≠ c) : env.ShapesFollow env.Chained a c := by
  -- nothing is between equal types
  by_cases hne : a = b
  · have hshapes := (hne ▸ hbc).shapes (isShaped_of_isAtom hatom) hshaped hac
    exact hshapes.mono fun _ _ => Chained.of_subtype
  by_cases hne' : b = c
  · have hshapes := (hne' ▸ hab).shapes (isShaped_of_isAtom hatom) hshaped hac
    exact hshapes.mono fun _ _ => Chained.of_subtype
  have habShapes := hab.shapes (isShaped_of_isAtom hatom) (isShaped_of_isAtom hbatom) hne
  have hbcShapes := hbc.shapes (isShaped_of_isAtom hbatom) hshaped hne'
  -- by the shape of the upper type, then of the lower one, then of the one between them
  cases c with
  | union ms =>
    have hu : ∃ u ∈ ms, env.Subtype b u := by
      cases b <;> first | exact hbatom.elim | exact hbcShapes
    obtain ⟨u, hu, hbu⟩ := hu
    have hcu : env.Applied u := by cases hc with | union hms => exact hms u hu
    have hau : ∃ u ∈ ms, env.Chained a u := ⟨u, hu, .inr ⟨b, ha, hb, hcu, hab, hbu⟩⟩
    cases a <;> first | exact hatom.elim | exact hau
  | nullable u =>
    have hu : env.base.isNull b = true ∨ env.Subtype b u := by
      cases b <;> first | exact hbatom.elim | exact hbcShapes
    have hcu : env.Applied u := by cases hc with | nullable ht => exact ht
    have hau : env.base.isNull a = true ∨ env.Chained a u :=
      hu.imp (isNull_of_subtype h hatom hne hab) fun hbu => .inr ⟨b, ha, hb, hcu, hab, hbu⟩
    cases a <;> first | exact hatom.elim | exact hau
  | literal text => cases b <;> first | exact hbatom.elim | exact hbcShapes.elim
  | «class» f cs =>
    cases a with
    | literal text =>
      have hstring : env.Subtype env.base.stringType b := by
        cases b <;> first | exact hbatom.elim | exact habShapes.elim | exact habShapes
      exact .inr ⟨b, .plain _, hb, hc, hstring, hbc⟩
    | function ps r =>
      have hview := applied_functionView h ha
      cases b with
      | «class» => exact .inr ⟨_, hview, hb, hc, habShapes, hbc⟩
      | function =>
        exact .inr ⟨_, hview, definite_functionView h hb, hc, hab.functionViews h, hbcShapes⟩
      | literal => exact habShapes.elim
      | _ => exact hbatom.elim
    | «class» d as =>
      cases b with
      | «class» => exact class_chained h ha hb hc hab hbc
      | function ps r =>
        have hview := definite_functionView h hb
        have habView := hab.functionView_right h ha
        have hbcView : env.Subtype (env.base.functionView ps r) (.class f cs) := hbcShapes
        obtain ⟨e, bs, heq⟩ := env.exists_functionView ps r
        rw [heq] at hview habView hbcView
        exact class_chained h ha hview hc habView hbcView
      | literal => exact habShapes.elim
      | _ => exact hbatom.elim
    | _ => exact hatom.elim
  | function us t =>
    cases a with
    | literal text =>
      have hstring : env.Subtype env.base.stringType b := by
        cases b <;> first | exact hbatom.elim | exact habShapes.elim | exact habShapes
      exact .inr ⟨b, .plain _, hb, hc, hstring, hbc⟩
    | function ps r =>
      cases b with
      | «class» => exact functions_chained h ha hb hc hab hbc
      | function qs s =>
        obtain ⟨hlength, habFollows⟩ := habShapes
        obtain ⟨hlength', hbcFollows⟩ := hbcShapes
        have hargs : ∀ x ∈ ps ++ [r], env.Applied x := by
          simpa [or_imp, forall_and] using ha.function_inv
        have hfollows := functionFollows_chained hargs hb hc
          ((functionFollows_append hlength).mpr habFollows) hlength' hbcFollows
        have hlengths := hlength.trans hlength'
        exact ⟨hlengths, (functionFollows_append hlengths).mp hfollows⟩
      | literal => exact habShapes.elim
      | _ => exact hbatom.elim
    | «class» d as =>
      cases b with
      | «class» => exact function_chained h ha hb hc hab hbc
      | function qs s =>
        obtain ⟨f, hf, args, hargs, habFollows⟩ := habShapes
        obtain ⟨hlength, hbcFollows⟩ := hbcShapes
        have happlied := applied_asSupertype h.toIsStraight ha hargs
        exact ⟨f, hlength ▸ hf, args, hargs,
          functionFollows_chained happlied.class_inv.2 hb hc habFollows hlength hbcFollows⟩
      | literal => exact habShapes.elim
      | _ => exact hbatom.elim
    | _ => exact hatom.elim
  | _ => exact hshaped.elim

/-- A class, a function or a text below a definite type is above one of the types that the definite
type is made up of. -/
theorem shapes_of_atom (hatom : IsAtom a) (hshaped : IsShaped c) (hac : a ≠ c) :
    env.ShapesFollow env.Chained a c := by
  have hashaped := isShaped_of_isAtom hatom
  induction hb with
  | nothing => exact absurd hab (not_subtype_nothing hashaped)
  | literal text =>
    exact shapes_of_atoms h ha (.literal text) hc hab hbc hatom trivial hshaped hac
  | «class» hd hlength hargs _ =>
    exact shapes_of_atoms h ha (.class hd hlength hargs) hc hab hbc hatom trivial hshaped hac
  | function hps hr _ _ =>
    exact shapes_of_atoms h ha (.function hps hr) hc hab hbc hatom trivial hshaped hac
  | @nullable t ht ih =>
    by_cases heq : .nullable t = c
    · exact ((heq ▸ hab).shapes hashaped hshaped hac).mono fun _ _ => Chained.of_subtype
    have hbcShapes : env.Subtype t c ∧ env.Subtype env.base.nullType c := by
      have hshapes := hbc.shapes trivial hshaped heq
      cases c <;> first | exact hshaped.elim | exact hshapes
    have habShapes : env.base.isNull a = true ∨ env.Subtype a t := by
      cases a <;> first | exact hatom.elim | exact hab.shapes trivial trivial (by simp)
    rcases habShapes with hnull | hat
    · obtain ⟨_, hnullDef, -, hnone⟩ := h.null
      have hnullType : env.Definite env.base.nullType :=
        .class hnullDef (by rw [hnone]; rfl) (List.forall_mem_nil _)
      exact shapes_of_atoms h ha hnullType hc (subtype_nullType h ha hnull) hbcShapes.2
        hatom trivial hshaped hac
    · exact ih hat hbcShapes.1
  | @union ms hms ih =>
    by_cases heq : .union ms = c
    · exact ((heq ▸ hab).shapes hashaped hshaped hac).mono fun _ _ => Chained.of_subtype
    have hbcShapes : ∀ t ∈ ms, env.Subtype t c := by
      have hshapes := hbc.shapes trivial hshaped heq
      cases c <;> first | exact hshaped.elim | exact hshapes
    have habShapes : ∃ t ∈ ms, env.Subtype a t := by
      cases a <;> first | exact hatom.elim | exact hab.shapes trivial trivial (by simp)
    obtain ⟨t, ht, hat⟩ := habShapes
    exact ih t ht hat (hbcShapes t ht)

/-- Shaped types with a definite type between them follow by the rules for their shapes. -/
theorem shapes_of_shaped (hashaped : IsShaped a) (hbshaped : IsShaped b) (hshaped : IsShaped c)
    (hne : a ≠ b) (hac : a ≠ c) : env.ShapesFollow env.Chained a c := by
  cases a with
  | union ms =>
    have hms : ∀ t ∈ ms, env.Chained t c := fun t ht => by
      have hat : env.Applied t := by cases ha with | union hms => exact hms t ht
      have habShapes : ∀ t ∈ ms, env.Subtype t b := by
        have hshapes := hab.shapes trivial hbshaped hne
        cases b <;> first | exact hbshaped.elim | exact hshapes
      exact .inr ⟨b, hat, hb, hc, habShapes t ht, hbc⟩
    cases c <;> first | exact hshaped.elim | exact hms
  | nullable t =>
    have hat : env.Applied t := by cases ha with | nullable ht => exact ht
    have habShapes : env.Subtype t b ∧ env.Subtype env.base.nullType b := by
      have hshapes := hab.shapes trivial hbshaped hne
      cases b <;> first | exact hbshaped.elim | exact hshapes
    have hboth : env.Chained t c ∧ env.Chained env.base.nullType c :=
      ⟨.inr ⟨b, hat, hb, hc, habShapes.1, hbc⟩, .inr ⟨b, .plain _, hb, hc, habShapes.2, hbc⟩⟩
    cases c <;> first | exact hshaped.elim | exact hboth
  | «class» | function | literal => exact shapes_of_atom h ha hb hc hab hbc trivial hshaped hac
  | _ => exact hashaped.elim

end Step

/-- Two types with a definite type between them follow from such types. -/
theorem follows_of_between {a b c : Ty} (ha : env.Applied a) (hb : env.Definite b)
    (hc : env.Applied c) (hab : env.Subtype a b) (hbc : env.Subtype b c) :
    env.Follows env.Chained a c := by
  by_cases hne : a = b
  · exact (hne ▸ hbc).follows.mono fun _ _ => Chained.of_subtype
  by_cases hne' : b = c
  · exact (hne' ▸ hab).follows.mono fun _ _ => Chained.of_subtype
  rw [Follows]
  cases hshort : subtypeShortcut a c with
  | holds => trivial
  | fails =>
    -- of the definite types only the one without values is below it
    obtain rfl := eq_nothing_of_fails hshort
    exact not_subtype_nothing (hb.isShaped hne') hbc
  | «open» =>
    obtain ⟨hac, hleft, hright⟩ := shaped_of_open hshort
    rcases hleft with hashaped | ⟨d, args, rfl⟩
    · rcases hright with hshaped | ⟨d, args, rfl⟩
      · have hbshaped : IsShaped b := hb.isShaped fun hnothing =>
          not_subtype_nothing hashaped (hnothing ▸ hab)
        exact shapes_of_shaped h ha hb hc hab hbc hashaped hbshaped hshaped hne hac
      · have hunknown : env.Chained a (env.expand (.typeAlias d args)) := by
          rw [expand_typeAlias h]
          exact .of_subtype (subtype_unknown a)
        cases a <;> first | exact hashaped.elim | exact hunknown
    · have hunknown : env.Chained (env.expand (.typeAlias d args)) c := by
        rw [expand_typeAlias h]
        exact .of_subtype (unknown_subtype c)
      exact hunknown

theorem follows_of_chained {a c : Ty} (hac : env.Chained a c) : env.Follows env.Chained a c := by
  rcases hac with hac | ⟨b, ha, hb, hc, hab, hbc⟩
  · exact hac.follows.mono fun _ _ => Chained.of_subtype
  · exact follows_of_between h ha hb hc hab hbc

/-- Subtyping composes through a definite type. -/
theorem Subtype.trans {a b c : Ty} (ha : env.Applied a) (hb : env.Definite b)
    (hc : env.Applied c) (hab : env.Subtype a b) (hbc : env.Subtype b c) : env.Subtype a c :=
  ⟨env.Chained, fun _ _ => follows_of_chained h, .inr ⟨b, ha, hb, hc, hab, hbc⟩⟩

end Composable

end TypeEnv

end PklAnalysis
