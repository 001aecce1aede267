import PklAnalysis.Proofs.Lattice.CommonSubtypeRules
import PklAnalysis.Proofs.Lattice.Superclasses

/-!
# Common subtypes are found

In a standard environment two known types that have a known subtype in common are never denied one.
The subtype is a witness that is taken down along the rules: a union or a type with a question mark
is replaced by one of its members, a text by the class of texts and a function by its class, until
it stands below the parts of both types.
-/

namespace PklAnalysis

namespace TypeEnv

variable (env : TypeEnv Id)

/-- The parameters of the class of functions with so many parameters: these are contravariant, and
the result is covariant. -/
def IsFunctionParams (n : Nat) (params : List TypeParam) : Prop :=
  params.map (·.variance) = List.replicate n .contravariant ++ [.covariant]

/-- An orderly environment with the classes that the rules need, and without invariant
parameters. -/
structure IsStandard : Prop extends env.IsOrderly where
  string : env.Declares env.base.string []
  function : env.Declares env.base.function []
  functions : ∀ {n f}, env.base.functions[n]? = some f →
    ∃ params, env.Declares f params ∧ IsFunctionParams n params
  /-- No class of functions is above another one. -/
  functions_apart : ∀ {m n : Nat} {f g : DeclRef}, env.base.functions[m]? = some f →
    env.base.functions[n]? = some g → Relation.ReflTransGen env.Extends f g → m = n
  variance_ne : ∀ {d c i}, env.classDef d = some c → i < c.typeParams.length →
    c.variance i ≠ .invariant

variable {env}

/-! ## Subtyping between known types -/

section Inversion

variable {c : Ty} (hc : env.Known c) (hatom : IsAtom c)
include hc hatom

theorem subtype_union_iff {ms : List Ty} (hms : env.Known (.union ms)) :
    env.Subtype c (.union ms) ↔ ∃ t ∈ ms, env.Subtype c t := by
  rw [hc.subtype_iff hms]
  cases hc <;> first | exact hatom.elim | simp [ShapesFollow]

theorem subtype_nullable_iff {t : Ty} (ht : env.Known (.nullable t)) :
    env.Subtype c (.nullable t) ↔ env.base.isNull c = true ∨ env.Subtype c t := by
  rw [hc.subtype_iff ht]
  cases hc <;> first | exact hatom.elim | simp [ShapesFollow]

theorem subtype_literal_iff {s : String} : env.Subtype c (.literal s) ↔ c = .literal s := by
  rw [hc.subtype_iff (.literal s)]
  cases hc <;> first | exact hatom.elim | simp [ShapesFollow]

end Inversion

/-- A known type has a class, a function or a text below it that is below all that it is below. -/
theorem exists_atom {c : Ty} (hc : env.Known c) :
    ∃ c', env.Known c' ∧ IsAtom c' ∧ ∀ b, env.Known b → env.Subtype c b → env.Subtype c' b := by
  induction hc with
  | «class» hd hlength hargs => exact ⟨_, .class hd hlength hargs, trivial, fun _ _ h => h⟩
  | function hps hr => exact ⟨_, .function hps hr, trivial, fun _ _ h => h⟩
  | literal text => exact ⟨_, .literal text, trivial, fun _ _ h => h⟩
  | @nullable t ht ih =>
    obtain ⟨c', hc', hatom, hbelow⟩ := ih
    refine ⟨c', hc', hatom, fun b hb hsub => ?_⟩
    rcases ((Known.nullable ht).subtype_iff hb).mp hsub with rfl | hfollows
    · exact (subtype_nullable_iff hc' hatom hb).mpr (.inr (hbelow t ht (.refl t)))
    · have htb : env.Subtype t b := by
        cases hb <;> exact hfollows.1
      exact hbelow b hb htb
  | @union ms hne hms ih =>
    obtain ⟨t, ht⟩ := List.exists_mem_of_ne_nil ms hne
    obtain ⟨c', hc', hatom, hbelow⟩ := ih t ht
    refine ⟨c', hc', hatom, fun b hb hsub => ?_⟩
    rcases ((Known.union hne hms).subtype_iff hb).mp hsub with rfl | hfollows
    · exact (subtype_union_iff hc' hatom hb).mpr ⟨t, ht, hbelow t (hms t ht) (.refl t)⟩
    · have htb : env.Subtype t b := by
        cases hb <;> exact hfollows t ht
      exact hbelow b hb htb

section Shapes

variable {d : DeclRef} {ps as : List Ty} {r : Ty} {text : String}

theorem subtype_of_literal {b : Ty} (hb : env.Known b) (hobject : IsObject b)
    (h : env.Subtype (.literal text) b) : env.Subtype env.base.stringType b := by
  rcases ((Known.literal text).subtype_iff hb).mp h with rfl | hfollows
  · exact hobject.elim
  · cases hb with
    | «class» => exact hfollows
    | function => exact hfollows
    | literal => exact hobject.elim
    | nullable => exact hobject.elim
    | union => exact hobject.elim

theorem subtype_functions {qs : List Ty} {s : Ty} (hp : env.Known (.function ps r))
    (hq : env.Known (.function qs s)) (h : env.Subtype (.function ps r) (.function qs s)) :
    ps.length = qs.length ∧ (∀ e ∈ ps.zip qs, env.Subtype e.2 e.1) ∧ env.Subtype r s := by
  rcases (hp.subtype_iff hq).mp h with he | hfollows
  · cases he
    refine ⟨rfl, fun e he => ?_, .refl r⟩
    have he : e ∈ List.zipWith Prod.mk ps ps := he
    rw [List.zipWith_self] at he
    obtain ⟨p, -, rfl⟩ := List.mem_map.mp he
    exact .refl p
  · exact hfollows

theorem subtype_function_class (hp : env.Known (.function ps r)) (hd : env.Known (.class d as))
    (h : env.Subtype (.function ps r) (.class d as)) :
    env.Subtype (env.base.functionView ps r) (.class d as) :=
  ((hp.subtype_iff hd).mp h).resolve_left nofun

theorem subtype_class_function (hd : env.Known (.class d as)) (hp : env.Known (.function ps r))
    (h : env.Subtype (.class d as) (.function ps r)) :
    ∃ f, env.base.functions[ps.length]? = some f ∧
      ∃ args, env.asSupertype? (.class d as) f = some args ∧
        FunctionFollows env.Subtype args ps r :=
  ((hd.subtype_iff hp).mp h).resolve_left nofun

theorem subtype_classes_iff (horderly : env.IsOrderly) {d' : DeclRef} {bs : List Ty}
    (ha : env.Known (.class d as)) (hb : env.Known (.class d' bs)) :
    env.Subtype (.class d as) (.class d' bs) ↔
      ∃ view, env.asSupertype? (.class d as) d' = some view ∧
        ArgsFollow env.Subtype (env.classDef d') view bs := by
  rw [ha.subtype_iff hb]
  refine ⟨fun h => h.elim (fun he => ?_) fun h => h, .inr⟩
  cases he
  exact ⟨as, asSupertype_self horderly.isClassed d as, .refl .refl _ _⟩

end Shapes

/-! ## Functions as objects -/

theorem IsFunctionParams.length_eq {n : Nat} {params : List TypeParam}
    (h : IsFunctionParams n params) : params.length = n + 1 := by
  simpa using congrArg List.length h

theorem IsFunctionParams.variance {n i : Nat} {params : List TypeParam}
    (h : IsFunctionParams n params) :
    (params[i]?).map (·.variance) =
      if i < n then some .contravariant else if i = n then some .covariant else none := by
  rw [← List.getElem?_map, h]
  split
  · next hi => simp [List.getElem?_append, hi]
  · next hi =>
    split
    · next he => simp [he]
    · next hne =>
      simp [List.getElem?_append, hi]
      omega

/-- Arguments for the class of functions are those of a function type with so many parameters. -/
theorem functionFollows_append {X : Ty → Ty → Prop} {ps qs : List Ty} {r s : Ty}
    (hlength : ps.length = qs.length) : FunctionFollows X (ps ++ [r]) qs s ↔
      (∀ e ∈ ps.zip qs, X e.2 e.1) ∧ X r s := by
  have hresult : argAt (ps ++ [r]) qs.length = r := by simp [argAt, ← hlength]
  rw [FunctionFollows, hresult]
  refine and_congr_left fun _ => ?_
  constructor
  · rintro hqs ⟨p, q⟩ he
    obtain ⟨i, hi⟩ := List.getElem?_of_mem he
    obtain ⟨hp, hq⟩ := List.getElem?_zip_eq_some.mp hi
    have hargs := hqs (q, i) (List.mk_mem_zipIdx_iff_getElem?.mpr hq)
    obtain ⟨hlt, rfl⟩ := List.getElem?_eq_some_iff.mp hp
    simpa [argAt, List.getElem?_append, hlt] using hargs
  · rintro hzip ⟨q, i⟩ he
    have hq : qs[i]? = some q := List.mk_mem_zipIdx_iff_getElem?.mp he
    have hlt : i < ps.length := hlength ▸ (List.getElem?_eq_some_iff.mp hq).1
    have hi : (ps.zip qs)[i]? = some (ps[i], q) := by
      simp [List.getElem?_zip_eq_some, hlt, hq]
    simpa [argAt, List.getElem?_append, hlt] using hzip _ (List.mem_of_getElem? hi)

/-- A class of functions with agreeing arguments is a class above. -/
theorem argsFollow_of_function {f : DeclRef} {params : List TypeParam} {args ps : List Ty} {r : Ty}
    (hf : env.Declares f params) (hparams : IsFunctionParams ps.length params)
    (hargs : args.length ≤ ps.length + 1) (h : FunctionFollows env.Subtype args ps r) :
    ArgsFollow env.Subtype (env.classDef f) args (ps ++ [r]) := by
  obtain ⟨c, hc, -, rfl⟩ := hf
  intro i hi
  rw [hc]
  rcases Nat.lt_trichotomy i ps.length with hlt | rfl | hgt
  · have hvariance : varianceIn (some c) i = .contravariant :=
      varianceIn_eq (by rw [hparams.variance, if_pos hlt])
    have hmem : (ps[i], i) ∈ ps.zipIdx := List.mk_mem_zipIdx_iff_getElem?.mpr (by simp [hlt])
    simp only [hvariance]
    simpa [argAt, List.getElem?_append, hlt] using h.1 _ hmem
  · have hvariance : varianceIn (some c) ps.length = .covariant :=
      varianceIn_eq (by rw [hparams.variance, if_neg (Nat.lt_irrefl _), if_pos rfl])
    simp only [hvariance]
    simpa [argAt] using h.2
  · simp at hi
    omega

section Standard

variable (h : env.IsStandard)
include h

theorem known_functionView {ps : List Ty} {r : Ty} (hp : env.Known (.function ps r)) :
    env.Known (env.base.functionView ps r) := by
  cases hp with
  | function hps hr =>
    rw [BaseTypes.functionView]
    split
    · next f hf =>
      obtain ⟨params, hd, hparams⟩ := h.functions hf
      refine .class hd (by simp [hparams.length_eq]) fun a ha => ?_
      rcases List.mem_append.mp ha with ha | ha
      · exact hps a ha
      · exact List.mem_singleton.mp ha ▸ hr
    · exact .plain h.function

/-- A class below a function type is below the class of such functions. -/
theorem subtype_functionView_of_class {d : DeclRef} {as ps : List Ty} {r : Ty}
    (hd : env.Known (.class d as)) (hp : env.Known (.function ps r))
    (hsub : env.Subtype (.class d as) (.function ps r)) :
    env.Subtype (.class d as) (env.base.functionView ps r) := by
  obtain ⟨f, hf, args, hargs, hfollows⟩ := subtype_class_function hd hp hsub
  obtain ⟨params, hdecl, hparams⟩ := h.functions hf
  have hview := known_functionView h hp
  obtain ⟨f', hsite, hknown, -⟩ := known_climb h.toIsOrderly hd hargs
  obtain ⟨params', hdecl', hlength, -⟩ := hknown.class_inv
  obtain ⟨rfl, rfl⟩ := Declares.eq h.toIsOrderly hdecl hdecl' hsite.symm
  rw [BaseTypes.functionView, hf] at hview ⊢
  refine (subtype_classes_iff h.toIsOrderly hd hview).mpr ⟨args, hargs, ?_⟩
  exact argsFollow_of_function hdecl hparams
    (Nat.le_of_eq (hlength.trans hparams.length_eq)) hfollows

/-- A function below another one is an object below its class. -/
theorem subtype_functionViews {ps qs : List Ty} {r s : Ty} (hp : env.Known (.function ps r))
    (hq : env.Known (.function qs s)) (hsub : env.Subtype (.function ps r) (.function qs s)) :
    env.Subtype (env.base.functionView ps r) (env.base.functionView qs s) := by
  obtain ⟨hlength, hparams, hresult⟩ := subtype_functions hp hq hsub
  have hpView := known_functionView h hp
  have hqView := known_functionView h hq
  cases hf : env.base.functions[ps.length]? with
  | none =>
    -- with too many parameters both are objects of the class of all functions
    rw [BaseTypes.functionView, hf, BaseTypes.functionView, ← hlength, hf]
    exact .refl _
  | some f =>
    obtain ⟨params, hdecl, hfunction⟩ := h.functions hf
    simp only [BaseTypes.functionView, ← hlength, hf] at hpView hqView ⊢
    refine (subtype_classes_iff h.toIsOrderly hpView hqView).mpr ⟨ps ++ [r], ?_, ?_⟩
    · exact asSupertype_self h.isClassed f _
    · exact argsFollow_of_function hdecl (hlength ▸ hfunction) (by simp [hlength])
        ((functionFollows_append hlength).mpr ⟨hparams, hresult⟩)

/-! ## The rules for a witness -/

section Witness

variable {S C : Ty → Ty → Prop} (hS : ∀ a b, env.Subtype a b → S a b)
  (hC : ∀ a b c, env.Known a → env.Known b → env.Known c →
    env.Subtype c a → env.Subtype c b → C a b)
include hC

/-- Arguments that a witness has arguments below can be refined to the same arguments. -/
theorem argsMeet {d : DeclRef} {x y w : List Ty} (hx : env.Known (.class d x))
    (hy : env.Known (.class d y)) (hw : env.Known (.class d w))
    (hwx : ArgsFollow env.Subtype (env.classDef d) w x)
    (hwy : ArgsFollow env.Subtype (env.classDef d) w y) :
    ArgsMeet S C (env.classDef d) x y := by
  obtain ⟨params, ⟨c, hc, -, rfl⟩, hxlength, hxs⟩ := hx.class_inv
  obtain ⟨_, ⟨c', hc', -, rfl⟩, hylength, hys⟩ := hy.class_inv
  obtain ⟨_, ⟨c'', hc'', -, rfl⟩, hwlength, hws⟩ := hw.class_inv
  obtain rfl : c = c' := Option.some.inj (hc.symm.trans hc')
  obtain rfl : c = c'' := Option.some.inj (hc.symm.trans hc'')
  intro i hi
  have hlt : i < c.typeParams.length := by omega
  have hwxi := hwx i (by omega)
  have hwyi := hwy i (by omega)
  rw [hc] at hwxi hwyi ⊢
  simp only [varianceIn] at hwxi hwyi ⊢
  cases hvariance : c.variance i with
  | covariant =>
    rw [hvariance] at hwxi hwyi
    exact hC _ _ _ (hxs _ (argAt_mem (by omega))) (hys _ (argAt_mem (by omega)))
      (hws _ (argAt_mem (by omega))) hwxi hwyi
  | contravariant => trivial
  | invariant => exact absurd hvariance (h.variance_ne hc hlt)

/-- Two classes above one class. -/
theorem classesMeet {c a b : DeclRef} {cs as bs : List Ty} (hc : env.Known (.class c cs))
    (ha : env.Known (.class a as)) (hb : env.Known (.class b bs))
    (hca : env.Subtype (.class c cs) (.class a as))
    (hcb : env.Subtype (.class c cs) (.class b bs)) :
    env.ClassesMeet S C a b as bs := by
  have horderly := h.toIsOrderly
  obtain ⟨v, hv, hva⟩ := (subtype_classes_iff horderly hc ha).mp hca
  obtain ⟨w, hw, hwb⟩ := (subtype_classes_iff horderly hc hb).mp hcb
  obtain ⟨_, hadecl, -⟩ := ha.class_inv
  obtain ⟨_, hbdecl, -⟩ := hb.class_inv
  have hvKnown := (known_asSupertype horderly hc hadecl hv).1
  have hwKnown := (known_asSupertype horderly hc hbdecl hw).1
  rcases asSupertype_linear horderly hv hw with hup | hup
  · -- the first class comes first on the way up from the witness
    obtain ⟨x, hx, hwx⟩ := climb_follows horderly hvKnown hva hup
    have hxKnown := (known_asSupertype horderly ha hbdecl hx).1
    exact .inl ⟨x, hx, argsMeet h hC hxKnown hb hwKnown hwx hwb⟩
  · obtain ⟨x, hx, hvx⟩ := climb_follows horderly hwKnown hwb hup
    have hxKnown := (known_asSupertype horderly hb hadecl hx).1
    cases hab : env.asSupertype? (.class a as) b with
    | none => exact .inr ⟨hab, x, hx, argsMeet h hC ha hxKnown hvKnown hva hvx⟩
    | some y =>
      -- classes above each other are one class, which the witness sees in one way
      obtain rfl := asSupertype_antisymm horderly ha hb hab hx
      obtain rfl : v = w := Option.some.inj (hv.symm.trans hw)
      exact .inl ⟨as, asSupertype_self horderly.isClassed a as, argsMeet h hC ha hb hvKnown hva hwb⟩

/-- A function type and a class above a class or a function. -/
theorem functionMeets {c : Ty} {d : DeclRef} {ps bs : List Ty} {r : Ty} (hc : env.Known c)
    (hobject : IsObject c) (ha : env.Known (.function ps r))
    (hb : env.Known (.class d bs)) (hca : env.Subtype c (.function ps r))
    (hcb : env.Subtype c (.class d bs)) : C (env.base.functionView ps r) (.class d bs) := by
  have hview := known_functionView h ha
  cases hc with
  | «class» hd hlength hargs =>
    have hc := Known.class hd hlength hargs
    exact hC _ _ _ hview hb hc (subtype_functionView_of_class h hc ha hca) hcb
  | function hps hr =>
    have hc := Known.function hps hr
    exact hC _ _ _ hview hb (known_functionView h hc) (subtype_functionViews h hc ha hca)
      (subtype_function_class hc hb hcb)
  | literal => exact hobject.elim
  | nullable => exact hobject.elim
  | union => exact hobject.elim

/-- Two function types above a class or a function. -/
theorem functionsMeet {c : Ty} {ps qs : List Ty} {r s : Ty} (hc : env.Known c)
    (hobject : IsObject c) (ha : env.Known (.function ps r))
    (hb : env.Known (.function qs s)) (hca : env.Subtype c (.function ps r))
    (hcb : env.Subtype c (.function qs s)) : ps.length = qs.length ∧ C r s := by
  have hr : env.Known r := by cases ha; assumption
  have hs : env.Known s := by cases hb; assumption
  cases hc with
  | @«class» d _ as hd hlength hargs =>
    have hc := Known.class hd hlength hargs
    obtain ⟨f, hf, v, hv, hvr⟩ := subtype_class_function hc ha hca
    obtain ⟨g, hg, w, hw, hws⟩ := subtype_class_function hc hb hcb
    obtain ⟨fparams, hfdecl, hfunction⟩ := h.functions hf
    obtain ⟨gparams, hgdecl, -⟩ := h.functions hg
    obtain ⟨hvKnown, -⟩ := known_asSupertype h.toIsOrderly hc hfdecl hv
    obtain ⟨hwKnown, -⟩ := known_asSupertype h.toIsOrderly hc hgdecl hw
    -- one class of functions is above the other, so they are the same
    have hsame : ps.length = qs.length := by
      rcases asSupertype_linear h.toIsOrderly hv hw with hup | hup
      · have hpath := (known_asSupertype h.toIsOrderly hvKnown hgdecl hup).2
        exact h.functions_apart hf hg hpath
      · have hpath := (known_asSupertype h.toIsOrderly hwKnown hfdecl hup).2
        exact (h.functions_apart hg hf hpath).symm
    obtain rfl : f = g := Option.some.inj (hf.symm.trans (hsame ▸ hg))
    obtain rfl : v = w := Option.some.inj (hv.symm.trans hw)
    obtain ⟨params, hdecl, hvlength, hvs⟩ := hvKnown.class_inv
    obtain ⟨-, rfl⟩ := Declares.eq h.toIsOrderly hfdecl hdecl rfl
    have hlt : ps.length < v.length := by
      rw [hvlength, hfunction.length_eq]
      omega
    exact ⟨hsame, hC r s _ hr hs (hvs _ (argAt_mem hlt)) hvr.2 (hsame ▸ hws.2)⟩
  | function hps hcr =>
    have hc := Known.function hps hcr
    obtain ⟨hlength, -, hresult⟩ := subtype_functions hc ha hca
    obtain ⟨hlength', -, hresult'⟩ := subtype_functions hc hb hcb
    exact ⟨hlength.symm.trans hlength', hC r s _ hr hs hcr hresult hresult'⟩
  | literal => exact hobject.elim
  | nullable => exact hobject.elim
  | union => exact hobject.elim

/-- Two classes above a class or a function. -/
theorem classesMeet_of_atom {c : Ty} {a b : DeclRef} {as bs : List Ty} (hc : env.Known c)
    (hobject : IsObject c) (ha : env.Known (.class a as))
    (hb : env.Known (.class b bs)) (hca : env.Subtype c (.class a as))
    (hcb : env.Subtype c (.class b bs)) : env.ClassesMeet S C a b as bs := by
  cases hc with
  | «class» hd hlength hargs =>
    exact classesMeet h hC (.class hd hlength hargs) ha hb hca hcb
  | @function ps r hps hr =>
    have hc := Known.function hps hr
    have hview := known_functionView h hc
    have hviewA := subtype_function_class hc ha hca
    have hviewB := subtype_function_class hc hb hcb
    obtain ⟨d, ds, hd⟩ : ∃ d ds, env.base.functionView ps r = .class d ds := by
      rw [BaseTypes.functionView]
      split
      · exact ⟨_, _, rfl⟩
      · exact ⟨_, _, rfl⟩
    rw [hd] at hview hviewA hviewB
    exact classesMeet h hC hview ha hb hviewA hviewB
  | literal => exact hobject.elim
  | nullable => exact hobject.elim
  | union => exact hobject.elim

omit hC

/-- The class of `null` has no arguments. -/
theorem eq_nullType {c : Ty} (hc : env.Known c) (hnull : env.base.isNull c = true) :
    c = env.base.nullType := by
  cases hc with
  | «class» hd hlength hargs =>
    have hsite := of_decide_eq_true hnull
    obtain ⟨rfl, rfl⟩ := Declares.eq h.toIsOrderly hd h.null hsite
    rw [List.eq_nil_of_length_eq_zero hlength]
    rfl
  | function => cases hnull
  | literal => cases hnull
  | nullable => cases hnull
  | union => cases hnull

/-- Below classes and functions a text can be replaced by the class of texts. -/
theorem exists_object {c a b : Ty} (hc : env.Known c) (hatom : IsAtom c) (ha : env.Known a)
    (hb : env.Known b) (haObject : IsObject a) (hbObject : IsObject b) (hca : env.Subtype c a)
    (hcb : env.Subtype c b) :
    ∃ c', env.Known c' ∧ IsObject c' ∧ env.Subtype c' a ∧ env.Subtype c' b := by
  cases hc with
  | «class» hd hlength hargs => exact ⟨_, .class hd hlength hargs, trivial, hca, hcb⟩
  | function hps hr => exact ⟨_, .function hps hr, trivial, hca, hcb⟩
  | literal text =>
    exact ⟨_, .plain h.string, trivial, subtype_of_literal ha haObject hca,
      subtype_of_literal hb hbObject hcb⟩
  | nullable => exact hatom.elim
  | union => exact hatom.elim

include hC

include hC hS

/-- Two types above a class, a function or a text meet by the rule for their shapes. -/
theorem shapesMeet_of_atom {c a b : Ty} (hc : env.Known c) (hatom : IsAtom c) (ha : env.Known a)
    (hb : env.Known b) (hca : env.Subtype c a) (hcb : env.Subtype c b) :
    env.ShapesMeet S C a b := by
  have hswap : ∀ a b c, env.Known a → env.Known b → env.Known c →
      env.Subtype c a → env.Subtype c b → C b a :=
    fun a b c ha hb hc hca hcb => hC b a c hb ha hc hcb hca
  fun_cases ShapesMeet env S C a b
  case case1 => cases ha
  case case2 => cases hb
  case case3 ms _ =>
    obtain ⟨t, ht, hct⟩ := (subtype_union_iff hc hatom ha).mp hca
    exact ⟨t, ht, hC t b c (ha.union_inv t ht) hb hc hct hcb⟩
  case case4 ms _ _ =>
    obtain ⟨t, ht, hct⟩ := (subtype_union_iff hc hatom hb).mp hcb
    exact ⟨t, ht, hC a t c ha (hb.union_inv t ht) hc hca hct⟩
  case case5 => trivial
  case case6 t _ _ _ =>
    rcases (subtype_nullable_iff hc hatom ha).mp hca with hnull | hct
    · exact .inr (hS _ _ (eq_nullType h hc hnull ▸ hcb))
    · exact .inl (hC t b c ha.nullable_inv hb hc hct hcb)
  case case7 t _ _ _ =>
    rcases (subtype_nullable_iff hc hatom hb).mp hcb with hnull | hct
    · exact .inr (hS _ _ (eq_nullType h hc hnull ▸ hca))
    · exact .inl (hC t a c hb.nullable_inv ha hc hct hca)
  case case8 => exact hS _ _ ((subtype_literal_iff hc hatom).mp hca ▸ hcb)
  case case9 => exact hS _ _ ((subtype_literal_iff hc hatom).mp hcb ▸ hca)
  case case14 =>
    -- known types have no other shapes
    cases ha <;> cases hb <;> grind
  all_goals
    obtain ⟨c, hc, hobject, hca, hcb⟩ := exists_object h hc hatom ha hb trivial trivial hca hcb
  case case10 => exact functionsMeet h hC hc hobject ha hb hca hcb
  case case11 => exact functionMeets h hC hc hobject ha hb hca hcb
  case case12 => exact functionMeets h hswap hc hobject hb ha hcb hca
  case case13 => exact classesMeet_of_atom h hC hc hobject ha hb hca hcb

end Witness

/-- Two known types with a subtype in common are not denied one at any depth. -/
theorem commonUnder_of_subtypes (depth : Nat) (p : Pending) {a b c : Ty} (ha : env.Known a)
    (hb : env.Known b) (hc : env.Known c) (hca : env.Subtype c a) (hcb : env.Subtype c b) :
    env.commonUnder depth p a b = true := by
  induction depth generalizing a b c with
  | zero =>
    rw [commonUnder, ha.commonShortcut hb]
    by_cases hab : a = b
    · simp only [hab, if_true]
      rfl
    · simp only [hab, if_false]
      rfl
  | succ depth ih =>
    rw [commonUnder, ha.commonShortcut hb]
    by_cases hab : a = b
    · simp only [hab, if_true]
      rfl
    · simp only [hab, if_false]
      obtain ⟨c', hc', hatom, hbelow⟩ := exists_atom hc
      refine (env.commonStep_iff _ _ a b).mpr (shapesMeet_of_atom h ?_ ?_ hc' hatom ha hb
        (hbelow a ha hca) (hbelow b hb hcb))
      · exact fun x y hxy => subtypeUnder_of_subtype hxy depth p
      · exact fun x y z hx hy hz hzx hzy => ih hx hy hz hzx hzy

/-- Common subtypes of known types are found. -/
theorem haveCommonSubtype_of_subtypes {a b c : Ty} (ha : env.Known a) (hb : env.Known b)
    (hc : env.Known c) (hca : env.Subtype c a) (hcb : env.Subtype c b) :
    env.haveCommonSubtype a b = true := by
  rw [haveCommonSubtype_eq]
  exact commonUnder_of_subtypes h maxRelationDepth [] ha hb hc hca hcb

end Standard

end TypeEnv

end PklAnalysis
