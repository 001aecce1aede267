import PklAnalysis.Lattice.Table
import PklAnalysis.Proofs.Lattice.CommonSubtypes

/-!
# Class hierarchies above the base classes

`TypeTable.withClasses` adds classes without type parameters to the base classes.  If their
superclasses are known and no class is above itself, the table is a standard environment, since each
base class has at most the parameters of its own for arguments of its superclass.
-/

namespace PklAnalysis

namespace TypeTable

/-- The base classes and further classes without type parameters, each with its superclass. -/
def withClasses (cs : List (DeclRef × Ty)) : TypeTable :=
  cs.foldl (fun t e => t.defineClass e.1 [] (some e.2)) withBase

/-- The definition of a class without type parameters. -/
def simpleClass (e : DeclRef × Ty) : ClassDef := ⟨e.1, [], some e.2, false, true, false, []⟩

/-- Classes of their own with known superclasses, none of them above itself. -/
structure IsHierarchy (cs : List (DeclRef × Ty)) : Prop where
  fresh : ∀ e ∈ cs, withBase.classes.lookup e.1.site = none
  isClass : ∀ e ∈ cs, ∃ d args, e.2 = .class d args
  known : ∀ e ∈ cs, (withClasses cs).env.Known e.2
  acyclic : ∀ d, ¬Relation.TransGen (withClasses cs).env.Extends d d

/-! ## The definitions in the table -/

theorem base_withClasses (cs : List (DeclRef × Ty)) : (withClasses cs).base = baseTypes := by
  have hfold : ∀ t : TypeTable,
      (cs.foldl (fun t e => t.defineClass e.1 [] (some e.2)) t).base = t.base := by
    induction cs with
    | nil => exact fun t => rfl
    | cons e cs ih => exact fun t => ih _
  exact hfold withBase

theorem env_base_withClasses (cs : List (DeclRef × Ty)) :
    (withClasses cs).env.base = baseTypes := base_withClasses cs

theorem classes_withClasses (cs : List (DeclRef × Ty)) : (withClasses cs).classes =
    (cs.map fun e => (e.1.site, simpleClass e)).reverse ++ withBase.classes := by
  have hfold : ∀ t : TypeTable,
      (cs.foldl (fun t e => t.defineClass e.1 [] (some e.2)) t).classes =
        (cs.map fun e => (e.1.site, simpleClass e)).reverse ++ t.classes := by
    induction cs with
    | nil => exact fun t => rfl
    | cons e cs ih =>
      intro t
      rw [List.foldl_cons, ih]
      simp [defineClass, simpleClass]
  exact hfold withBase

/-- The definition of a base class. -/
def baseClass? (d : DeclRef) : Option ClassDef := withBase.classes.lookup d.site

/-- The class that a superclass is. -/
def headSite? : Ty → Option Site
  | .class d _ => some d.site
  | _ => none

/-- No class is above itself if superclasses are lower in some order. -/
theorem acyclic_of_rank {t : TypeTable} (rank : Site → Nat) (hrank : ∀ e ∈ t.classes,
      ∀ site ∈ e.2.superclass.bind headSite?, rank site < rank e.1) (d : DeclRef) :
    ¬Relation.TransGen t.env.Extends d d := by
  have hstep : ∀ d d', t.env.Extends d d' → rank d'.site < rank d.site := by
    rintro d d' ⟨c, args, hc, hsuper⟩
    exact hrank (d.site, c) (mem_of_lookup hc) d'.site (by rw [hsuper]; rfl)
  have hpath : ∀ d', Relation.TransGen t.env.Extends d d' → rank d'.site < rank d.site := by
    intro d' h
    induction h with
    | single h => exact hstep _ _ h
    | tail _ h ih => exact Nat.lt_trans (hstep _ _ h) ih
  exact fun h => Nat.lt_irrefl _ (hpath d h)

section Fresh

variable {cs : List (DeclRef × Ty)} (hfresh : ∀ e ∈ cs, withBase.classes.lookup e.1.site = none)
  {d : DeclRef} {c : ClassDef}

theorem classDef_cases (hc : (withClasses cs).env.classDef d = some c) :
    (∃ e ∈ cs, e.1.site = d.site ∧ simpleClass e = c) ∨ baseClass? d = some c := by
  have hlookup : (withClasses cs).classes.lookup d.site = some c := hc
  rw [classes_withClasses, List.lookup_append] at hlookup
  rcases Option.or_eq_some_iff.mp hlookup with hnew | ⟨-, hbase⟩
  · obtain ⟨e, he, heq⟩ := List.mem_map.mp (List.mem_reverse.mp (mem_of_lookup hnew))
    exact .inl ⟨e, he, congrArg Prod.fst heq, congrArg Prod.snd heq⟩
  · exact .inr hbase

include hfresh

/-- The further classes do not stand in the way of the base classes. -/
theorem classDef_of_base (hc : baseClass? d = some c) :
    (withClasses cs).env.classDef d = some c := by
  have hnew : (cs.map fun e => (e.1.site, simpleClass e)).reverse.lookup d.site = none := by
    rw [List.lookup_eq_none_iff]
    intro p hp
    obtain ⟨e, he, rfl⟩ := List.mem_map.mp (List.mem_reverse.mp hp)
    simp only [bne_iff_ne, ne_eq]
    intro hsite
    have hnone := hfresh e he
    rw [← hsite] at hnone
    exact Option.some_ne_none c (hc.symm.trans hnone)
  change (withClasses cs).classes.lookup d.site = some c
  rw [classes_withClasses, List.lookup_append, hnew, Option.none_or]
  exact hc

theorem declares_base (hc : baseClass? d = some c) (hd : c.decl = d) :
    (withClasses cs).env.Declares d c.typeParams :=
  ⟨c, classDef_of_base hfresh hc, hd, rfl⟩

end Fresh

/-! ## The base classes -/

/-- A superclass among the base classes, with covariant parameters for its arguments. -/
def isBaseSuperclass (c : ClassDef) : Ty → Bool
  | .class d given =>
    (baseClass? d).any fun c' => c'.decl = d && given.length = c'.typeParams.length &&
      given.zipIdx.all fun (a, j) =>
        match a with
        | .param p => p.owner = c.decl.site &&
          (c.typeParams[p.index]?).map (·.variance) = some .covariant &&
          (c'.typeParams[j]?).map (·.variance) = some .covariant
        | _ => false
  | _ => false

theorem base_superclass : ∀ e ∈ withBase.classes, ∀ s ∈ e.2.superclass,
    isBaseSuperclass e.2 s = true := by
  decide

theorem base_variance : ∀ e ∈ withBase.classes, ∀ p ∈ e.2.typeParams,
    p.variance ≠ .invariant := by
  decide

/-- The classes that the rules need, and the classes of functions by their numbers of parameters. -/
theorem base_needed :
    (∀ d ∈ [baseTypes.null, baseTypes.string, baseTypes.function],
      (baseClass? d).map (fun c => (c.decl, c.typeParams)) = some (d, [])) ∧
    ∀ e ∈ baseTypes.functions.zipIdx, (baseClass? e.1).map (·.decl) = some e.1 ∧
      (baseClass? e.1).map (·.typeParams.map (·.variance)) =
        some (List.replicate e.2 .contravariant ++ [.covariant]) := by
  decide

/-- What is above a class of functions is no class of functions. -/
theorem base_above_function :
    (∀ f ∈ baseTypes.functions, (baseClass? f).map (·.superclass)
      = some (some (.class baseTypes.function []))) ∧
    (baseClass? baseTypes.function).map (·.superclass)
      = some (some (.class baseTypes.any [])) ∧
    (baseClass? baseTypes.any).map (·.superclass) = some none ∧
    baseTypes.functions.Nodup ∧ baseTypes.function ∉ baseTypes.functions ∧
    baseTypes.any ∉ baseTypes.functions := by
  decide

/-! ## The table as an environment -/

section Fresh

variable {cs : List (DeclRef × Ty)} (hfresh : ∀ e ∈ cs, withBase.classes.lookup e.1.site = none)
include hfresh

theorem declares_needed {d : DeclRef}
    (hd : d ∈ [baseTypes.null, baseTypes.string, baseTypes.function]) :
    (withClasses cs).env.Declares d [] := by
  obtain ⟨c, hc, hcd⟩ := Option.map_eq_some_iff.mp (base_needed.1 d hd)
  obtain ⟨hdecl, hparams⟩ := Prod.mk.inj hcd
  exact hparams ▸ declares_base hfresh hc hdecl

theorem declares_functions {n : Nat} {f : DeclRef}
    (hf : (withClasses cs).base.functions[n]? = some f) :
    ∃ params, (withClasses cs).env.Declares f params ∧ TypeEnv.IsFunctionParams n params := by
  rw [base_withClasses] at hf
  obtain ⟨hdecl, hparams⟩ := base_needed.2 (f, n) (List.mk_mem_zipIdx_iff_getElem?.mpr hf)
  obtain ⟨c, hc, hcd⟩ := Option.map_eq_some_iff.mp hdecl
  rw [hc] at hparams
  exact ⟨c.typeParams, declares_base hfresh hc hcd, Option.some.inj hparams⟩

/-- A base class extends what the base classes say. -/
theorem extends_of_base {d d' : DeclRef} {s : Option Ty}
    (hs : (baseClass? d).map (·.superclass) = some s) (hext : (withClasses cs).env.Extends d d') :
    ∃ args, s = some (.class d' args) := by
  obtain ⟨c, hc, rfl⟩ := Option.map_eq_some_iff.mp hs
  obtain ⟨c', args, hc', hsuper⟩ := hext
  have hsame : (withClasses cs).env.classDef d = some c := classDef_of_base hfresh hc
  obtain rfl : c = c' := Option.some.inj (hsame.symm.trans hc')
  exact ⟨args, hsuper⟩

/-- Above the class of all functions there is the class of all values. -/
theorem above_all_functions {d : DeclRef}
    (hpath : Relation.ReflTransGen (withClasses cs).env.Extends baseTypes.function d) :
    d = baseTypes.function ∨ d = baseTypes.any := by
  obtain ⟨-, hfunction, hany, -⟩ := base_above_function
  induction hpath with
  | refl => exact .inl rfl
  | tail _ hext ih =>
    rcases ih with rfl | rfl
    · obtain ⟨args, he⟩ := extends_of_base hfresh hfunction hext
      cases he
      exact .inr rfl
    · obtain ⟨args, he⟩ := extends_of_base hfresh hany hext
      cases he

/-- Above a class of functions there are the class of all functions and the class of all values. -/
theorem above_function {f d : DeclRef} (hf : f ∈ baseTypes.functions)
    (hpath : Relation.ReflTransGen (withClasses cs).env.Extends f d) :
    d = f ∨ d = baseTypes.function ∨ d = baseTypes.any := by
  rcases hpath.cases_head with rfl | ⟨e, hext, hrest⟩
  · exact .inl rfl
  · obtain ⟨args, he⟩ := extends_of_base hfresh (base_above_function.1 _ hf) hext
    cases he
    exact .inr (above_all_functions hfresh hrest)

end Fresh

section Standard

variable {cs : List (DeclRef × Ty)} (h : IsHierarchy cs)
include h

theorem isSuperclass_of_base {c : ClassDef} {s : Ty} (hs : isBaseSuperclass c s = true) :
    (withClasses cs).env.IsSuperclass c s := by
  cases s with
  | «class» d given =>
    obtain ⟨c', hc', hgiven⟩ := (Option.any_eq_true _ _).mp hs
    simp only [Bool.and_eq_true, decide_eq_true_eq] at hgiven
    obtain ⟨⟨hd, hlength⟩, hall⟩ := hgiven
    refine ⟨d, c'.typeParams, given, rfl, declares_base h.fresh hc' hd, hlength, fun j a ha => ?_⟩
    have hparam := List.all_eq_true.mp hall (a, j) (List.mk_mem_zipIdx_iff_getElem?.mpr ha)
    cases a with
    | param p =>
      simp only [Bool.and_eq_true, decide_eq_true_eq] at hparam
      exact .inr ⟨p.index, p.name, by rw [← hparam.1.1], hparam.1.2, hparam.2⟩
    | _ => cases hparam
  | _ => cases hs

theorem isOrderly_withClasses : (withClasses cs).env.IsOrderly where
  classDef_congr {d d'} hsite := by
    change (withClasses cs).classes.lookup d.site = (withClasses cs).classes.lookup d'.site
    rw [hsite]
  superclass {d c s} hc hs := by
    rcases classDef_cases hc with ⟨e, he, -, rfl⟩ | hbase
    · obtain rfl : e.2 = s := Option.some.inj hs
      obtain ⟨d', args, hclass⟩ := h.isClass e he
      have hknown := h.known e he
      rw [hclass] at hknown ⊢
      obtain ⟨params, hdecl, hlength, hargs⟩ := hknown.class_inv
      refine ⟨d', params, args, rfl, hdecl, hlength, fun j a ha => ?_⟩
      exact .inl (hargs a (List.mem_of_getElem? ha))
    · exact isSuperclass_of_base h (base_superclass _ (mem_of_lookup hbase) s hs)
  acyclic := h.acyclic
  null := by
    rw [env_base_withClasses]
    exact declares_needed h.fresh (by simp)

theorem isStandard_withClasses : (withClasses cs).env.IsStandard where
  toIsOrderly := isOrderly_withClasses h
  string := by
    rw [env_base_withClasses]
    exact declares_needed h.fresh (by simp)
  function := by
    rw [env_base_withClasses]
    exact declares_needed h.fresh (by simp)
  functions hf := declares_functions h.fresh hf
  functions_apart {m n f g} hf hg hpath := by
    rw [env_base_withClasses] at hf hg
    obtain ⟨-, -, -, hnodup, hfunction, hany⟩ := base_above_function
    have hgMem : g ∈ baseTypes.functions := List.mem_of_getElem? hg
    rcases above_function h.fresh (List.mem_of_getElem? hf) hpath with rfl | rfl | rfl
    · have hlt := (List.getElem?_eq_some_iff.mp hf).1
      exact (List.getElem?_inj hlt hnodup).mp (hf.trans hg.symm)
    · exact absurd hgMem hfunction
    · exact absurd hgMem hany
  variance_ne {d c i} hc hi := by
    rcases classDef_cases hc with ⟨e, he, -, rfl⟩ | hbase
    · exact absurd hi (Nat.not_lt_zero i)
    · have hne := base_variance _ (mem_of_lookup hbase) c.typeParams[i] (List.getElem_mem hi)
      rw [ClassDef.variance, List.getElem?_eq_getElem hi]
      exact hne

end Standard

/-- Two types that have a subtype in common are never denied one: all types are made up of the base
classes, functions, texts and the classes of a hierarchy, and the answers about the subtype do not
depend on the depth. -/
theorem haveCommonSubtype_of_isSubtype {cs : List (DeclRef × Ty)} (h : IsHierarchy cs)
    {a b c : Ty} (ha : (withClasses cs).env.Known a) (hb : (withClasses cs).env.Known b)
    (hc : (withClasses cs).env.Known c) (hca : (withClasses cs).env.isSubtype c a = true)
    (hcaSettled : (withClasses cs).env.Settled c a)
    (hcb : (withClasses cs).env.isSubtype c b = true)
    (hcbSettled : (withClasses cs).env.Settled c b) :
    (withClasses cs).env.haveCommonSubtype a b = true :=
  TypeEnv.haveCommonSubtype_of_subtypes (isStandard_withClasses h) ha hb hc
    (TypeEnv.subtype_of_isSubtype hca hcaSettled) (TypeEnv.subtype_of_isSubtype hcb hcbSettled)

/-! ## A small hierarchy -/

def animal : DeclRef := ⟨⟨baseModule, 30⟩, "Animal"⟩

def bird : DeclRef := ⟨⟨baseModule, 31⟩, "Bird"⟩

/-- Animals, and birds among them. -/
def zoo : List (DeclRef × Ty) :=
  [(animal, .class baseTypes.typed []), (bird, .class animal [])]

theorem isHierarchy_zoo : IsHierarchy zoo where
  fresh := by decide
  isClass := by simp [zoo]
  known := by
    simp only [zoo, List.forall_mem_cons, List.not_mem_nil, false_implies, implies_true, and_true]
    exact ⟨.plain (by decide), .plain (by decide)⟩
  acyclic := acyclic_of_rank
    (fun site => (((withClasses zoo).env.ancestors ⟨site, ""⟩ : AncestorChain).classes).length)
    (by decide)

/-- A list of birds is a collection of animals and a list of birds or of one text. -/
theorem haveCommonSubtype_zoo :
    let env := (withClasses zoo).env
    let birds : Ty := .class baseTypes.list [.class bird []]
    env.haveCommonSubtype (.nullable (.class baseTypes.collection [.class animal []]))
      (.union [birds, .literal "none"]) = true := by
  intro env birds
  have hbird : env.Known (.class bird []) := .plain (by decide)
  have hanimal : env.Known (.class animal []) := .plain (by decide)
  have hlist : env.Declares baseTypes.list [outParam "Element"] := by decide
  have hcollection : env.Declares baseTypes.collection [outParam "Element"] := by decide
  have hbirds : env.Known birds := .class hlist rfl (by simpa using hbird)
  have hanimals : env.Known (.class baseTypes.collection [.class animal []]) :=
    .class hcollection rfl (by simpa using hanimal)
  have hunion : env.Known (.union [birds, .literal "none"]) :=
    .union (List.cons_ne_nil _ _) (by simpa using ⟨hbirds, .literal "none"⟩)
  exact haveCommonSubtype_of_isSubtype isHierarchy_zoo (.nullable hanimals) hunion hbirds
    (by decide) (by decide) (by decide) (by decide)

end TypeTable

end PklAnalysis
