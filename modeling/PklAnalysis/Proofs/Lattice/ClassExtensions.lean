import PklAnalysis.Proofs.Lattice.Hierarchies
import PklAnalysis.Proofs.Lattice.Transitivity

/-!
# Class extensions of the base table

Classes without type parameters may be added to the base classes with any arguments for their
superclasses, also with arguments that mention the added classes themselves.  As long as none of
them is above itself or inherits from the class of `null`, the table composes, and subtyping in it
is transitive.
-/

namespace PklAnalysis

namespace TypeTable

/-- Classes of their own with superclasses other than the class of `null`, none of them above
itself and none applied to more arguments than it has parameters. -/
structure IsExtension (cs : List (DeclRef × Ty)) : Prop where
  fresh : ∀ e ∈ cs, withBase.classes.lookup e.1.site = none
  isClass : ∀ e ∈ cs, ∃ d args, e.2 = .class d args ∧ d.site ≠ baseTypes.null.site
  applied : ∀ e ∈ cs, (withClasses cs).env.Applied e.2
  acyclic : ∀ d, ¬Relation.TransGen (withClasses cs).env.Extends d d

theorem aliases_withClasses (cs : List (DeclRef × Ty)) : (withClasses cs).aliases = [] := by
  have hfold : ∀ t : TypeTable,
      (cs.foldl (fun t e => t.defineClass e.1 [] (some e.2)) t).aliases = t.aliases := by
    induction cs with
    | nil => exact fun t => rfl
    | cons e cs ih => exact fun t => ih _
  exact hfold withBase

/-- No base class inherits from the class of `null`, which is neither the class of texts nor that
of all functions. -/
theorem base_null_apart :
    (∀ e ∈ withBase.classes, ∀ s ∈ e.2.superclass, headSite? s ≠ some baseTypes.null.site) ∧
    baseTypes.string.site ≠ baseTypes.null.site ∧
    baseTypes.function.site ≠ baseTypes.null.site := by
  decide

/-- The classes of functions have places of their own, apart from those of their ancestors. -/
theorem base_function_sites :
    (baseTypes.functions.map (·.site)).Nodup ∧
    (∀ g ∈ baseTypes.functions, baseTypes.function.site ≠ g.site) ∧
    ∀ g ∈ baseTypes.functions, baseTypes.any.site ≠ g.site := by
  decide

section Extension

variable {cs : List (DeclRef × Ty)} (h : IsExtension cs)
include h

/-- A base class hands on its parameters, one for each parameter of its superclass. -/
theorem handsOn_of_base {c : ClassDef} {s : Ty} (hs : isBaseSuperclass c s = true) :
    ∃ d given, s = .class d given ∧ (withClasses cs).env.Applied s ∧
      (withClasses cs).env.HandsOn c d given := by
  cases s with
  | «class» d given =>
    obtain ⟨c', hc', hgiven⟩ := (Option.any_eq_true _ _).mp hs
    simp only [Bool.and_eq_true, decide_eq_true_eq] at hgiven
    obtain ⟨⟨-, hlength⟩, hall⟩ := hgiven
    have hdef : (withClasses cs).env.classDef d = some c' := classDef_of_base h.fresh hc'
    have hhands : ∀ (j : Nat) (a : Ty), given[j]? = some a →
        ∃ i name, a = .param ⟨c.decl.site, i, name⟩ ∧
          (c.typeParams[i]?).map (·.variance) = some .covariant ∧
          (c'.typeParams[j]?).map (·.variance) = some .covariant := by
      intro j a ha
      have hparam := List.all_eq_true.mp hall (a, j) (List.mk_mem_zipIdx_iff_getElem?.mpr ha)
      cases a with
      | param p =>
        simp only [Bool.and_eq_true, decide_eq_true_eq] at hparam
        exact ⟨p.index, p.name, by rw [← hparam.1.1], hparam.1.2, hparam.2⟩
      | _ => cases hparam
    refine ⟨d, given, rfl, .class (fun c'' hc'' => ?_) fun a ha => ?_, c', hdef, hhands⟩
    · obtain rfl : c' = c'' := Option.some.inj (hdef.symm.trans hc'')
      exact Nat.le_of_eq hlength
    · obtain ⟨j, hj⟩ := List.getElem?_of_mem ha
      obtain ⟨i, name, rfl, -⟩ := hhands j a hj
      exact .param _
  | _ => cases hs

theorem isStraight_withClasses : (withClasses cs).env.IsStraight where
  classDef_congr {d d'} hsite := by
    change (withClasses cs).classes.lookup d.site = (withClasses cs).classes.lookup d'.site
    rw [hsite]
  superclass_eq {d c s} hc hs := by
    rcases classDef_cases hc with ⟨e, he, -, rfl⟩ | hbase
    · obtain rfl : e.2 = s := Option.some.inj hs
      obtain ⟨d', args, hclass, -⟩ := h.isClass e he
      exact ⟨d', args, hclass⟩
    · obtain ⟨d', given, hclass, -⟩ :=
        handsOn_of_base h (base_superclass _ (mem_of_lookup hbase) s hs)
      exact ⟨d', given, hclass⟩
  applied {d c s} hc hs := by
    rcases classDef_cases hc with ⟨e, he, -, rfl⟩ | hbase
    · obtain rfl : e.2 = s := Option.some.inj hs
      exact h.applied e he
    · obtain ⟨_, _, -, happlied, -⟩ :=
        handsOn_of_base h (base_superclass _ (mem_of_lookup hbase) s hs)
      exact happlied
  handsOn {d c d' given} hc hs := by
    rcases classDef_cases hc with ⟨e, -, -, rfl⟩ | hbase
    · exact .inl rfl
    · obtain ⟨_, _, hclass, -, hhands⟩ :=
        handsOn_of_base h (base_superclass _ (mem_of_lookup hbase) _ hs)
      cases hclass
      exact .inr hhands
  acyclic := h.acyclic
  finite := by
    refine ⟨(withClasses cs).classes.map Prod.fst, Nat.le_of_eq (List.length_map _), ?_⟩
    intro d c hc
    exact List.mem_map.mpr ⟨(d.site, c), mem_of_lookup hc, rfl⟩

theorem not_extends_null {d d' : DeclRef} (hext : (withClasses cs).env.Extends d d') :
    d'.site ≠ baseTypes.null.site := by
  obtain ⟨c, args, hc, hs⟩ := hext
  rcases classDef_cases hc with ⟨e, he, -, rfl⟩ | hbase
  · obtain ⟨d'', args', hclass, hne⟩ := h.isClass e he
    cases hclass.symm.trans (Option.some.inj hs)
    exact hne
  · exact fun hsite => base_null_apart.1 _ (mem_of_lookup hbase) _ hs (congrArg some hsite)

theorem isComposable_withClasses : (withClasses cs).env.IsComposable where
  toIsStraight := isStraight_withClasses h
  aliasDef d := by
    change (withClasses cs).aliases.lookup d.site = none
    rw [aliases_withClasses]
    rfl
  null := by
    rw [env_base_withClasses]
    exact declares_needed h.fresh (by simp)
  null_ne hext := by
    rw [env_base_withClasses]
    exact not_extends_null h hext
  string := by
    rw [env_base_withClasses]
    exact declares_needed h.fresh (by simp)
  string_ne := by
    rw [env_base_withClasses]
    exact base_null_apart.2.1
  function := by
    rw [env_base_withClasses]
    exact declares_needed h.fresh (by simp)
  function_ne := by
    rw [env_base_withClasses]
    exact base_null_apart.2.2
  functions hf := declares_functions h.fresh hf
  functions_apart {m n f g g'} hf hg hpath hsite := by
    rw [env_base_withClasses] at hf hg
    obtain ⟨hnodup, hfunction, hany⟩ := base_function_sites
    have hgMem : g ∈ baseTypes.functions := List.mem_of_getElem? hg
    rcases above_function h.fresh (List.mem_of_getElem? hf) hpath with rfl | rfl | rfl
    · have hm : (baseTypes.functions.map (·.site))[m]? = some g'.site := by
        rw [List.getElem?_map, hf, Option.map_some]
      have hn : (baseTypes.functions.map (·.site))[n]? = some g.site := by
        rw [List.getElem?_map, hg, Option.map_some]
      exact (List.getElem?_inj (List.getElem?_eq_some_iff.mp hm).1 hnodup).mp
        (hm.trans (hsite ▸ hn.symm))
    · exact absurd hsite (hfunction g hgMem)
    · exact absurd hsite (hany g hgMem)
  function_apart {n g g'} hg hpath := by
    rw [env_base_withClasses] at hg hpath
    obtain ⟨-, hfunction, hany⟩ := base_function_sites
    have hgMem : g ∈ baseTypes.functions := List.mem_of_getElem? hg
    rcases above_all_functions h.fresh hpath with rfl | rfl
    · exact hfunction g hgMem
    · exact hany g hgMem

end Extension

/-- Subtyping is transitive where what is between is definite: all types are made up of the base
classes, functions, texts and the classes of an extension, and the answers do not depend on the
depth. -/
theorem isSubtype_trans {cs : List (DeclRef × Ty)} (h : IsExtension cs) {a b c : Ty}
    (ha : (withClasses cs).env.Applied a) (hb : (withClasses cs).env.Definite b)
    (hc : (withClasses cs).env.Applied c) (hab : (withClasses cs).env.isSubtype a b = true)
    (habSettled : (withClasses cs).env.Settled a b)
    (hbc : (withClasses cs).env.isSubtype b c = true)
    (hbcSettled : (withClasses cs).env.Settled b c) :
    (withClasses cs).env.isSubtype a c = true :=
  TypeEnv.isSubtype_of_subtype (TypeEnv.Subtype.trans (isComposable_withClasses h) ha hb hc
    (TypeEnv.subtype_of_isSubtype hab habSettled) (TypeEnv.subtype_of_isSubtype hbc hbcSettled))

/-! ## A class of listings of itself -/

def tree : DeclRef := ⟨⟨baseModule, 30⟩, "Tree"⟩

/-- Trees are listings of trees. -/
def forest : List (DeclRef × Ty) := [(tree, .class baseTypes.listing [.class tree []])]

theorem definite_tree : (withClasses forest).env.Definite (.class tree []) :=
  .of_length (by decide) (List.forall_mem_nil _)

theorem definite_listing {t : Ty} (ht : (withClasses forest).env.Definite t) :
    (withClasses forest).env.Definite (.class baseTypes.listing [t]) :=
  .of_length (by simp only [List.length_singleton]; decide)
    (List.forall_mem_singleton.mpr ht)

theorem isExtension_forest : IsExtension forest where
  fresh := by decide
  isClass := by
    simp only [forest, List.forall_mem_singleton]
    exact ⟨_, _, rfl, by decide⟩
  applied := by
    simp only [forest, List.forall_mem_singleton]
    exact (definite_listing definite_tree).applied
  acyclic := acyclic_of_rank
    (fun site => (((withClasses forest).env.ancestors ⟨site, ""⟩ : AncestorChain).classes).length)
    (by decide)

/-- A tree is a listing of trees, and so it may be a listing of listings of trees. -/
theorem isSubtype_forest : (withClasses forest).env.isSubtype (.class tree [])
    (.nullable (.class baseTypes.listing [.class baseTypes.listing [.class tree []]])) = true :=
  isSubtype_trans isExtension_forest definite_tree.applied (definite_listing definite_tree)
    (.nullable (definite_listing (definite_listing definite_tree)).applied)
    (by decide) (by decide) (by decide) (by decide)

end TypeTable

end PklAnalysis
