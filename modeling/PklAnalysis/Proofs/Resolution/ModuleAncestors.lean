import PklAnalysis.Proofs.Resolution.InheritedAnnotations
import PklAnalysis.Proofs.Resolution.WidenedTypes

/-!
# The modules among the ancestors of a module

What a module inherits is found in two ways: types are looked for in its supermodules, and members
in the classes above the module seen as a class.  Both ways follow the clauses of the modules, each
with a list of its own of what it has met.  Where one of them goes on so does the other, from a
module to the class of the same module, and above the module with the last clause there are only
classes of the base module that are no modules.
-/

namespace PklAnalysis.Session

variable {W : Store} {t : Tree} {c : ClassDef}

/-- The modules among some classes. -/
def modulesOf (classes : List ClassDef) : List DeclRef := (classes.filter (·.isModule)).map (·.decl)

theorem modulesOf_eq_nil_of_isPrefix {classes classes' : List ClassDef} (h : classes <+: classes')
    (hnone : modulesOf classes' = []) : modulesOf classes = [] := by
  have hprefix : modulesOf classes <+: modulesOf classes' := (h.filter _).map _
  rw [hnone] at hprefix
  exact List.prefix_nil.mp hprefix

/-! ## One step -/

theorem isModule_of_answers (hW : W.IsPlain) (ht : t ∈ W.held)
    (hc : Answers W (classDef (moduleDecl t)) (some c)) : c.isModule = true := by
  obtain ⟨name, isOpen, hroot⟩ := hW.rooted_of_mem ht
  have hkind : t.kind? (moduleDecl t).site.node = some (.module name isOpen) := hroot
  have htree : (tree? (moduleDecl t).site.module (new W)).1 = some t :=
    (IsCurrent.new hW).tree?_of_mem hW ht
  have hnew := hc.eq_new hW
  rw [classDef, remembered_apply, shelf_classes.empty] at hnew
  simp only [bind_apply, htree, classAt?, hkind] at hnew
  exact (congrArg ClassDef.isModule (Option.some.inj hnew)).symm

/-- The class of a module extends what the superclass of the module is found to be. -/
theorem superclass_of_answers (hW : W.IsPlain) (ht : t ∈ W.held) {super : Ty}
    (hc : Answers W (classDef (moduleDecl t)) (some c))
    (hsuper : Answers W (moduleSuperclass t) super) : c.superclass = some super := by
  obtain ⟨c', hc', hsuperclass⟩ := exists_classDef_moduleDecl hW ht hsuper
  obtain rfl := Option.some.inj (hc.unique hW hc')
  exact hsuperclass

/-- From a class of the base module on there are no modules in a chain. -/
theorem modulesOf_base (hW : W.IsPlain) {d : DeclRef} (hd : d ∈ BaseModule.types.decls)
    {first : Option ClassDef} (hfirst : Answers W (classDef d) first) {seen : List Site}
    {classes : List ClassDef} (h : Unrolls W seen first classes) : modulesOf classes = [] := by
  have hasked : ∀ d ∈ BaseModule.types.decls,
      modulesOf (ancestors d (new emptyStore)).1.classes = [] ∧
        (ancestors d (new emptyStore)).2.trees = Dict.empty ∧
        (ancestors d (new emptyStore)).2.targets = Dict.empty := by
    decide +kernel
  obtain ⟨hnone, htrees, htargets⟩ := hasked d hd
  have hsteady := steady_ancestors (Grounded.baseTypes (T := ∅) d hd)
  have hchain := answers_of_emptyStore hsteady htrees htargets hW
  cases first with
  | none =>
    cases h
    rfl
  | some c =>
    obtain rfl := decl_of_answers_classDef hW hfirst
    have hdefined := IsDefined.of_answers hW (Grounded.baseTypes c.decl hd) hfirst
    have hunrolls := unrolls_ancestors hW hdefined hchain
    exact modulesOf_eq_nil_of_isPrefix (h.isPrefix hW hunrolls (List.nil_subset _)) hnone

/-- Where the walk over supermodules stands and where that over classes does: at a module and its
class, or where no more modules come. -/
inductive AreAbreast (W : Store) : Option Tree → Option ClassDef → Prop
  | module {t : Tree} {c : ClassDef} (ht : t ∈ W.held)
      (hc : Answers W (classDef (moduleDecl t)) (some c)) : AreAbreast W (some t) (some c)
  | ended {first : Option ClassDef} (h : ∀ {seen classes}, Unrolls W seen first classes →
      modulesOf classes = []) : AreAbreast W none first

/-- Both walks go on from a module to the same place. -/
theorem areAbreast_next (hW : W.IsPlain) (ht : t ∈ W.held)
    (hc : Answers W (classDef (moduleDecl t)) (some c)) {next : Option Tree}
    (hnext : Answers W (supermodule? t) next) {first : Option ClassDef}
    (hfirst : Answers W (superclassDef c.superclass) first) : AreAbreast W next first := by
  cases hclause : t.clause? with
  | none =>
    have hsuper : Answers W (moduleSuperclass t) (BaseTypes.plain BaseModule.types.module) := by
      rw [moduleSuperclass, hclause]
      exact .pure _
    rw [supermodule?, hclause] at hnext
    obtain rfl := hnext.unique hW (.pure none)
    rw [superclass_of_answers hW ht hc hsuper] at hfirst
    exact .ended (modulesOf_base hW (by simp) hfirst)
  | some clause =>
    obtain ⟨n, kind, uri⟩ := clause
    rw [supermodule?, hclause] at hnext
    have hsuper : Answers W (moduleSuperclass t) (next.elim .unknown moduleType) := by
      rw [moduleSuperclass, hclause]
      refine hnext.bind ?_
      cases next with
      | none => exact .pure _
      | some parent => exact .pure _
    rw [superclass_of_answers hW ht hc hsuper] at hfirst
    cases next with
    | none =>
      -- a clause that leads nowhere makes the superclass unknown
      obtain rfl := hfirst.unique hW (.pure none)
      refine .ended fun h => ?_
      cases h
      rfl
    | some parent =>
      obtain ⟨m, hm⟩ := exists_uriAt?_clause hclause
      have hparent : parent ∈ W.held := Store.IsPlain.mem_held
        (hnext.grounded hW (steady_resolveModule? (hW.grounded_of_mem ht) hm)).of_some
      obtain ⟨super, hanswers, -⟩ := exists_classDef_moduleDecl hW hparent
        (.of_steady hW (steady_moduleSuperclass (hW.grounded_of_mem hparent)))
      obtain rfl := hfirst.unique hW hanswers
      exact .module hparent hanswers

/-! ## The whole way -/

/-- The place of the class of a module. -/
theorem site_mem_iff {seen : List ModuleId} {id : ModuleId} :
    (⟨id, Tree.root⟩ : Site) ∈ seen.map (Site.mk · Tree.root) ↔ id ∈ seen := by
  simp

/-- Walks that are abreast and have met the same modules end with the same modules. -/
theorem modulesOf_unrolls (hW : W.IsPlain) {n : Nat} {seen : List ModuleId} {next : Option Tree}
    {first : Option ClassDef} (habreast : AreAbreast W next first) (hnodup : seen.Nodup)
    (hsites : seen.map (Site.mk · Tree.root) ⊆ W.sites) (hn : W.sites.length < n + seen.length)
    {ts : List Tree} (hts : Answers W (supermodulesFrom n seen next) ts) {classes : List ClassDef}
    (h : Unrolls W (seen.map (Site.mk · Tree.root)) first classes) :
    modulesOf classes = ts.map moduleDecl := by
  induction n generalizing seen next first ts classes with
  | zero =>
    have hinj : Function.Injective (Site.mk · Tree.root) := fun a b hab => congrArg Site.module hab
    have hlength := ((hnodup.map hinj).subperm hsites).length_le
    rw [List.length_map] at hlength
    omega
  | succ n ih =>
    cases habreast with
    | ended hended =>
      obtain rfl := hts.unique hW (.pure [])
      exact hended h
    | @module t c ht hc =>
      have hdecl := decl_of_answers_classDef hW hc
      have hsite : c.decl.site = ⟨t.id, Tree.root⟩ := congrArg DeclRef.site hdecl
      rw [supermodulesFrom] at hts
      by_cases hmet : t.id ∈ seen
      · rw [if_pos (List.contains_iff_mem.mpr hmet)] at hts
        obtain rfl := hts.unique hW (.pure [])
        cases h with
        | met => rfl
        | step hnew => exact absurd (hsite ▸ site_mem_iff.mpr hmet) hnew
      · rw [if_neg fun hcontains => hmet (List.contains_iff_mem.mp hcontains)] at hts
        cases h with
        | met hmet' => exact absurd (site_mem_iff.mp (hsite ▸ hmet')) hmet
        | @step _ _ first rest _ hfirst hrest =>
          have hground := hW.grounded_of_mem ht
          have hnext := Answers.of_steady hW (steady_supermodule? hground)
          generalize (supermodule? t (new W)).1 = next at hnext
          have hmore := Answers.of_steady hW (steady_supermodulesFrom n (t.id :: seen)
            (hnext.grounded hW (steady_supermodule? hground)))
          generalize (supermodulesFrom n (t.id :: seen) next (new W)).1 = ts' at hmore
          obtain rfl := hts.unique hW (hnext.bind (hmore.bind (.pure _)))
          have htail := ih (areAbreast_next hW ht hc hnext hfirst)
            (List.nodup_cons.mpr ⟨hmet, hnodup⟩)
            (List.cons_subset.mpr ⟨Store.IsPlain.site_mem hground.moduleDecl, hsites⟩)
            (by rw [List.length_cons]; omega) hmore (hsite ▸ hrest)
          have hmodule := isModule_of_answers hW ht hc
          rw [List.map_cons, ← htail, ← hdecl]
          simp [modulesOf, hmodule]

/-- The modules among the ancestors of a module are the module itself and its supermodules, nearest
first, whatever the sessions have been asked before.  Clauses that lead nowhere, to the base module
or in a circle end both in the same place. -/
theorem modulesOf_ancestors (hW : W.IsPlain) (ht : t ∈ W.held) {s s' : Session}
    (hs : IsFaithful W s) (hs' : IsFaithful W s') :
    modulesOf (ancestors (moduleDecl t) s).1.classes =
      (t :: (supermodules t s').1).map moduleDecl := by
  have hground := hW.grounded_of_mem ht
  obtain ⟨c, hc, -⟩ := exists_classDef_moduleDecl hW ht
    (.of_steady hW (steady_moduleSuperclass hground))
  have hdecl := decl_of_answers_classDef hW hc
  have hchain := Answers.of_steady hW (steady_ancestors hground.moduleDecl)
  generalize (ancestors (moduleDecl t) (new W)).1 = chain at hchain
  have hunrolls := unrolls_ancestors hW (.of_answers hW hground.moduleDecl hc) (hdecl ▸ hchain)
  have hnext := Answers.of_steady hW (steady_supermodule? hground)
  generalize (supermodule? t (new W)).1 = next at hnext
  have hnextGround := hnext.grounded hW (steady_supermodule? hground)
  have hmore := Answers.of_steady hW
    (steady_supermodulesFrom (W.sites.length + 1) [t.id] hnextGround)
  generalize (supermodulesFrom (W.sites.length + 1) [t.id] next (new W)).1 = ts at hmore
  have hsupers : Answers W (supermodules t) ts :=
    hnext.bind (Widening.answers_supermodules hW hground hnextGround (by omega) hmore)
  have hwalk : Answers W (supermodulesFrom (W.sites.length + 2) [] (some t)) (t :: ts) :=
    hnext.bind (hmore.bind (.pure _))
  rw [(hchain s hs).1, (hsupers s' hs').1]
  exact modulesOf_unrolls hW (.module ht hc) List.nodup_nil (List.nil_subset _)
    (by rw [List.length_nil]; omega) hwalk hunrolls

/-- A module that amends one that amends itself. -/
theorem modulesOf_ancestors_tail : ∃ t, loopStore.tree? tailId = some t ∧
    modulesOf (ancestors (moduleDecl t) (new loopStore)).1.classes =
      (t :: (supermodules t (new loopStore)).1).map moduleDecl := by
  obtain ⟨t, ht⟩ := Option.isSome_iff_exists.mp
    (by decide : (loopStore.tree? tailId).isSome = true)
  have hid := isPlain_loopStore.keyed ht
  exact ⟨t, ht, modulesOf_ancestors isPlain_loopStore (.inr (hid ▸ ht))
    (isFaithful_new isPlain_loopStore) (isFaithful_new isPlain_loopStore)⟩

/-! ## A module under the identity of the base module -/

/-- A module that amends the base module by a URI that is not to the letter that of the base
module. -/
def wayfarer : Source.Module := { bareModule "file:///w/m.pkl" with amends := some " pkl:base" }

/-- A store with a module under the identity of the base module that amends another one. -/
def crossroads : Store := Store.ofSources default .none [
  bareModule "file:///w/other.pkl",
  { bareModule BaseModule.uri with amends := some "file:///w/other.pkl" },
  wayfarer]

/-- The URI is followed to the module of the store, so its clause leads on to another supermodule,
but the class of the identity is that of the base module, which has no clause. -/
theorem not_forall_modulesOf_ancestors :
    ¬∀ (W : Store) (t : Tree), W.IsBare → W.tree? t.id = some t →
      modulesOf (ancestors (moduleDecl t) (new W)).1.classes =
        (t :: (supermodules t (new W)).1).map moduleDecl := by
  intro h
  have hbare : crossroads.IsBare := Store.isBare_ofSources ProjectIndex.manifestIn?_none
  have hagree := h crossroads (wayfarer.treeAs (Store.idOf wayfarer.uri) 1) hbare rfl
  revert hagree
  decide +kernel

end PklAnalysis.Session
