import Mathlib.Logic.Relation
import PklAnalysis.Proofs.Modules.DependencyCycles
import PklAnalysis.Proofs.Resolution.FaithfulQueries
import PklAnalysis.Proofs.Resolution.OpenAncestors
import PklAnalysis.Proofs.Resolution.ReportedReferences
import PklAnalysis.Proofs.Resolution.WidenedAncestors

/-!
# Modules that inherit from themselves

A module inherits from the one to which its clause leads.  The cycles of this relation are the groups
that the dependency graph of all clauses reports.  A check of a module follows the superclasses of the
module as a class, and so it reports not only the modules of a cycle but also those that lead into one.

The ancestors of a class are found by following superclasses until there is none or one is met again.
Each class has one superclass at most, so the chain leads back into itself exactly if it leads into a
cycle: the classes of the cycle need not include the one that it starts from.
-/

namespace PklAnalysis

open Relation

section LeadsIntoCycle

variable {α : Type} {R : α → α → Prop} {a b : α}

/-- A relation leads from something to something that it leads back to. -/
def LeadsIntoCycle (R : α → α → Prop) (a : α) : Prop := ∃ b, ReflTransGen R a b ∧ TransGen R b b

theorem LeadsIntoCycle.head (h : R a b) : LeadsIntoCycle R b → LeadsIntoCycle R a
  | ⟨c, hbc, hcc⟩ => ⟨c, hbc.head h, hcc⟩

theorem leadsIntoCycle_iff_of_unique (hab : R a b) (hunique : ∀ c, R a c → c = b) :
    LeadsIntoCycle R a ↔ LeadsIntoCycle R b := by
  refine ⟨?_, .head hab⟩
  rintro ⟨c, hac, hcc⟩
  rcases hac.cases_head with rfl | ⟨b', hab', hbc⟩
  · -- a cycle through the start goes through what follows it
    obtain ⟨b', hab', hba⟩ := TransGen.head'_iff.mp hcc
    obtain rfl := hunique b' hab'
    exact ⟨a, hba, hcc⟩
  · obtain rfl := hunique b' hab'
    exact ⟨c, hbc, hcc⟩

theorem not_leadsIntoCycle_of_last (h : ∀ b, ¬R a b) : ¬LeadsIntoCycle R a := by
  rintro ⟨c, hac, hcc⟩
  rcases hac.cases_head with rfl | ⟨b, hab, -⟩
  · obtain ⟨b, hab, -⟩ := TransGen.head'_iff.mp hcc
    exact h b hab
  · exact h b hab

end LeadsIntoCycle

namespace Session

variable {W : Store}

/-! ## Classes and their superclasses -/

/-- A class is what its declaration is found to be. -/
structure IsDefined (W : Store) (c : ClassDef) : Prop where
  grounded : Grounded W.held c
  answers : Answers W (classDef c.decl) (some c)

/-- The superclass of a class is another one. -/
def IsExtendedBy (W : Store) (c super : ClassDef) : Prop :=
  Answers W (superclassDef c.superclass) (some super)

theorem decl_of_answers_classDef (hW : W.IsPlain) {d : DeclRef} {c : ClassDef}
    (h : Answers W (classDef d) (some c)) : c.decl = d := by
  have hnew := h.eq_new hW
  rw [classDef, remembered_apply, shelf_classes.empty] at hnew
  exact decl_of_tree?_classAt? hnew

theorem IsDefined.of_answers (hW : W.IsPlain) {d : DeclRef} (hd : Grounded W.held d) {c : ClassDef}
    (h : Answers W (classDef d) (some c)) : IsDefined W c :=
  ⟨(h.grounded hW (steady_classDef hd)).of_some, decl_of_answers_classDef hW h ▸ h⟩

/-- Classes at one place are the same. -/
theorem IsDefined.eq (hW : W.IsPlain) {c e : ClassDef} (hc : IsDefined W c) (he : IsDefined W e)
    (hsite : c.decl.site = e.decl.site) : c = e := by
  have hdecl := hW.decl_eq hc.grounded.1 he.grounded.1 hsite
  exact Option.some.inj (hc.answers.unique hW (hdecl ▸ he.answers))

theorem IsExtendedBy.isDefined (hW : W.IsPlain) {c super : ClassDef} (hc : IsDefined W c)
    (h : IsExtendedBy W c super) : IsDefined W super := by
  have hsuper := hc.grounded.2.1
  rw [IsExtendedBy] at h
  cases hsuperclass : c.superclass with
  | none =>
    rw [hsuperclass] at h
    cases h.unique hW (.pure none)
  | some type =>
    rw [hsuperclass] at h hsuper
    have hexpand := Answers.of_steady hW (steady_expand hsuper.of_some)
    have hground := hexpand.grounded hW (steady_expand hsuper.of_some)
    cases hexpanded : (env.expand type (new W)).1 with
    | «class» d args =>
      rw [hexpanded] at hexpand hground
      have hd := (Grounded.class_iff.mp hground).1
      exact .of_answers hW hd (h.of_bind hW hexpand (steady_classDef hd))
    | _ =>
      rw [hexpanded] at hexpand
      cases h.unique hW (hexpand.bind (.pure none))

/-! ## Chains -/

/-- A chain that takes enough steps is found to lead back exactly if the class that it starts from leads
into a cycle; what has been met before leads to this class. -/
theorem isCyclic_chainFrom_iff (hW : W.IsPlain) {n : Nat} {seen : List Site} {c : ClassDef}
    (hc : IsDefined W c) (hnodup : seen.Nodup) (hsites : seen ⊆ W.sites)
    (hn : W.sites.length < n + seen.length)
    (hseen : ∀ site ∈ seen, ∃ e, IsDefined W e ∧ e.decl.site = site ∧ TransGen (IsExtendedBy W) e c)
    {chain : AncestorChain} (h : Answers W (env.chainFrom n seen (some c)) chain) :
    chain.isCyclic = true ↔ LeadsIntoCycle (IsExtendedBy W) c := by
  induction n generalizing seen c chain with
  | zero =>
    have hlength := (hnodup.subperm hsites).length_le
    omega
  | succ n ih =>
    rw [chainFrom_succ] at h
    split at h
    · next hmet =>
      obtain rfl := h.unique hW (.pure _)
      obtain ⟨e, he, hsite, hec⟩ := hseen _ (by simpa using hmet)
      obtain rfl := he.eq hW hc hsite
      exact iff_of_true rfl ⟨e, .refl, hec⟩
    · next hnew =>
      have hsuper := Answers.of_steady hW (steady_superclassDef hc.grounded.2.1)
      generalize (superclassDef c.superclass (new W)).1 = next at hsuper
      have hnext := hsuper.grounded hW (steady_superclassDef hc.grounded.2.1)
      have hrest := Answers.of_steady hW (steady_chainFrom n (c.decl.site :: seen) hnext)
      generalize (env.chainFrom n (c.decl.site :: seen) next (new W)).1 = rest at hrest
      obtain rfl := h.unique hW (hsuper.bind (hrest.bind (.pure _)))
      cases next with
      | none =>
        have hend : env.chainFrom n (c.decl.site :: seen) none = pure ⟨[], false⟩ := by
          cases n <;> rfl
        rw [hend] at hrest
        obtain rfl := hrest.unique hW (.pure _)
        refine iff_of_false nofun (not_leadsIntoCycle_of_last fun e he => ?_)
        cases hsuper.unique hW he
      | some super =>
        have hextends : IsExtendedBy W c super := hsuper
        have hunique : ∀ e, IsExtendedBy W c e → e = super := fun e he =>
          Option.some.inj (Answers.unique hW he hsuper)
        rw [leadsIntoCycle_iff_of_unique hextends hunique]
        change rest.isCyclic = true ↔ _
        refine ih (hextends.isDefined hW hc) (List.nodup_cons.mpr ⟨by simpa using hnew, hnodup⟩)
          (List.cons_subset.mpr ⟨Store.IsPlain.site_mem hc.grounded.1, hsites⟩)
          (by rw [List.length_cons]; omega) (List.forall_mem_cons.mpr ⟨?_, ?_⟩) hrest
        · exact ⟨c, hc, rfl, .single hextends⟩
        · intro site hsite
          obtain ⟨e, he, hsite, hec⟩ := hseen site hsite
          exact ⟨e, he, hsite, hec.tail hextends⟩

/-- The ancestors of a class are found to lead back exactly if the class leads into a cycle. -/
theorem isCyclic_ancestors_iff (hW : W.IsPlain) {d : DeclRef} (hd : Grounded W.held d) {c : ClassDef}
    (hc : Answers W (classDef d) (some c)) {chain : AncestorChain}
    (h : Answers W (ancestors d) chain) :
    chain.isCyclic = true ↔ LeadsIntoCycle (IsExtendedBy W) c := by
  have hdefined := IsDefined.of_answers hW hd hc
  have hground := hdefined.grounded.some
  have hchain := Answers.of_steady hW (steady_chainFrom (W.sites.length + 1) [] hground)
  have hask : ∀ d, ancestors d = remembered d.site (·.chains) (fun s chains => { s with chains })
      (env.ancestors d) := fun _ => rfl
  have hancestors := Answers.remembered shelf_chains hask hW (steady_ancestors hd)
    (hc.bind (Widening.answers_chain hW hground (by omega) hchain))
  obtain rfl := h.unique hW hancestors
  exact isCyclic_chainFrom_iff hW hdefined List.nodup_nil (List.nil_subset _)
    (by rw [List.length_nil]; omega) (List.forall_mem_nil _) hchain

/-- The classes of the base module do not lead into a cycle. -/
theorem not_leadsIntoCycle_base (hW : W.IsPlain) {d : DeclRef} (hd : d ∈ BaseModule.types.decls)
    {c : ClassDef} (hc : Answers W (classDef d) (some c)) :
    ¬LeadsIntoCycle (IsExtendedBy W) c := by
  have hground : Grounded W.held d := Grounded.baseTypes d hd
  have hchain := Answers.of_steady hW (steady_ancestors hground)
  rw [← isCyclic_ancestors_iff hW hground hc hchain]
  have hunknown := (answers_hasUnknownAncestor_base hW hd).unique hW (hchain.bind (.pure _))
  intro hcyclic
  rw [hcyclic] at hunknown
  cases hunknown

end Session

namespace Store

variable {W : Store} {a b : ModuleId}

/-! ## The graph of the clauses -/

/-- The module from which a module inherits, with the kind of the clause, if the clause leads to one. -/
def parent? (W : Store) (id : ModuleId) : Option (ModuleId × DependencyKind) := do
  let (_, kind, uri) ← (← W.tree? id).clause?
  let parent ← (resolve uri id W).1.toOption
  return (parent.id, .ofClause kind)

/-- A module inherits from another one. -/
def Inherits (W : Store) (a b : ModuleId) : Prop := ∃ kind, W.parent? a = some (b, kind)

/-- All modules, then one reference for each clause that leads to a module. -/
def clauseEntries (W : Store) : List DependencyGraph.Entry :=
  W.ids.map .module ++ W.ids.filterMap fun id =>
    (W.parent? id).map fun (parent, kind) => .dependency id parent kind

def clauseGraph (W : Store) : DependencyGraph := .ofEntries W.clauseEntries

/-- A module is in a group of modules that inherit from themselves. -/
def IsOnCycle (W : Store) (id : ModuleId) : Prop :=
  ∃ group ∈ W.clauseGraph.inheritanceCycles, id ∈ group

theorem mem_ids_of_tree? {id : ModuleId} {t : Tree} (h : W.tree? id = some t) : id ∈ W.ids := by
  obtain ⟨e, he, hid, -⟩ := Dict.exists_mem_of_get? h
  rw [ids, List.mem_mergeSort]
  exact List.mem_map.mpr ⟨e, he, beq_iff_eq.mp hid⟩

theorem resolve_fst_of_isPlain (hW : W.IsPlain) (uri : String) (importer : ModuleId) :
    (resolve uri importer W).1 = W.find uri importer := by
  obtain ⟨answers, hresolve, -⟩ := resolve_of_isBare hW.bare uri importer
  rw [hresolve]

/-- The base module is not in the store. -/
theorem find_baseUri (hW : W.IsPlain) (importer : ModuleId) :
    W.find BaseModule.uri importer = .error (.notFound BaseModule.uri importer) := by
  have hlocate : locateIn W.config none BaseModule.uri importer = .ok (.single BaseModule.id none) :=
    rfl
  have hstored : W.stored? [⟨BaseModule.id, none⟩] = none := by
    rw [stored?, List.findSome?_cons, hW.base]
    rfl
  rw [find, hlocate]
  simp only [Target.single, hstored]

theorem parent?_eq_some_iff (hW : W.IsPlain) {kind : DependencyKind} :
    W.parent? a = some (b, kind) ↔ ∃ t n clause uri parent, W.tree? a = some t ∧
      t.clause? = some (n, clause, uri) ∧ W.find uri a = .ok parent ∧ parent.id = b ∧
        .ofClause clause = kind := by
  simp only [parent?, Option.bind_eq_bind, Option.bind_eq_some_iff, Option.pure_def,
    Option.some.injEq, Prod.mk.injEq, resolve_fst_of_isPlain hW]
  constructor
  · rintro ⟨t, ht, ⟨n, clause, uri⟩, hclause, parent, hparent, hid, hkind⟩
    exact ⟨t, n, clause, uri, parent, ht, hclause, Session.eq_ok_of_toOption hparent, hid, hkind⟩
  · rintro ⟨t, n, clause, uri, parent, ht, hclause, hparent, hid, hkind⟩
    exact ⟨t, ht, ⟨n, clause, uri⟩, hclause, parent, by rw [hparent]; rfl, hid, hkind⟩

theorem dependsOn_clauseGraph (hW : W.IsPlain) :
    W.clauseGraph.DependsOn DependencyKind.isInheritance a b ↔ W.Inherits a b := by
  rw [clauseGraph, DependencyGraph.dependsOn_ofEntries]
  constructor
  · rintro ⟨kind, -, before, after, hentries, -⟩
    have hmem : DependencyGraph.Entry.dependency a b kind ∈ W.clauseEntries := by
      rw [hentries]
      exact List.mem_append_right _ List.mem_cons_self
    rw [clauseEntries, List.mem_append] at hmem
    rcases hmem with hmem | hmem
    · obtain ⟨id, -, hid⟩ := List.mem_map.mp hmem
      cases hid
    · obtain ⟨id, -, hid⟩ := List.mem_filterMap.mp hmem
      obtain ⟨⟨parent, clause⟩, hparent, hedge⟩ := Option.map_eq_some_iff.mp hid
      cases hedge
      exact ⟨kind, hparent⟩
  · rintro ⟨kind, hparent⟩
    obtain ⟨t, n, clause, uri, parent, ht, -, hfind, rfl, rfl⟩ :=
      (parent?_eq_some_iff hW).mp hparent
    have ha := mem_ids_of_tree? ht
    have hb := mem_ids_of_tree? (hW.tree?_of_find hfind)
    have hedge : DependencyGraph.Entry.dependency a parent.id (.ofClause clause) ∈
        W.ids.filterMap fun id => (W.parent? id).map fun (parent, kind) =>
          DependencyGraph.Entry.dependency id parent kind :=
      List.mem_filterMap.mpr ⟨a, ha, by rw [hparent]; rfl⟩
    obtain ⟨before, after, hsplit⟩ := List.append_of_mem hedge
    have hinherits : DependencyKind.isInheritance (.ofClause clause) = true := by
      cases clause <;> rfl
    refine ⟨_, hinherits, W.ids.map .module ++ before, after, ?_, ?_, ?_⟩
    · rw [clauseEntries, hsplit, List.append_assoc]
    · exact List.mem_append_left _ (List.mem_map_of_mem ha)
    · exact List.mem_append_left _ (List.mem_map_of_mem hb)

/-- The groups of the graph are the cycles of inheritance. -/
theorem isOnCycle_iff (hW : W.IsPlain) : W.IsOnCycle a ↔ TransGen W.Inherits a a := by
  have hreport := (DependencyGraph.isCycleReport_ofEntries W.clauseEntries).2.1
  have hsame : W.clauseGraph.DependsOn DependencyKind.isInheritance = W.Inherits := by
    funext a b
    exact propext (dependsOn_clauseGraph hW)
  rw [← hsame]
  exact hreport.listed a

end Store

namespace Session

variable {W : Store} {a b : ModuleId} {c super : ClassDef}

/-! ## Modules as classes -/

/-- A class is a module of the store. -/
def IsClassOf (W : Store) (id : ModuleId) (c : ClassDef) : Prop :=
  ∃ t, W.tree? id = some t ∧ Answers W (classDef (moduleDecl t)) (some c)

theorem IsClassOf.unique (hW : W.IsPlain) {c' : ClassDef} (h : IsClassOf W a c)
    (h' : IsClassOf W a c') : c = c' := by
  obtain ⟨t, ht, hc⟩ := h
  obtain ⟨t', ht', hc'⟩ := h'
  obtain rfl := Option.some.inj (ht.symm.trans ht')
  exact Option.some.inj (hc.unique hW hc')

theorem IsClassOf.isDefined (hW : W.IsPlain) (h : IsClassOf W a c) :
    IsDefined W c ∧ c.decl.site.module = a := by
  obtain ⟨t, ht, hc⟩ := h
  have hid := hW.keyed ht
  have hground : Grounded W.held t := hW.grounded_of_mem (.inr (hid ▸ ht))
  have hdecl := decl_of_answers_classDef hW hc
  refine ⟨.of_answers hW hground.moduleDecl hc, ?_⟩
  rw [hdecl, ← hid]
  rfl

theorem IsClassOf.id_unique (hW : W.IsPlain) (h : IsClassOf W a c) (h' : IsClassOf W b c) : a = b :=
  (h.isDefined hW).2.symm.trans (h'.isDefined hW).2

theorem answers_tree?_of_mem (hW : W.IsPlain) {t : Tree} (ht : t ∈ W.held) :
    Answers W (tree? t.id) (some t) := by
  intro s hs
  have hanswers := Widening.answers_tree? hW t.id s hs
  exact ⟨hs.current.tree?_of_mem hW ht, hanswers.2⟩

/-- A module is defined as a class with the superclass to which its clause leads. -/
theorem exists_classDef_moduleDecl (hW : W.IsPlain) {t : Tree} (ht : t ∈ W.held) {super : Ty}
    (hsuper : Answers W (moduleSuperclass t) super) :
    ∃ c, Answers W (classDef (moduleDecl t)) (some c) ∧ c.superclass = some super := by
  obtain ⟨name, isOpen, hroot⟩ := hW.rooted_of_mem ht
  let c : ClassDef := {
    decl := moduleDecl t, typeParams := [], superclass := some super, isAbstract := false,
    isOpen := isOpen, isModule := true, members := membersOf t Tree.root (moduleDecl t) }
  have hat : Answers W (classAt? t (moduleDecl t)) (some c) := by
    have hkind : t.kind? (moduleDecl t).site.node = some (.module name isOpen) := hroot
    rw [classAt?, hkind]
    exact hsuper.bind (.pure _)
  refine ⟨c, .remembered shelf_classes (fun _ => rfl) hW
    (steady_classDef (hW.grounded_of_mem ht).moduleDecl) ?_, rfl⟩
  exact (answers_tree?_of_mem hW ht).bind hat

/-- A superclass that is given as a class is the definition of that class. -/
theorem isExtendedBy_iff_of_class {d : DeclRef} {args : List Ty}
    (hc : c.superclass = some (.class d args)) :
    IsExtendedBy W c super ↔ Answers W (classDef d) (some super) := by
  rw [IsExtendedBy, hc]
  rfl

theorem not_isExtendedBy_of_unknown (hW : W.IsPlain) (hc : c.superclass = some .unknown) :
    ¬IsExtendedBy W c super := by
  intro h
  rw [IsExtendedBy, hc] at h
  cases h.unique hW (.pure none)

/-- What extends a class of the base module does not lead into a cycle. -/
theorem not_leadsIntoCycle_of_base (hW : W.IsPlain) {d : DeclRef} (hd : d ∈ BaseModule.types.decls)
    {args : List Ty} (hc : c.superclass = some (.class d args)) :
    ¬LeadsIntoCycle (IsExtendedBy W) c := by
  by_cases hlast : ∃ super, IsExtendedBy W c super
  · obtain ⟨super, hsuper⟩ := hlast
    rw [leadsIntoCycle_iff_of_unique hsuper fun e he =>
      Option.some.inj (Answers.unique hW he hsuper)]
    exact not_leadsIntoCycle_base hW hd ((isExtendedBy_iff_of_class hc).mp hsuper)
  · exact not_leadsIntoCycle_of_last fun super hsuper => hlast ⟨super, hsuper⟩

/-- A module without a clause does not lead into a cycle. -/
theorem not_leadsIntoCycle_of_clause?_eq_none (hW : W.IsPlain) {t : Tree} (ht : t ∈ W.held)
    (hclause : t.clause? = none) (hc : Answers W (classDef (moduleDecl t)) (some c)) :
    ¬LeadsIntoCycle (IsExtendedBy W) c := by
  have hsuper : Answers W (moduleSuperclass t) (BaseTypes.plain BaseModule.types.module) := by
    rw [moduleSuperclass, hclause]
    exact .pure _
  obtain ⟨c', hc', hsuperclass⟩ := exists_classDef_moduleDecl hW ht hsuper
  obtain rfl := Option.some.inj (hc.unique hW hc')
  exact not_leadsIntoCycle_of_base hW (by simp) hsuperclass

/-- The superclass of a module is the module to which its clause leads. -/
theorem answers_moduleSuperclass (hW : W.IsPlain) {t : Tree} (ht : t ∈ W.held) {n : Nat}
    {kind : ClauseKind} {uri : String} (hclause : t.clause? = some (n, kind, uri)) :
    Answers W (moduleSuperclass t) ((if uri = BaseModule.uri then some BaseModule.tree
      else (W.find uri t.id).toOption).elim .unknown moduleType) := by
  obtain ⟨m, hm⟩ := exists_uriAt?_clause hclause
  have htarget := Widening.answers_resolveModule? hW (hW.grounded_of_mem ht) hm
  rw [moduleSuperclass, hclause]
  refine htarget.bind ?_
  generalize (if uri = BaseModule.uri then some BaseModule.tree
    else (W.find uri t.id).toOption) = target
  cases target with
  | none => exact .pure _
  | some parent => exact .pure _

theorem exists_isClassOf (hW : W.IsPlain) {t : Tree} (ht : W.tree? t.id = some t) :
    ∃ c, IsClassOf W t.id c := by
  have hmem : t ∈ W.held := .inr ht
  obtain ⟨c, hc, -⟩ := exists_classDef_moduleDecl hW hmem
    (.of_steady hW (steady_moduleSuperclass (hW.grounded_of_mem hmem)))
  exact ⟨c, t, ht, hc⟩

/-! ## Steps -/

/-- Where a module inherits from another one, so does its class. -/
theorem IsClassOf.step (hW : W.IsPlain) (hc : IsClassOf W a c) (h : W.Inherits a b) :
    ∃ super, IsExtendedBy W c super ∧ IsClassOf W b super := by
  obtain ⟨t, ht, hclass⟩ := hc
  obtain ⟨kind, hparent⟩ := h
  obtain ⟨t', n, clause, uri, parent, ht', hclause, hfind, rfl, -⟩ :=
    (Store.parent?_eq_some_iff hW).mp hparent
  obtain rfl := Option.some.inj (ht.symm.trans ht')
  obtain rfl := hW.keyed ht
  have huri : uri ≠ BaseModule.uri := by
    rintro rfl
    rw [Store.find_baseUri hW] at hfind
    cases hfind
  have hsuper := answers_moduleSuperclass hW (.inr ht) hclause
  rw [if_neg huri, hfind] at hsuper
  obtain ⟨c', hc', hsuperclass⟩ := exists_classDef_moduleDecl hW (.inr ht) hsuper
  obtain rfl := Option.some.inj (hclass.unique hW hc')
  have hheld := hW.tree?_of_find hfind
  obtain ⟨super, hparentClass⟩ := exists_isClassOf hW hheld
  obtain ⟨parent', hparent', hdef⟩ := hparentClass
  obtain rfl := Option.some.inj (hheld.symm.trans hparent')
  exact ⟨super, (isExtendedBy_iff_of_class hsuperclass).mpr hdef, parent, hheld, hdef⟩

/-- What the class of a module extends is the class of the module from which it inherits, or it does not
lead into a cycle. -/
theorem IsClassOf.cases (hW : W.IsPlain) (hc : IsClassOf W a c) (h : IsExtendedBy W c super) :
    (∃ b, W.Inherits a b ∧ IsClassOf W b super) ∨ ¬LeadsIntoCycle (IsExtendedBy W) super := by
  obtain ⟨t, ht, hclass⟩ := hc
  obtain rfl := hW.keyed ht
  have hmem : t ∈ W.held := .inr ht
  cases hclause : t.clause? with
  | none =>
    refine .inr fun hcycle => ?_
    exact not_leadsIntoCycle_of_clause?_eq_none hW hmem hclause hclass (hcycle.head h)
  | some clause =>
    obtain ⟨n, kind, uri⟩ := clause
    have hsuper := answers_moduleSuperclass hW hmem hclause
    obtain ⟨c', hc', hsuperclass⟩ := exists_classDef_moduleDecl hW hmem hsuper
    obtain rfl := Option.some.inj (hclass.unique hW hc')
    by_cases huri : uri = BaseModule.uri
    · rw [if_pos huri] at hsuperclass
      have hdef := (isExtendedBy_iff_of_class hsuperclass).mp h
      exact .inr (not_leadsIntoCycle_of_clause?_eq_none hW W.base_mem_held (by decide +kernel) hdef)
    · rw [if_neg huri] at hsuperclass
      cases hfind : W.find uri t.id with
      | error e =>
        rw [hfind] at hsuperclass
        exact absurd h (not_isExtendedBy_of_unknown hW hsuperclass)
      | ok parent =>
        rw [hfind] at hsuperclass
        have hdef := (isExtendedBy_iff_of_class hsuperclass).mp h
        have hparent : W.parent? t.id = some (parent.id, .ofClause kind) :=
          (Store.parent?_eq_some_iff hW).mpr
            ⟨t, n, kind, uri, parent, ht, hclause, hfind, rfl, rfl⟩
        exact .inl ⟨parent.id, ⟨_, hparent⟩, parent, hW.tree?_of_find hfind, hdef⟩

/-! ## Paths -/

/-- The class of a module leads to those of the modules from which it inherits. -/
theorem IsClassOf.exists_of_reflTransGen (hW : W.IsPlain) (h : ReflTransGen W.Inherits a b)
    (hc : IsClassOf W a c) : ∃ e, ReflTransGen (IsExtendedBy W) c e ∧ IsClassOf W b e := by
  induction h with
  | refl => exact ⟨c, .refl, hc⟩
  | tail _ hstep ih =>
    obtain ⟨e, hce, he⟩ := ih
    obtain ⟨super, hsuper, hb⟩ := he.step hW hstep
    exact ⟨super, hce.tail hsuper, hb⟩

/-- Classes that lead into a cycle from the class of a module are those of modules from which it
inherits. -/
theorem IsClassOf.exists_of_leadsIntoCycle (hW : W.IsPlain) {e : ClassDef}
    (h : ReflTransGen (IsExtendedBy W) c e) (he : LeadsIntoCycle (IsExtendedBy W) e)
    (hc : IsClassOf W a c) : ∃ b, ReflTransGen W.Inherits a b ∧ IsClassOf W b e := by
  induction h using ReflTransGen.head_induction_on generalizing a with
  | refl => exact ⟨a, .refl, hc⟩
  | head hstep hrest ih =>
    rcases hc.cases hW hstep with ⟨b, hab, hb⟩ | hnot
    · obtain ⟨b', hbb', hb'⟩ := ih hb
      exact ⟨b', hbb'.head hab, hb'⟩
    · obtain ⟨x, hex, hxx⟩ := he
      exact absurd ⟨x, hrest.trans hex, hxx⟩ hnot

/-- The class of a module leads into a cycle exactly if the module inherits from one on a cycle. -/
theorem IsClassOf.leadsIntoCycle_iff (hW : W.IsPlain) (hc : IsClassOf W a c) :
    LeadsIntoCycle (IsExtendedBy W) c ↔ LeadsIntoCycle W.Inherits a := by
  constructor
  · rintro ⟨e, hce, hee⟩
    obtain ⟨b, hab, hb⟩ := hc.exists_of_leadsIntoCycle hW hce ⟨e, .refl, hee⟩
    obtain ⟨super, hsuper, hback⟩ := TransGen.head'_iff.mp hee
    rcases hb.cases hW hsuper with ⟨b', hbb', hb'⟩ | hnot
    · obtain ⟨b'', hb'b'', hb''⟩ := hb'.exists_of_leadsIntoCycle hW hback ⟨e, .refl, hee⟩
      obtain rfl := hb.id_unique hW hb''
      exact ⟨b, hab, .head' hbb' hb'b''⟩
    · exact absurd ⟨e, hback, hee⟩ hnot
  · rintro ⟨b, hab, hbb⟩
    obtain ⟨e, hce, he⟩ := hc.exists_of_reflTransGen hW hab
    obtain ⟨b', hbb', hback⟩ := TransGen.head'_iff.mp hbb
    obtain ⟨super, hsuper, hb'⟩ := he.step hW hbb'
    obtain ⟨e', hse', he'⟩ := hb'.exists_of_reflTransGen hW hback
    obtain rfl := he.unique hW he'
    exact ⟨e, hce, .head' hsuper hse'⟩

/-! ## The check -/

variable {t : Tree} {options : CheckOptions}

/-- A check of a module reports that the module inherits from itself. -/
def ReportsCycle (t : Tree) (options : CheckOptions) (s : Session) : Prop :=
  ∃ d ∈ (checkModule t options s).1, d.finding = .circularModule (moduleName t)

theorem checkModuleCycle_apply {s : Session} (hs : IsFaithful W s) {chain : AncestorChain}
    (hchain : Answers W (ancestors (moduleDecl t)) chain) :
    (checkModuleCycle t s).1 = if chain.isCyclic then some (.atNode t
      ((t.clause?.map (·.1)).getD Tree.root) (.circularModule (moduleName t))) else none := by
  rw [checkModuleCycle, bind_apply, (hchain s hs).1]
  split <;> rfl

/-- A check reports the modules that lead into a cycle of inheritance. -/
theorem reportsCycle_iff_leadsIntoCycle (hW : W.IsPlain) (ht : W.tree? t.id = some t)
    (hoptions : options.circularInheritance = true) :
    ReportsCycle t options (new W) ↔ LeadsIntoCycle W.Inherits t.id := by
  have hground : Grounded W.held t := hW.grounded_of_mem (.inr ht)
  obtain ⟨c, hc⟩ := exists_isClassOf hW ht
  obtain ⟨t', ht', hclass⟩ := hc
  obtain rfl := Option.some.inj (ht.symm.trans ht')
  have hchain := Answers.of_steady hW (steady_ancestors hground.moduleDecl)
  have hcheck := checkModuleCycle_apply (isFaithful_beforeCycles hW hground options) hchain
  rw [← IsClassOf.leadsIntoCycle_iff hW ⟨t, ht, hclass⟩,
    ← isCyclic_ancestors_iff hW hground.moduleDecl hclass hchain]
  constructor
  · rintro ⟨d, hd, hfinding⟩
    obtain ⟨-, hfound⟩ := (mem_checkModule_moduleCycle (by rw [hfinding]; rfl)).mp hd
    rw [hcheck] at hfound
    split at hfound
    · assumption
    · cases hfound
  · intro hcyclic
    rw [if_pos hcyclic] at hcheck
    exact ⟨_, (mem_checkModule_moduleCycle rfl).mpr ⟨hoptions, hcheck⟩, rfl⟩

/-- A module is reported to inherit from itself if it inherits, at once or in turn, from a module in a
cycle of clauses.  So those that are reported are those in a cycle, exactly as far as no module leads
into a cycle that it is not part of. -/
theorem reportsCycle_iff (hW : W.IsPlain) (ht : W.tree? t.id = some t)
    (hoptions : options.circularInheritance = true) :
    (ReportsCycle t options (new W) ↔ ∃ id, ReflTransGen W.Inherits t.id id ∧ W.IsOnCycle id) ∧
    ((ReportsCycle t options (new W) ↔ W.IsOnCycle t.id) ↔
      ∀ id, ReflTransGen W.Inherits t.id id → W.IsOnCycle id → W.IsOnCycle t.id) := by
  have hreports : ReportsCycle t options (new W) ↔
      ∃ id, ReflTransGen W.Inherits t.id id ∧ W.IsOnCycle id := by
    rw [reportsCycle_iff_leadsIntoCycle hW ht hoptions]
    exact exists_congr fun id => and_congr_right fun _ => (Store.isOnCycle_iff hW).symm
  refine ⟨hreports, ?_⟩
  rw [hreports]
  constructor
  · intro hsame id hid hcycle
    exact hsame.mp ⟨id, hid, hcycle⟩
  · intro hown
    exact ⟨fun ⟨id, hid, hcycle⟩ => hown id hid hcycle, fun hcycle => ⟨t.id, .refl, hcycle⟩⟩

/-! ## A module that amends itself -/

/-- A store with a module that amends itself and another one that amends it. -/
def loopStore : Store :=
  Store.ofSources default .none [
    { bareModule "file:///w/loop.pkl" with amends := some "loop.pkl" },
    { bareModule "file:///w/tail.pkl" with amends := some "loop.pkl" }]

def loopId : ModuleId := ⟨"file:///w/loop.pkl"⟩

def tailId : ModuleId := ⟨"file:///w/tail.pkl"⟩

theorem isPlain_loopStore : loopStore.IsPlain :=
  Store.isPlain_ofSources ProjectIndex.manifestIn?_none (by decide)

theorem inherits_loopStore : loopStore.Inherits loopId loopId ∧ loopStore.Inherits tailId loopId :=
  ⟨⟨.amends, by decide⟩, ⟨.amends, by decide⟩⟩

/-- The module that amends itself is reported. -/
theorem reportsCycle_loop : ∃ t, loopStore.tree? loopId = some t ∧ loopStore.IsOnCycle loopId ∧
    ReportsCycle t .all (new loopStore) := by
  obtain ⟨t, ht⟩ := Option.isSome_iff_exists.mp
    (by decide : (loopStore.tree? loopId).isSome = true)
  have hid := isPlain_loopStore.keyed ht
  have hcycle : loopStore.IsOnCycle loopId :=
    (Store.isOnCycle_iff isPlain_loopStore).mpr (.single inherits_loopStore.1)
  have hstored : loopStore.tree? t.id = some t := hid ▸ ht
  exact ⟨t, ht, hcycle, (reportsCycle_iff isPlain_loopStore hstored rfl).1.mpr
    ⟨loopId, hid ▸ .refl, hcycle⟩⟩

/-- The module that amends it is reported as well, though it is on no cycle. -/
theorem reportsCycle_tail : ∃ t, loopStore.tree? tailId = some t ∧ ¬loopStore.IsOnCycle tailId ∧
    ReportsCycle t .all (new loopStore) := by
  obtain ⟨t, ht⟩ := Option.isSome_iff_exists.mp
    (by decide : (loopStore.tree? tailId).isSome = true)
  have hid := isPlain_loopStore.keyed ht
  refine ⟨t, ht, ?_, ?_⟩
  · -- from both modules clauses lead to the loop only
    have hparents : ∀ id ∈ [loopId, tailId], loopStore.parent? id = some (loopId, .amends) := by
      decide
    have honly {id id' : ModuleId} (hmem : id ∈ [loopId, tailId]) (h : loopStore.Inherits id id') :
        id' = loopId := by
      obtain ⟨kind, hkind⟩ := h
      rw [hparents id hmem] at hkind
      exact (Prod.mk.inj (Option.some.inj hkind)).1.symm
    rw [Store.isOnCycle_iff isPlain_loopStore]
    intro hcycle
    have hends : ∀ id, TransGen loopStore.Inherits tailId id → id = loopId := by
      intro id hpath
      induction hpath with
      | single h => exact honly (by simp) h
      | tail _ h ih => exact honly (by simp [ih]) h
    exact absurd (hends tailId hcycle) (by decide)
  · rw [reportsCycle_iff_leadsIntoCycle isPlain_loopStore (hid ▸ ht) rfl, hid]
    exact ⟨loopId, .single inherits_loopStore.2, .single inherits_loopStore.1⟩

end Session

end PklAnalysis
