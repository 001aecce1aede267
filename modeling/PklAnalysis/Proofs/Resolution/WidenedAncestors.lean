import PklAnalysis.Proofs.Lattice.MemberLookup
import PklAnalysis.Proofs.Resolution.WidenedTypes

/-!
# Ancestors and members over a widened store

A class has the same definition in a store and in a widening of it, but for hidden members, which
stand among the others in classes of the widened module only.

Aliases and superclasses are followed side by side.  A class therefore has the same ancestors, and
the same member of any name other than that of the hidden members; and since local members of
ancestors are not inherited, classes of other modules have the same members of that name as well.
-/

namespace PklAnalysis.Widening

open Session

variable {W V : Store} {name : String} (w : Widening W V name)

/-! ## Members -/

/-- Members are found again, and beside them hidden ones. -/
def MembersLike (ms ms' : List MemberDef) : Prop := ∃ before hidden after, ms = before ++ after ∧
  ms' = before.map w.member ++ hidden ++ after.map w.member ∧
  ∀ m ∈ hidden, m.isLocal = true ∧ m.name = name ∧ m.site.module = w.module

theorem membersLike_map (ms : List MemberDef) : w.MembersLike ms (ms.map w.member) :=
  ⟨ms, [], [], by simp, by simp, List.forall_mem_nil _⟩

/-- The member that a node declares in a class. -/
def memberAt? (t : Tree) (owner : DeclRef) (c : Nat) : Option MemberDef :=
  match t.kind? c with
  | some (.property h) =>
    some ⟨h.name, .property, siteOf t c, owner, h.modifiers.isAbstract, h.modifiers.isLocal⟩
  | some (.method h) =>
    some ⟨h.name, .method, siteOf t c, owner, h.modifiers.isAbstract, h.modifiers.isLocal⟩
  | _ => none

theorem membersOf_eq (t : Tree) (n : Nat) (owner : DeclRef) :
    membersOf t n owner = (t.children n).filterMap (memberAt? t owner) := rfl

theorem memberAt?_tree {t : Tree} (ht : t ∈ W.held) (owner : DeclRef) (c : Nat) :
    memberAt? (w.tree t) (w.decl owner) (w.index t c) = (memberAt? t owner c).map w.member := by
  rw [memberAt?, memberAt?, (w.embeds_tree ht).kind]
  split <;> simp [Relabelling.member]

theorem memberAt?_import {t : Tree} (owner : DeclRef) {c : Nat}
    (hc : (t.kind? c).any (·.isImport) = true) : memberAt? t owner c = none := by
  obtain ⟨i, hkind⟩ := Tree.import_cases hc
  rw [memberAt?, hkind]

theorem memberAt?_hidden {t : Tree} {owner : DeclRef} {c : Nat} {m : MemberDef}
    (hc : (t.kind? c).any (·.isHidden name) = true) (hm : memberAt? t owner c = some m) :
    m.isLocal = true ∧ m.name = name ∧ m.site.module = t.id := by
  obtain ⟨h, hkind, hlocal, hname⟩ | ⟨h, hkind, hlocal, hname⟩ := Tree.hidden_cases hc <;>
  · rw [memberAt?, hkind] at hm
    rw [← Option.some.inj hm]
    exact ⟨hlocal, hname, rfl⟩

/-- The members of a tree are declared in it. -/
theorem declares_of_membersOf {t : Tree} {n : Nat} {owner : DeclRef} {m : MemberDef}
    (hm : m ∈ membersOf t n owner) : t.Declares m.name := by
  obtain ⟨c, -, hm⟩ := List.mem_filterMap.mp hm
  split at hm
  · next hkind =>
    rw [← Option.some.inj hm]
    exact ⟨c, _, hkind, rfl⟩
  · next hkind =>
    rw [← Option.some.inj hm]
    exact ⟨c, _, hkind, rfl⟩
  · cases hm

/-- Modules other than the widened one have no hidden members. -/
theorem membersOf_of_ne {t : Tree} (ht : t ∈ W.held) (hid : t.id ≠ w.module) (n : Nat)
    (owner : DeclRef) : membersOf (w.tree t) (w.index t n) (w.decl owner) =
      (membersOf t n owner).map w.member := by
  have hmember (c : Nat) : memberAt? t (w.decl owner) c = (memberAt? t owner c).map w.member := by
    have htree := w.memberAt?_tree ht owner c
    rwa [w.tree_of_ne hid, w.index_of_ne hid] at htree
  rw [w.tree_of_ne hid, w.index_of_ne hid, membersOf_eq, membersOf_eq, List.map_filterMap]
  exact congrArg (fun g => (t.children n).filterMap g) (funext hmember)

theorem membersLike_membersOf {t : Tree} (ht : t ∈ W.held) (n : Nat) (owner : DeclRef) :
    w.MembersLike (membersOf t n owner) (membersOf (w.tree t) (w.index t n) (w.decl owner)) := by
  by_cases hid : t.id = w.module
  swap
  · rw [w.membersOf_of_ne ht hid]
    exact w.membersLike_map _
  obtain ⟨before, imports, passed, after, hold, hnew, -, himports, hpassed⟩ :=
    (w.embeds_tree ht).children n
  have hmap : ∀ l : List Nat, (l.map (w.index t)).filterMap (memberAt? (w.tree t) (w.decl owner)) =
      (l.filterMap (memberAt? t owner)).map w.member := by
    intro l
    rw [List.filterMap_map, List.map_filterMap]
    exact congrArg (fun g => l.filterMap g) (funext (w.memberAt?_tree ht owner))
  have hnone : imports.filterMap (memberAt? t owner) = [] :=
    List.filterMap_eq_nil_iff.mpr fun c hc => memberAt?_import owner (himports c hc)
  refine ⟨before.filterMap (memberAt? t owner),
    passed.filterMap (memberAt? (w.tree t) (w.decl owner)), after.filterMap (memberAt? t owner),
    ?_, ?_, fun m hm => ?_⟩
  · rw [membersOf_eq, hold, List.filterMap_append, List.filterMap_append, hnone, List.append_nil]
  · rw [membersOf_eq, hnew, List.filterMap_append, List.filterMap_append, hmap, hmap]
  · obtain ⟨c, hc, hm⟩ := List.mem_filterMap.mp hm
    rcases hpassed c hc with hc | hc
    · rw [memberAt?_import _ hc] at hm
      cases hm
    · rw [← hid, ← w.id_tree t]
      exact memberAt?_hidden hc hm

/-! ## Definitions -/

/-- A class is found again with the same members and hidden ones; classes of other modules have no
hidden ones. -/
structure ClassLike (c c' : ClassDef) : Prop where
  grounded : Grounded W.held c
  decl : c'.decl = w.decl c.decl
  typeParams : c'.typeParams = c.typeParams
  superclass : c'.superclass = c.superclass.map w.ty
  members : w.MembersLike c.members c'.members
  members_of_ne : c.decl.site.module ≠ w.module → c'.members = c.members.map w.member
  declares : ∀ m ∈ c.members, ∃ t ∈ W.held, t.Declares m.name

theorem parallel_superclassOf {t : Tree} (ht : Grounded W.held t) {n : Nat} {h : ClassHeader}
    (hkind : t.kind? n = some (.class h)) :
    Parallel W V (w.Carried (Option.map w.ty)) (superclassOf t n h)
      (superclassOf (w.tree t) (w.index t n) h) := by
  have hplain : ∀ {d : DeclRef}, d ∈ BaseModule.types.decls →
      w.Carried (Option.map w.ty) (some (BaseTypes.plain d)) (some (BaseTypes.plain d)) :=
    fun hd => ⟨.some (.plainBase hd), congrArg some (Relabelling.ty_plain w.base_decls hd).symm⟩
  rw [superclassOf, superclassOf, id_tree]
  cases hsuper : h.superclass with
  | some a =>
    refine (w.parallel_annotation ht hkind (by simp [annotationsAt, hsuper])).map ?_
    rintro type _ ⟨htype, rfl⟩
    exact ⟨htype.some, rfl⟩
  | none =>
    simp only
    split
    · split
      · exact .pure ⟨.none, rfl⟩
      · exact .pure (hplain (by simp))
    · exact .pure (hplain (by simp))

theorem parallel_moduleSuperclass {t : Tree} (ht : Grounded W.held t) :
    Parallel W V (w.Carried w.ty) (moduleSuperclass t) (moduleSuperclass (w.tree t)) := by
  rw [moduleSuperclass, moduleSuperclass, (w.embeds_tree (Store.IsPlain.mem_held ht)).clause?_eq]
  cases hclause : t.clause? with
  | none =>
    exact .pure ⟨.plainBase (by simp), (Relabelling.ty_plain w.base_decls (by simp)).symm⟩
  | some c =>
    have ⟨n, hn⟩ : ∃ n, uriAt? t n = some c.2.2 := exists_uriAt?_clause hclause
    refine (w.parallel_resolveModule? ht hn).bind ?_
    rintro parent _ ⟨hparent, rfl⟩
    cases parent with
    | none => exact .pure ⟨.unknown, rfl⟩
    | some parent =>
      have hmem := Store.IsPlain.mem_held hparent.of_some
      exact .pure ⟨hparent.of_some.moduleType, w.moduleType_tree hmem⟩

/-- The definition at a node of a tree is found again. -/
theorem parallel_classAt? {t : Tree} (ht : Grounded W.held t) {d : DeclRef}
    (hd : Grounded W.held d) (hmodule : t.id = d.site.module) :
    Parallel W V (fun o o' => Option.Rel w.ClassLike o o' ∧ ∀ c ∈ o, c.decl = d)
      (classAt? t d) (classAt? (w.tree t) (w.decl d)) := by
  have hmem := Store.IsPlain.mem_held ht
  have hmembers := w.membersLike_membersOf hmem d.site.node d
  have hmembersOf : Grounded W.held (membersOf t d.site.node d) := ht.membersOf _ _
  have hdeclares : ∀ m ∈ membersOf t d.site.node d, ∃ t ∈ W.held, t.Declares m.name :=
    fun m hm => ⟨t, hmem, declares_of_membersOf hm⟩
  rw [classAt?, classAt?, w.node_decl hmodule, (w.embeds_tree hmem).kind]
  cases hkind : t.kind? d.site.node with
  | none => exact .pure ⟨.none, by simp⟩
  | some kind =>
    cases kind with
    | «class» h =>
      refine (w.parallel_superclassOf ht hkind).bind ?_
      rintro superclass _ ⟨hsuper, rfl⟩
      refine .pure ⟨.some ⟨⟨hd, hsuper, hmembersOf⟩, rfl, rfl, rfl, hmembers, fun hne => ?_,
        hdeclares⟩, ?_⟩
      · exact w.membersOf_of_ne hmem (hmodule ▸ hne) _ _
      · rintro c ⟨⟩
        rfl
    | module x isOpen =>
      refine (w.parallel_moduleSuperclass ht).bind ?_
      rintro superclass _ ⟨hsuper, rfl⟩
      refine .pure ⟨.some ⟨⟨hd, hsuper.some, hmembersOf⟩, rfl, rfl, rfl, hmembers, fun hne => ?_,
        hdeclares⟩, ?_⟩
      · exact w.membersOf_of_ne hmem (hmodule ▸ hne) _ _
      · rintro c ⟨⟩
        rfl
    | _ => exact .pure ⟨.none, by simp⟩

/-- Answers that are remembered are compared by what they are found out to be. -/
theorem parallel_remembered {α : Type} [Grounding α] {table : Session → Dict Site α}
    {store : Session → Dict Site α → Session} {ask compute : DeclRef → Query α}
    (hshelf : Shelf table store ask)
    (hask : ∀ d, ask d = remembered d.site table store (compute d))
    (hsteady : ∀ T d, Grounded T d → Steady T (ask d)) {d : DeclRef} (hd : Grounded W.held d)
    {P : α → α → Prop} (h : Parallel W V P (compute d) (compute (w.decl d))) :
    Parallel W V P (ask d) (ask (w.decl d)) := by
  obtain ⟨a, b, ha, hb, hab⟩ := h
  exact ⟨a, b, .remembered hshelf hask w.plain (hsteady _ _ hd) ha,
    .remembered hshelf hask w.plain' (hsteady _ _ (w.grounded_decl hd)) hb, hab⟩

theorem parallel_classDef {d : DeclRef} (hd : Grounded W.held d) :
    Parallel W V (fun o o' => Option.Rel w.ClassLike o o' ∧ ∀ c ∈ o, c.decl = d)
      (classDef d) (classDef (w.decl d)) := by
  refine w.parallel_remembered shelf_classes (fun _ => rfl) (fun _ _ => steady_classDef) hd ?_
  have hmodule : (w.decl d).site.module = d.site.module := w.module_site d.site
  rw [hmodule]
  refine (w.parallel_tree? d.site.module).bind ?_
  rintro found _ ⟨⟨hfound, rfl⟩, hid⟩
  cases found with
  | none => exact .pure ⟨.none, by simp⟩
  | some t => exact w.parallel_classAt? hfound.of_some hd (hid t rfl)

/-- The counterpart of a type alias. -/
def aliasDef (a : AliasDef) : AliasDef :=
  { a with decl := w.decl a.decl, target := w.ty a.target }

theorem parallel_aliasAt? {t : Tree} (ht : Grounded W.held t) {d : DeclRef}
    (hd : Grounded W.held d) (hmodule : t.id = d.site.module) :
    Parallel W V (w.Carried (Option.map w.aliasDef)) (aliasAt? t d)
      (aliasAt? (w.tree t) (w.decl d)) := by
  rw [aliasAt?, aliasAt?, w.node_decl hmodule, (w.embeds_tree (Store.IsPlain.mem_held ht)).kind]
  cases hkind : t.kind? d.site.node with
  | none => exact .pure ⟨.none, rfl⟩
  | some kind =>
    cases kind with
    | typeAlias h =>
      refine (w.parallel_annotation ht hkind (List.mem_singleton_self h.target)).bind ?_
      rintro target _ ⟨htarget, rfl⟩
      exact .pure ⟨.some ⟨hd, htarget⟩, rfl⟩
    | _ => exact .pure ⟨.none, rfl⟩

theorem parallel_aliasDef {d : DeclRef} (hd : Grounded W.held d) :
    Parallel W V (w.Carried (Option.map w.aliasDef)) (Session.aliasDef d)
      (Session.aliasDef (w.decl d)) := by
  refine w.parallel_remembered shelf_aliases (fun _ => rfl) (fun _ _ => steady_aliasDef) hd ?_
  have hmodule : (w.decl d).site.module = d.site.module := w.module_site d.site
  rw [hmodule]
  refine (w.parallel_tree? d.site.module).bind ?_
  rintro found _ ⟨⟨hfound, rfl⟩, hid⟩
  cases found with
  | none => exact .pure ⟨.none, rfl⟩
  | some t => exact w.parallel_aliasAt? hfound.of_some hd (hid t rfl)

/-! ## Aliases -/

theorem ty_class (d : DeclRef) (args : List Ty) :
    w.ty (.class d args) = .class (w.decl d) (args.map w.ty) := by
  rw [Relabelling.ty, Relabelling.tys_eq_map]

theorem ty_typeAlias (d : DeclRef) (args : List Ty) :
    w.ty (.typeAlias d args) = .typeAlias (w.decl d) (args.map w.ty) := by
  rw [Relabelling.ty, Relabelling.tys_eq_map]

theorem parallel_expandFrom (n : Nat) (seen : List Site) {t : Ty} (ht : Grounded W.held t) :
    Parallel (n := Query) W V (w.Carried w.ty) (env.expandFrom n seen t)
      (env.expandFrom n (seen.map w.site) (w.ty t)) := by
  induction n generalizing seen t with
  | zero =>
    cases t with
    | typeAlias d args =>
      have hsite : (w.decl d).site = w.site d.site := rfl
      rw [ty_typeAlias, TypeEnv.expandFrom, TypeEnv.expandFrom, hsite, w.contains_map_site]
      split
      · exact .pure ⟨.unknown, rfl⟩
      · exact .pure ⟨.unknown, rfl⟩
    | _ => exact .pure ⟨ht, rfl⟩
  | succ n ih =>
    cases t with
    | typeAlias d args =>
      have hsite : (w.decl d).site = w.site d.site := rfl
      obtain ⟨hd, hargs⟩ := Grounded.typeAlias_iff.mp ht
      rw [ty_typeAlias, TypeEnv.expandFrom, TypeEnv.expandFrom, hsite, w.contains_map_site]
      split
      · exact .pure ⟨.unknown, rfl⟩
      · refine (w.parallel_aliasDef hd).bind ?_
        rintro found _ ⟨hfound, rfl⟩
        cases found with
        | none => exact .pure ⟨.unknown, rfl⟩
        | some a =>
          have hsubst := ih (d.site :: seen) (hfound.of_some.2.substitute a.decl.site hargs)
          rw [Relabelling.ty_substitute w.base_decls] at hsubst
          exact hsubst
    | _ => exact .pure ⟨ht, rfl⟩

theorem parallel_expand {t : Ty} (ht : Grounded W.held t) :
    Parallel (n := Query) W V (w.Carried w.ty) (env.expand t) (env.expand (w.ty t)) :=
  w.parallel_expandFrom _ [] ht

/-! ## Superclasses -/

theorem parallel_climb (target : Site) (n : Nat) (seen : List Site) {d : DeclRef} {args : List Ty}
    (hd : Grounded W.held d) (hargs : Grounded W.held args) :
    Parallel (n := Query) W V (w.Carried (Option.map (List.map w.ty)))
      (env.climb target n seen d args)
      (env.climb (w.site target) n (seen.map w.site) (w.decl d) (args.map w.ty)) := by
  have hsite : (w.decl d).site = w.site d.site := rfl
  induction n generalizing seen d args with
  | zero =>
    rw [TypeEnv.climb, TypeEnv.climb, hsite, w.contains_map_site]
    simp only [Relabelling.site_inj]
    split
    · exact .pure ⟨hargs.some, rfl⟩
    · split
      · exact .pure ⟨.none, rfl⟩
      · exact .pure ⟨.none, rfl⟩
  | succ n ih =>
    rw [TypeEnv.climb, TypeEnv.climb, hsite, w.contains_map_site]
    simp only [Relabelling.site_inj]
    split
    · exact .pure ⟨hargs.some, rfl⟩
    · split
      · exact .pure ⟨.none, rfl⟩
      · refine (w.parallel_classDef hd).bind ?_
        rintro found found' ⟨hfound, -⟩
        cases hfound with
        | none => exact .pure ⟨.none, rfl⟩
        | @some c c' hc =>
          simp only [hc.decl, hc.superclass]
          cases hsuper : c.superclass with
          | none => exact .pure ⟨.none, rfl⟩
          | some super =>
            have hground : Grounded W.held super := (hsuper ▸ hc.grounded.2.1).of_some
            have hexpand := w.parallel_expand (hground.substitute c.decl.site hargs)
            rw [Relabelling.ty_substitute w.base_decls] at hexpand
            refine Parallel.bind (n := Query) hexpand ?_
            rintro type _ ⟨htype, rfl⟩
            cases type with
            | «class» d' args' =>
              obtain ⟨hd', hargs'⟩ := Grounded.class_iff.mp htype
              rw [ty_class]
              exact ih (d.site :: seen) hd' hargs' rfl
            | _ => exact .pure ⟨.none, rfl⟩

/-- A climb takes as many steps as there are nodes; more steps do not matter. -/
theorem answers_climb (hW : W.IsPlain) (target : Site) {d : DeclRef} {args : List Ty}
    (hd : Grounded W.held d) (hargs : Grounded W.held args) {n : Nat} (hn : W.sites.length < n)
    {view : Option (List Ty)} (h : Answers W (env.climb target n [] d args) view) :
    Answers W (do env.climb target ((← env.classCount) + 1) [] d args : Query _) view := by
  refine h.congr fun s hs => ?_
  have hcapacity := hs.current.length_sites_le
  exact climb_congr hW hs.current target List.nodup_nil (List.nil_subset _) hd hargs
    (by rw [List.length_nil]; omega) (by rw [List.length_nil]; omega)

theorem parallel_asSupertype? {t : Ty} (ht : Grounded W.held t) (target : DeclRef) :
    Parallel (n := Query) W V (w.Carried (Option.map (List.map w.ty))) (env.asSupertype? t target)
      (env.asSupertype? (w.ty t) (w.decl target)) := by
  refine Parallel.bind (n := Query) (w.parallel_expand ht) ?_
  rintro type _ ⟨htype, rfl⟩
  cases type with
  | «class» d args =>
    obtain ⟨hd, hargs⟩ := Grounded.class_iff.mp htype
    rw [ty_class]
    -- both climbs take more steps than there are nodes in either store
    obtain ⟨view, view', hview, hview', hcarried⟩ :=
      w.parallel_climb target.site (W.sites.length + V.sites.length + 1) [] hd hargs
    exact ⟨view, view', answers_climb w.plain _ hd hargs (by omega) hview,
      answers_climb w.plain' _ (w.grounded_decl hd) (w.grounded_tys hargs) (by omega) hview',
      hcarried⟩
  | _ => exact .pure ⟨.none, rfl⟩

/-! ## Chains of ancestors -/

/-- Ancestors are found again one by one. -/
structure ChainLike (c c' : AncestorChain) : Prop where
  classes : List.Forall₂ w.ClassLike c.classes c'.classes
  isCyclic : c'.isCyclic = c.isCyclic

theorem parallel_superclassDef {super : Option Ty} (hsuper : Grounded W.held super) :
    Parallel W V (Option.Rel w.ClassLike) (superclassDef super)
      (superclassDef (super.map w.ty)) := by
  cases super with
  | none => exact .pure .none
  | some super =>
    refine Parallel.bind (n := Query) (w.parallel_expand hsuper.of_some) ?_
    rintro type _ ⟨htype, rfl⟩
    cases type with
    | «class» d args =>
      obtain ⟨a, b, ha, hb, hab, -⟩ := w.parallel_classDef (Grounded.class_iff.mp htype).1
      exact ⟨a, b, ha, hb, hab⟩
    | _ => exact .pure .none

theorem parallel_chainFrom (n : Nat) (seen : List Site) {next next' : Option ClassDef}
    (hnext : Option.Rel w.ClassLike next next') :
    Parallel (n := Query) W V
      (fun c c' => w.ChainLike c c' ∧ ∀ d ∈ c.classes.head?, d ∈ next)
      (env.chainFrom n seen next) (env.chainFrom n (seen.map w.site) next') := by
  induction n generalizing seen next next' with
  | zero =>
    cases hnext with
    | none => exact .pure ⟨⟨.nil, rfl⟩, by simp⟩
    | @some c c' hc =>
      have hsite : c'.decl.site = w.site c.decl.site := by rw [hc.decl, Relabelling.decl]
      rw [TypeEnv.chainFrom, TypeEnv.chainFrom, hsite, w.contains_map_site]
      split
      · exact .pure ⟨⟨.nil, rfl⟩, by simp⟩
      · exact .pure ⟨⟨.nil, rfl⟩, by simp⟩
  | succ n ih =>
    cases hnext with
    | none => exact .pure ⟨⟨.nil, rfl⟩, by simp⟩
    | @some c c' hc =>
      have hsite : c'.decl.site = w.site c.decl.site := by rw [hc.decl, Relabelling.decl]
      rw [chainFrom_succ, chainFrom_succ, hsite, w.contains_map_site, hc.superclass]
      split
      · exact .pure ⟨⟨.nil, rfl⟩, by simp⟩
      · refine (w.parallel_superclassDef hc.grounded.2.1).bind fun next next' hnext => ?_
        refine Parallel.bind (n := Query) (ih (c.decl.site :: seen) hnext) ?_
        rintro rest rest' ⟨hrest, -⟩
        exact .pure ⟨⟨.cons hc hrest.classes, hrest.isCyclic⟩, by simp⟩

/-- A chain takes as many steps as there are nodes; more steps do not matter. -/
theorem answers_chain (hW : W.IsPlain) {next : Option ClassDef} (hnext : Grounded W.held next)
    {n : Nat} (hn : W.sites.length < n) {chain : AncestorChain}
    (h : Answers W (env.chainFrom n [] next) chain) :
    Answers W (do env.chainFrom ((← env.classCount) + 1) [] next : Query _) chain := by
  refine h.congr fun s hs => ?_
  have hcapacity := hs.current.length_sites_le
  exact chainFrom_congr hW hs.current List.nodup_nil (List.nil_subset _) hnext
    (by rw [List.length_nil]; omega) (by rw [List.length_nil]; omega)

/-- A class has the same ancestors; the first of them is the class itself. -/
theorem parallel_ancestors {d : DeclRef} (hd : Grounded W.held d) :
    Parallel W V (fun c c' => w.ChainLike c c' ∧ ∀ e ∈ c.classes.head?, e.decl = d)
      (ancestors d) (ancestors (w.decl d)) := by
  refine w.parallel_remembered shelf_chains (fun _ => rfl) (fun _ _ => steady_ancestors) hd ?_
  obtain ⟨next, next', hnext, hnext', hlike, hdecl⟩ := w.parallel_classDef hd
  have hground := hnext.grounded w.plain (steady_classDef hd)
  have hground' := hnext'.grounded w.plain' (steady_classDef (w.grounded_decl hd))
  -- both chains are followed with more steps than there are nodes in either store
  obtain ⟨chain, chain', hchain, hchain', hcarried, hhead⟩ :=
    w.parallel_chainFrom (W.sites.length + V.sites.length + 1) [] hlike
  refine ⟨chain, chain', ?_, ?_, hcarried, fun e he => hdecl e (hhead e he)⟩
  · exact hnext.bind (answers_chain w.plain hground (by omega) hchain)
  · exact hnext'.bind (answers_chain w.plain' hground' (by omega) hchain')

/-! ## The first declaration of a name -/

open MemberCache

theorem first?_map (x : String) (kind : MemberKind) (ms : List MemberDef) :
    first? x kind (ms.map w.member) = (first? x kind ms).map w.member :=
  List.find?_map

theorem filter_map_member (ms : List MemberDef) :
    (ms.map w.member).filter (fun m => !m.isLocal) =
      (ms.filter fun m => !m.isLocal).map w.member :=
  List.filter_map

variable {w}

/-- Hidden members are not found under other names. -/
theorem MembersLike.first?_eq {ms ms' : List MemberDef} (h : w.MembersLike ms ms') {x : String}
    (hx : x ≠ name) (kind : MemberKind) : first? x kind ms' = (first? x kind ms).map w.member := by
  obtain ⟨before, hidden, after, rfl, rfl, hhidden⟩ := h
  have hnone : first? x kind hidden = none :=
    first?_eq_none (fun m hm => (hhidden m hm).2.1.trans_ne hx.symm) kind
  rw [first?_append, first?_append, first?_append, hnone, Option.or_none, first?_map, first?_map]
  cases first? x kind before <;> rfl

/-- Hidden members are not inherited. -/
theorem MembersLike.filter_eq {ms ms' : List MemberDef} (h : w.MembersLike ms ms') :
    ms'.filter (fun m => !m.isLocal) = (ms.filter fun m => !m.isLocal).map w.member := by
  obtain ⟨before, hidden, after, rfl, rfl, hhidden⟩ := h
  have hnone : hidden.filter (fun m => !m.isLocal) = [] := by
    refine List.filter_eq_nil_iff.mpr fun m hm => ?_
    rw [(hhidden m hm).1]
    exact Bool.false_ne_true
  rw [List.filter_append, List.filter_append, hnone, List.append_nil, filter_map_member,
    filter_map_member, List.filter_append, List.map_append]

/-- If nothing else has the name of the hidden members, one of them is found under it. -/
theorem MembersLike.first?_hidden {ms ms' : List MemberDef} (h : w.MembersLike ms ms')
    (hfresh : ∀ m ∈ ms, m.name ≠ name) (kind : MemberKind) :
    ∀ m ∈ first? name kind ms', m.isLocal = true ∧ m.site.module = w.module := by
  intro m hm
  have hname := name_of_first? hm
  obtain ⟨before, hidden, after, rfl, rfl, hhidden⟩ := h
  have hmem := List.mem_of_find?_eq_some hm
  rw [List.append_assoc, List.mem_append, List.mem_append] at hmem
  rcases hmem with hmem | hmem | hmem
  · obtain ⟨m', hmem', rfl⟩ := List.mem_map.mp hmem
    exact absurd hname (hfresh m' (List.mem_append_left _ hmem'))
  · exact ⟨(hhidden m hmem).1, (hhidden m hmem).2.2⟩
  · obtain ⟨m', hmem', rfl⟩ := List.mem_map.mp hmem
    exact absurd hname (hfresh m' (List.mem_append_right _ hmem'))

theorem inherited_eq {cs cs' : List ClassDef} (h : List.Forall₂ w.ClassLike cs cs') :
    cs'.flatMap (fun c => c.members.filter fun m => !m.isLocal) =
      (cs.flatMap fun c => c.members.filter fun m => !m.isLocal).map w.member := by
  induction h with
  | nil => rfl
  | cons hc _ ih => rw [List.flatMap_cons, List.flatMap_cons, hc.members.filter_eq, ih,
      List.map_append]

/-- The first visible declaration of a name in a chain of ancestors, unless the name is that of the
hidden members and the chain starts in the widened module. -/
theorem first?_visible {cs cs' : List ClassDef} (h : List.Forall₂ w.ClassLike cs cs') {x : String}
    (hx : x ≠ name ∨ ∀ c ∈ cs.head?, c.decl.site.module ≠ w.module) (kind : MemberKind) :
    first? x kind (visible cs') = (first? x kind (visible cs)).map w.member := by
  cases h with
  | nil => rfl
  | @cons c c' rest rest' hc hrest =>
    -- the class itself also shows its local members, so hidden ones have to be ruled out there
    have hown : first? x kind c'.members = (first? x kind c.members).map w.member := by
      rcases hx with hx | hx
      · exact hc.members.first?_eq hx kind
      · rw [hc.members_of_ne (hx c rfl), first?_map]
    rw [visible, visible, first?_append, first?_append, hown, inherited_eq hrest, first?_map]
    cases first? x kind c.members <;> rfl

/-- If no tree declares a member with the name of the hidden members, a chain of ancestors shows at
most one of them. -/
theorem first?_visible_hidden {cs cs' : List ClassDef} (h : List.Forall₂ w.ClassLike cs cs')
    (hfresh : ∀ t ∈ W.held, ¬ t.Declares name) (kind : MemberKind) :
    first? name kind (visible cs) = none ∧
      ∀ m ∈ first? name kind (visible cs'), m.isLocal = true ∧ m.site.module = w.module := by
  have hnames : ∀ c ∈ cs, ∀ m ∈ c.members, m.name ≠ name := by
    induction h with
    | nil => exact List.forall_mem_nil _
    | cons hc _ ih =>
      refine List.forall_mem_cons.mpr ⟨?_, ih⟩
      rintro m hm rfl
      obtain ⟨t, ht, hdeclares⟩ := hc.declares m hm
      exact hfresh t ht hdeclares
  cases h with
  | nil => exact ⟨rfl, by simp [visible, first?]⟩
  | @cons c c' rest rest' hc hrest =>
    obtain ⟨hown, hrests⟩ := List.forall_mem_cons.mp hnames
    have hinherited : ∀ m ∈ rest.flatMap fun a => a.members.filter fun m => !m.isLocal,
        m.name ≠ name := by
      intro m hm
      obtain ⟨a, ha, hm⟩ := List.mem_flatMap.mp hm
      exact hrests a ha m (List.mem_filter.mp hm).1
    rw [visible, visible, first?_append, first?_append, inherited_eq hrest, first?_map,
      first?_eq_none hown, first?_eq_none hinherited, Option.map_none, Option.or_none,
      Option.or_none]
    exact ⟨rfl, hc.members.first?_hidden hown kind⟩

/-! ## Members of classes -/

variable (w)

/-- The member of a class with a name, unless the name is that of the hidden members and the class
stands in the widened module. -/
theorem parallel_memberOfClass? {d : DeclRef} (hd : Grounded W.held d) {x : String}
    (hx : x ≠ name ∨ d.site.module ≠ w.module) (kind : MemberKind) :
    Parallel W V (w.Carried (Option.map w.member)) (memberOfClass? d x kind)
      (memberOfClass? (w.decl d) x kind) := by
  refine w.parallel_carried (steady_memberOfClass? hd x kind) ?_
  have hmembers : Parallel W V (fun cache cache' => (cache'.lookup x kind).map (·.member) =
      ((cache.lookup x kind).map (·.member)).map w.member)
      (membersOfClass d) (membersOfClass (w.decl d)) := by
    refine w.parallel_remembered shelf_members (fun _ => rfl) (fun _ _ => steady_membersOfClass)
      hd ?_
    refine (w.parallel_ancestors hd).bind ?_
    rintro chain chain' ⟨hchain, hhead⟩
    refine .pure ?_
    rw [lookup_build, lookup_build]
    refine first?_visible hchain.classes (hx.imp_right fun hne c hc => ?_) kind
    rw [hhead c hc]
    exact hne
  exact hmembers.bind fun cache cache' hcache => .pure hcache

/-- If no tree declares a member with the name of the hidden members, classes have none of the name
but them. -/
theorem parallel_hiddenMember? {d : DeclRef} (hd : Grounded W.held d)
    (hfresh : ∀ t ∈ W.held, ¬ t.Declares name) (kind : MemberKind) :
    Parallel W V (fun o o' => o = none ∧ ∀ m ∈ o', m.isLocal = true ∧ m.site.module = w.module)
      (memberOfClass? d name kind) (memberOfClass? (w.decl d) name kind) := by
  have hmembers : Parallel W V (fun cache cache' => (cache.lookup name kind).map (·.member) = none ∧
      ∀ m ∈ (cache'.lookup name kind).map (·.member), m.isLocal = true ∧ m.site.module = w.module)
      (membersOfClass d) (membersOfClass (w.decl d)) := by
    refine w.parallel_remembered shelf_members (fun _ => rfl) (fun _ _ => steady_membersOfClass)
      hd ?_
    refine (w.parallel_ancestors hd).bind ?_
    rintro chain chain' ⟨hchain, -⟩
    refine .pure ?_
    rw [lookup_build, lookup_build]
    exact first?_visible_hidden hchain.classes hfresh kind
  exact hmembers.bind fun cache cache' hcache => .pure hcache

end PklAnalysis.Widening
