import PklAnalysis.Proofs.Resolution.InheritanceCycles
import PklAnalysis.Proofs.Resolution.OverriddenMembers
import PklAnalysis.Proofs.Source.PreOrder

/-!
# Inherited annotations

A property without annotation takes the one that is nearest among the ancestors of its class.  The
walk for it goes by the first property of the name in each class, whereas what a member overrides is
never local.
-/

namespace PklAnalysis

open Relation

/-- The trees of a store that is filled with sources are in preorder. -/
theorem Store.isPreOrder_ofSources {config : GraphConfig} {files : Files}
    {sources : List Source.Module} : ∀ id t, (ofSources config files sources).tree? id = some t →
      t.IsPreOrder := by
  refine ofSources_induction (P := fun W => ∀ id t, W.tree? id = some t → t.IsPreOrder)
    (fun id t h => nomatch h) fun m _ W hW id t ht => ?_
  rw [tree?_insertSource] at ht
  split at ht
  · exact Option.some.inj ht ▸ Source.Module.isPreOrder_treeAs _ _ _
  · exact hW id t ht

namespace Session

variable {W : Store}

/-! ## Chains unrolled -/

/-- The classes of a chain from a definition on, up to one that has been met. -/
inductive Unrolls (W : Store) : List Site → Option ClassDef → List ClassDef → Prop
  | last (seen : List Site) : Unrolls W seen none []
  | met {seen : List Site} {c : ClassDef} (hmet : c.decl.site ∈ seen) : Unrolls W seen (some c) []
  | step {seen : List Site} {c : ClassDef} {next : Option ClassDef} {rest : List ClassDef}
      (hnew : c.decl.site ∉ seen) (hnext : Answers W (superclassDef c.superclass) next)
      (hrest : Unrolls W (c.decl.site :: seen) next rest) : Unrolls W seen (some c) (c :: rest)

/-- A chain that takes enough steps is unrolled. -/
theorem unrolls_chainFrom (hW : W.IsPlain) {n : Nat} {seen : List Site} {next : Option ClassDef}
    (hnext : ∀ c ∈ next, IsDefined W c) (hnodup : seen.Nodup) (hsites : seen ⊆ W.sites)
    (hn : W.sites.length < n + seen.length) {chain : AncestorChain}
    (h : Answers W (env.chainFrom n seen next) chain) : Unrolls W seen next chain.classes := by
  induction n generalizing seen next chain with
  | zero =>
    have hlength := (hnodup.subperm hsites).length_le
    omega
  | succ n ih =>
    cases next with
    | none =>
      obtain rfl := h.unique hW (.pure _)
      exact .last seen
    | some c =>
      have hc := hnext c rfl
      rw [chainFrom_succ] at h
      split at h
      · next hmet =>
        obtain rfl := h.unique hW (.pure _)
        exact .met (by simpa using hmet)
      · next hnew =>
        have hsuper := Answers.of_steady hW (steady_superclassDef hc.grounded.2.1)
        generalize (superclassDef c.superclass (new W)).1 = next at hsuper
        have hground := hsuper.grounded hW (steady_superclassDef hc.grounded.2.1)
        have hrest := Answers.of_steady hW (steady_chainFrom n (c.decl.site :: seen) hground)
        generalize (env.chainFrom n (c.decl.site :: seen) next (new W)).1 = rest at hrest
        obtain rfl := h.unique hW (hsuper.bind (hrest.bind (.pure _)))
        have hnew : c.decl.site ∉ seen := by simpa using hnew
        refine .step hnew hsuper (ih ?_ (List.nodup_cons.mpr ⟨hnew, hnodup⟩)
          (List.cons_subset.mpr ⟨Store.IsPlain.site_mem hc.grounded.1, hsites⟩)
          (by rw [List.length_cons]; omega) hrest)
        rintro super rfl
        exact IsExtendedBy.isDefined hW hc hsuper

/-- The ancestors of a class are its chain unrolled. -/
theorem unrolls_ancestors (hW : W.IsPlain) {c : ClassDef} (hc : IsDefined W c)
    {chain : AncestorChain} (h : Answers W (ancestors c.decl) chain) :
    Unrolls W [] (some c) chain.classes := by
  have hchain := Answers.of_steady hW (steady_chainFrom (W.sites.length + 1) [] hc.grounded.some)
  have hask : ∀ d, ancestors d = remembered d.site (·.chains) (fun s chains => { s with chains })
      (env.ancestors d) := fun _ => rfl
  have hancestors := Answers.remembered shelf_chains hask hW (steady_ancestors hc.grounded.1)
    (hc.answers.bind (Widening.answers_chain hW hc.grounded.some (by omega) hchain))
  obtain rfl := h.unique hW hancestors
  refine unrolls_chainFrom hW ?_ List.nodup_nil (List.nil_subset _)
    (by rw [List.length_nil]; omega) hchain
  rintro _ ⟨⟩
  exact hc

/-- All classes to which one that extends itself in turn leads, lead back to it. -/
theorem transGen_back (hW : W.IsPlain) {c e : ClassDef} (hback : TransGen (IsExtendedBy W) c c)
    (h : TransGen (IsExtendedBy W) c e) : TransGen (IsExtendedBy W) e c := by
  -- a step back can only begin with the step that leads on
  have hstep : ∀ {b e}, TransGen (IsExtendedBy W) b c → IsExtendedBy W b e →
      TransGen (IsExtendedBy W) e c := by
    intro b e hbc hbe
    obtain ⟨e', hbe', hrest⟩ := TransGen.head'_iff.mp hbc
    obtain rfl := Option.some.inj (hbe.unique hW hbe')
    exact .trans_right hrest hback
  induction h with
  | single hce => exact hstep hback hce
  | tail _ hbe ih => exact hstep ih hbe

namespace Unrolls

variable {seen seen' : List Site} {next : Option ClassDef} {c : ClassDef}
variable {classes classes' before after rest : List ClassDef}

/-- Where less has been met, a chain goes at least as far. -/
theorem isPrefix (hW : W.IsPlain) (h : Unrolls W seen next classes)
    (h' : Unrolls W seen' next classes') (hsub : seen' ⊆ seen) : classes <+: classes' := by
  induction h generalizing seen' classes' with
  | last => exact List.nil_prefix
  | met => exact List.nil_prefix
  | step hnew hnext _ ih =>
    cases h' with
    | met hmet => exact absurd (hsub hmet) hnew
    | step _ hnext' hrest' =>
      obtain rfl := hnext.unique hW hnext'
      exact List.cons_prefix_cons.mpr ⟨rfl, ih hrest' (List.cons_subset_cons _ hsub)⟩

theorem unique (hW : W.IsPlain) (h : Unrolls W seen next classes)
    (h' : Unrolls W seen next classes') : classes = classes' :=
  (h.isPrefix hW h' (List.Subset.refl _)).eq_of_length_le
    (h'.isPrefix hW h (List.Subset.refl _)).length_le

theorem isDefined (hW : W.IsPlain) (h : Unrolls W seen next classes)
    (hnext : ∀ c ∈ next, IsDefined W c) : ∀ c ∈ classes, IsDefined W c := by
  induction h with
  | last => exact List.forall_mem_nil _
  | met => exact List.forall_mem_nil _
  | step _ hsuper _ ih =>
    have hc := hnext _ rfl
    refine List.forall_mem_cons.mpr ⟨hc, ih ?_⟩
    rintro super rfl
    exact IsExtendedBy.isDefined hW hc hsuper

theorem isDefined_of_first (hW : W.IsPlain) (hc : IsDefined W c)
    (h : Unrolls W seen (some c) classes) : ∀ e ∈ classes, IsDefined W e := by
  refine h.isDefined hW ?_
  rintro _ ⟨⟩
  exact hc

/-- The rest of a chain is a chain from where it begins. -/
theorem split (h : Unrolls W seen next (before ++ c :: after)) :
    ∃ seen', Unrolls W seen' (some c) (c :: after) := by
  induction before generalizing seen next with
  | nil =>
    cases h with
    | step hnew hnext hrest => exact ⟨seen, .step hnew hnext hrest⟩
  | cons b before ih =>
    cases h with
    | step _ _ hrest => exact ih hrest

/-- All classes of a chain are reached from the definition with which it begins. -/
theorem reaches (h : Unrolls W seen next classes) :
    ∀ c ∈ next, ∀ e ∈ classes, ReflTransGen (IsExtendedBy W) c e := by
  induction h with
  | last => exact fun c hc => nomatch hc
  | met => exact fun _ _ => List.forall_mem_nil _
  | @step _ c next _ _ hnext hrest ih =>
    rintro _ ⟨⟩
    refine List.forall_mem_cons.mpr ⟨.refl, fun e he => ?_⟩
    cases next with
    | none =>
      cases hrest
      cases he
    | some super => exact (ih super rfl e he).head hnext

theorem reaches_rest (h : Unrolls W seen (some c) (c :: rest)) :
    ∀ e ∈ rest, TransGen (IsExtendedBy W) c e := by
  intro e he
  cases h with
  | @step _ _ next _ _ hnext hrest =>
    cases hrest with
    | last => cases he
    | met => cases he
    | @step _ super _ _ hnew hnext' hrest' =>
      exact TransGen.head' hnext ((Unrolls.step hnew hnext' hrest').reaches super rfl e he)

/-- A chain leads nowhere but to its classes and to those that have been met. -/
theorem closed (hW : W.IsPlain) (h : Unrolls W seen next classes)
    (hnext : ∀ c ∈ next, IsDefined W c) : ∀ e ∈ classes, ∀ super, IsExtendedBy W e super →
      super ∈ classes ∨ super.decl.site ∈ seen := by
  induction h with
  | last => exact List.forall_mem_nil _
  | met => exact List.forall_mem_nil _
  | @step seen c next rest hnew hsuper hrest ih =>
    have hc := hnext c rfl
    -- what has been met when the rest begins has been met before, or is the first class
    have hback : ∀ super, IsDefined W super → super ∈ rest ∨ super.decl.site ∈ c.decl.site :: seen →
        super ∈ c :: rest ∨ super.decl.site ∈ seen := by
      rintro super hdefined (hmem | hmem)
      · exact .inl (List.mem_cons_of_mem _ hmem)
      · rcases List.mem_cons.mp hmem with hsite | hmem
        · exact .inl (hdefined.eq hW hc hsite ▸ List.mem_cons_self)
        · exact .inr hmem
    have hdefined : ∀ super ∈ next, IsDefined W super := by
      rintro super rfl
      exact IsExtendedBy.isDefined hW hc hsuper
    refine List.forall_mem_cons.mpr ⟨fun super hextends => ?_, fun e he super hextends => ?_⟩
    · obtain rfl := hsuper.unique hW hextends
      refine hback super (hdefined super rfl) ?_
      cases hrest with
      | met hmet => exact .inr hmet
      | step => exact .inl List.mem_cons_self
    · exact hback super (hextends.isDefined hW (hrest.isDefined hW hdefined e he))
        (ih hdefined e he super hextends)

/-- A chain has all classes that its first one leads to. -/
theorem mem_of_transGen (hW : W.IsPlain) (hc : IsDefined W c)
    (h : Unrolls W [] (some c) (c :: rest)) {e : ClassDef} (he : TransGen (IsExtendedBy W) c e) :
    e ∈ c :: rest := by
  have hclosed := h.closed hW (by rintro _ ⟨⟩; exact hc)
  induction he with
  | single hce => exact (hclosed c List.mem_cons_self _ hce).resolve_right List.not_mem_nil
  | tail _ hstep ih => exact (hclosed _ ih _ hstep).resolve_right List.not_mem_nil

theorem nodup (h : Unrolls W seen next classes) :
    (∀ e ∈ classes, e.decl.site ∉ seen) ∧ classes.Nodup := by
  induction h with
  | last => exact ⟨List.forall_mem_nil _, List.nodup_nil⟩
  | met => exact ⟨List.forall_mem_nil _, List.nodup_nil⟩
  | step hnew _ _ ih =>
    refine ⟨List.forall_mem_cons.mpr ⟨hnew, fun e he hmem => ?_⟩, List.nodup_cons.mpr ⟨?_, ih.2⟩⟩
    · exact ih.1 e he (List.mem_cons_of_mem _ hmem)
    · exact fun hmem => ih.1 _ hmem List.mem_cons_self

end Unrolls

/-! ## Declarations of members -/

/-- Where a member is declared. -/
def placeOf? (W : Store) (m : MemberDef) : Option (Tree × Nat) :=
  (tree? m.site.module (new W)).1.map fun t => (t, m.site.node)

/-- The declaration that the one at a place overrides or implements. -/
def overridden? (W : Store) (p : Tree × Nat) : Option (Tree × Nat) :=
  (superMember? p.1 p.2 (new W)).1.bind fun found => placeOf? W found.member

/-- The declarations that the one at a place overrides, then the ones that these override, and so
on. -/
def overriddenAt? (W : Store) (p : Tree × Nat) : Nat → Option (Tree × Nat)
  | 0 => overridden? W p
  | k + 1 => (overriddenAt? W p k).bind (overridden? W)

/-- The annotation of the property at a place. -/
def annotation? (p : Tree × Nat) : Option TypeExpr :=
  match p.1.kind? p.2 with
  | some (.property h) => h.type
  | _ => none

/-- The type of the annotation of the property at a place. -/
def annotatedType? (W : Store) (p : Tree × Nat) : Option Ty :=
  (annotation? p).map fun a => (resolveType p.1 p.2 a (new W)).1

/-- Of the declarations that the one at a place overrides, one after the other, this is the first
one with an annotation, or there is none with an annotation. -/
def IsFirstAnnotated (W : Store) (p : Tree × Nat) : Option (Tree × Nat) → Prop
  | some q => ∃ k, overriddenAt? W p k = some q ∧ (annotation? q).isSome ∧
      ∀ j < k, ∀ r, overriddenAt? W p j = some r → annotation? r = none
  | none => ∀ k r, overriddenAt? W p k = some r → annotation? r = none

theorem IsFirstAnnotated.unique {p : Tree × Nat} {a b : Option (Tree × Nat)}
    (ha : IsFirstAnnotated W p a) (hb : IsFirstAnnotated W p b) : a = b := by
  -- no declaration with an annotation is overridden before the first one
  have hle {k k' : Nat} {q : Tree × Nat} (hk : overriddenAt? W p k = some q)
      (hq : (annotation? q).isSome)
      (hbefore : ∀ j < k', ∀ r, overriddenAt? W p j = some r → annotation? r = none) :
      k' ≤ k := by
    by_contra hlt
    rw [hbefore k (Nat.lt_of_not_le hlt) q hk] at hq
    cases hq
  cases a with
  | none =>
    cases b with
    | none => rfl
    | some q =>
      obtain ⟨k, hk, hq, -⟩ := hb
      rw [ha k q hk] at hq
      cases hq
  | some q =>
    obtain ⟨k, hk, hq, hbefore⟩ := ha
    cases b with
    | none =>
      rw [hb k q hk] at hq
      cases hq
    | some q' =>
      obtain ⟨k', hk', hq', hbefore'⟩ := hb
      obtain rfl := Nat.le_antisymm (hle hk' hq' hbefore) (hle hk hq hbefore')
      exact hk.symm.trans hk'

/-! ## Classes and the trees that declare them -/

/-- The node of a class or a module. -/
def IsClassNode (t : Tree) (n : Nat) : Prop :=
  (∃ h, t.kind? n = some (.class h)) ∨ ∃ name isOpen, t.kind? n = some (.module name isOpen)

theorem isSome_classAt?_iff {t : Tree} {d : DeclRef} {s : Session} :
    (classAt? t d s).1.isSome ↔ IsClassNode t d.site.node := by
  generalize hq : classAt? t d = q
  unfold classAt? at hq
  split at hq
  · next h hkind =>
    subst hq
    exact iff_of_true rfl (.inl ⟨h, hkind⟩)
  · next name isOpen hkind =>
    subst hq
    exact iff_of_true rfl (.inr ⟨name, isOpen, hkind⟩)
  · next hclass hmodule =>
    subst hq
    refine iff_of_false Bool.false_ne_true ?_
    rintro (⟨h, hkind⟩ | ⟨name, isOpen, hkind⟩)
    · exact hclass h hkind
    · exact hmodule name isOpen hkind

/-- A declaration in a held tree is looked up in this tree. -/
theorem exists_tree_of_grounded (hW : W.IsPlain) {d : DeclRef} (hd : Grounded W.held d) :
    ∃ t ∈ W.held, t.id = d.site.module ∧ declOf? t d.site.node = some d ∧
      ∃ s, (classDef d (new W)).1 = (classAt? t d s).1 := by
  obtain ⟨t, ht, hdecl⟩ := hd
  have hmem := Store.IsPlain.mem_held ht
  have hid := module_of_declOf? hdecl
  refine ⟨t, hmem, hid.symm, hdecl, (tree? t.id (new W)).2, ?_⟩
  rw [classDef_eq, remembered_apply, shelf_classes.empty]
  change (declaredClass? d (new W)).1 = _
  rw [declaredClass?, bind_apply, hid, (answers_tree?_of_mem hW hmem).eq_new hW]

/-- The class of a member is defined. -/
theorem exists_isDefined_of_ownerOf? (hW : W.IsPlain) {t : Tree} (ht : t ∈ W.held) {n : Nat}
    {owner : DeclRef} (howner : ownerOf? t n = some owner) :
    ∃ c, IsDefined W c ∧ c.decl = owner := by
  have hground : Grounded W.held owner :=
    (hW.grounded_of_mem ht).ownerOf? n owner howner
  have hnode : IsClassNode t owner.site.node := by
    obtain ⟨p, -, howner⟩ := Option.bind_eq_some_iff.mp howner
    split at howner
    · next h hkind =>
      rw [declOf?, hkind] at howner
      exact Option.some.inj howner ▸ .inl ⟨h, hkind⟩
    · next hkind =>
      rw [declOf?, hkind] at howner
      exact Option.some.inj howner ▸ .inr (hW.rooted_of_mem ht)
    · cases howner
  obtain ⟨u, hu, hid, -, s, hclass⟩ := exists_tree_of_grounded hW hground
  obtain rfl := hW.eq_of_mem hu ht (hid.trans (module_of_ownerOf? howner))
  obtain ⟨c, hc⟩ := Option.isSome_iff_exists.mp (isSome_classAt?_iff (s := s).mpr hnode)
  have hanswers := Answers.of_steady hW (steady_classDef hground)
  rw [hclass, hc] at hanswers
  exact ⟨c, .of_answers hW hground hanswers, decl_of_answers_classDef hW hanswers⟩

/-- The members of a class are those that its tree declares, and it is the class of these. -/
theorem IsDefined.exists_tree (hW : W.IsPlain) {c : ClassDef} (hc : IsDefined W c) :
    ∃ t ∈ W.held, t.id = c.decl.site.module ∧
      c.members = membersOf t c.decl.site.node c.decl ∧
      (t.IsPreOrder → ∀ m ∈ c.members, ownerOf? t m.site.node = some c.decl) := by
  obtain ⟨t, ht, hid, hdecl, s, hclass⟩ := exists_tree_of_grounded hW hc.grounded.1
  rw [hc.answers.eq_new hW] at hclass
  have hmembers := members_of_classAt? hclass.symm
  refine ⟨t, ht, hid, hmembers, fun hpre m hm => ?_⟩
  rw [hmembers] at hm
  obtain ⟨hlt, hparent⟩ := hpre.parent?_of_mem_children (child_of_mem_membersOf hm).2.1
  have hsome : (classAt? t c.decl s).1.isSome := Option.isSome_of_mem hclass.symm
  rw [ownerOf?, hparent, Option.bind_eq_bind, Option.bind_some]
  rcases isSome_classAt?_iff.mp hsome with ⟨h, hkind⟩ | ⟨name, isOpen, hkind⟩
  · simp only [hkind]
    exact hdecl
  · simp only [hkind]
    exact hdecl

/-- A member is declared at its node of the held tree of its module. -/
theorem placeOf?_of_mem_held (hW : W.IsPlain) {t : Tree} (ht : t ∈ W.held) {m : MemberDef}
    (hm : m.site.module = t.id) : placeOf? W m = some (t, m.site.node) := by
  rw [placeOf?, hm, (answers_tree?_of_mem hW ht).eq_new hW]
  rfl

theorem exists_property_of_declares {t : Tree} {n : Nat} {name : String}
    (h : (t.kind? n).bind memberName? = some (name, .property)) :
    ∃ header, t.kind? n = some (.property header) := by
  obtain ⟨kind, hkind, hdeclares⟩ := Option.bind_eq_some_iff.mp h
  unfold memberName? at hdeclares
  split at hdeclares
  · next header => exact ⟨header, hkind⟩
  · cases (Prod.mk.inj (Option.some.inj hdeclares)).2
  · cases hdeclares

/-! ## One declaration after the other -/

/-- A place is that of a property of a class. -/
structure StandsIn (W : Store) (name : String) (p : Tree × Nat) (c : ClassDef) : Prop where
  defined : IsDefined W c
  held : p.1 ∈ W.held
  owner : ownerOf? p.1 p.2 = some c.decl
  declares : (p.1.kind? p.2).bind memberName? = some (name, .property)

section Sequence

variable {name : String} {p : Tree × Nat} {c : ClassDef} {rest : List ClassDef}

/-- The properties of a class stand in it. -/
theorem exists_standsIn (hW : W.IsPlain) (hpre : ∀ t ∈ W.held, t.IsPreOrder) (hc : IsDefined W c)
    {m : MemberDef} (hm : m ∈ c.members) (hname : m.name = name) (hkind : m.kind = .property) :
    ∃ t, placeOf? W m = some (t, m.site.node) ∧ StandsIn W name (t, m.site.node) c := by
  obtain ⟨t, ht, hid, hmembers, howner⟩ := hc.exists_tree hW
  obtain ⟨hmodule, -, hdeclares⟩ := child_of_mem_membersOf (hmembers ▸ hm)
  exact ⟨t, placeOf?_of_mem_held hW ht hmodule, hc, ht, howner (hpre t ht) m hm,
    by rw [hdeclares, hname, hkind]⟩

/-- Where the first visible properties of a name in some classes are declared. -/
def visiblePlaces (W : Store) (name : String) (cs : List ClassDef) : List (Tree × Nat) :=
  cs.filterMap fun c => (visibleMember? name .property c).bind (placeOf? W)

theorem visibleMember?_spec {m : MemberDef} (h : visibleMember? name .property c = some m) :
    m ∈ c.members ∧ m.name = name ∧ m.kind = .property ∧ m.isLocal = false := by
  have hfound := List.find?_some h
  simp only [Bool.and_eq_true, decide_eq_true_eq, Bool.not_eq_true'] at hfound
  exact ⟨List.mem_of_find?_eq_some h, hfound.2, hfound.1.1, hfound.1.2⟩

theorem standsIn_of_visible (hW : W.IsPlain) (hpre : ∀ t ∈ W.held, t.IsPreOrder)
    (hc : IsDefined W c) {q : Tree × Nat}
    (hq : (visibleMember? name .property c).bind (placeOf? W) = some q) : StandsIn W name q c := by
  obtain ⟨m, hm, hplace⟩ := Option.bind_eq_some_iff.mp hq
  obtain ⟨hmem, hname, hkind, -⟩ := visibleMember?_spec hm
  obtain ⟨t, hplace', hstands⟩ := exists_standsIn hW hpre hc hmem hname hkind
  exact Option.some.inj (hplace.symm.trans hplace') ▸ hstands

/-- The search for an overridden property ends at the first visible place. -/
theorem bind_findSome?_visibleMember? (hW : W.IsPlain) (hpre : ∀ t ∈ W.held, t.IsPreOrder)
    {cs : List ClassDef} (hcs : ∀ c ∈ cs, IsDefined W c) :
    (cs.findSome? (visibleMember? name .property)).bind (placeOf? W) =
      (visiblePlaces W name cs).head? := by
  rw [visiblePlaces, List.head?_filterMap]
  induction cs with
  | nil => rfl
  | cons c cs ih =>
    obtain ⟨hc, hcs⟩ := List.forall_mem_cons.mp hcs
    rw [List.findSome?_cons, List.findSome?_cons]
    cases hm : visibleMember? name .property c with
    | none => exact ih hcs
    | some m =>
      obtain ⟨hmem, hname, hkind, -⟩ := visibleMember?_spec hm
      obtain ⟨t, hplace, -⟩ := exists_standsIn hW hpre hc hmem hname hkind
      simp only [Option.bind_some, hplace]

/-- Every class has a chain. -/
theorem IsDefined.exists_unrolls (hW : W.IsPlain) (hc : IsDefined W c) :
    ∃ rest, Unrolls W [] (some c) (c :: rest) := by
  have hchain := unrolls_ancestors hW hc (Answers.of_steady hW (steady_ancestors hc.grounded.1))
  generalize (ancestors c.decl (new W)).1.classes = classes at hchain
  cases hchain with
  | met hmet => cases hmet
  | @step _ _ next rest hnew hnext hrest => exact ⟨rest, .step hnew hnext hrest⟩

/-- What a property overrides is the first visible one among the ancestors of its class. -/
theorem StandsIn.overridden?_eq (hW : W.IsPlain) (hpre : ∀ t ∈ W.held, t.IsPreOrder)
    (hp : StandsIn W name p c) (hchain : Unrolls W [] (some c) (c :: rest)) :
    overridden? W p = (visiblePlaces W name rest).head? := by
  have hdefined := hchain.isDefined_of_first hW hp.defined
  have hadopted := (Answers.of_steady hW (steady_adopt (hW.grounded_of_mem hp.held)) _
    (isFaithful_new hW)).2
  have hasked := Answers.of_steady hW (steady_ancestors hp.defined.grounded.1)
  obtain ⟨hanswer, -⟩ := hasked _ hadopted
  have hclasses : (ancestors c.decl (new W)).1.classes = c :: rest :=
    (unrolls_ancestors hW hp.defined hasked).unique hW hchain
  rw [overridden?, superMember?_apply hp.declares hp.owner, hanswer, hclasses,
    List.drop_succ_cons, List.drop_zero,
    ← bind_findSome?_visibleMember? hW hpre (List.forall_mem_cons.mp hdefined).2, Option.bind_map]
  rfl

theorem overriddenAt?_succ (W : Store) (p : Tree × Nat) (k : Nat) :
    overriddenAt? W p (k + 1) = (overridden? W p).bind fun q => overriddenAt? W q k := by
  induction k with
  | zero => rfl
  | succ k ih => rw [overriddenAt?, ih, Option.bind_assoc]; rfl

theorem overriddenAt?_eq_none (h : overridden? W p = none) (k : Nat) :
    overriddenAt? W p k = none := by
  cases k with
  | zero => exact h
  | succ k => rw [overriddenAt?_succ, h, Option.bind_none]

/-- Along the chain of its class, a property overrides one visible property after the other. -/
theorem StandsIn.overriddenAt?_eq (hW : W.IsPlain) (hpre : ∀ t ∈ W.held, t.IsPreOrder)
    (hp : StandsIn W name p c) (hchain : Unrolls W [] (some c) (c :: rest)) {k : Nat}
    (hk : k < (visiblePlaces W name rest).length) :
    overriddenAt? W p k = (visiblePlaces W name rest)[k]? := by
  induction k generalizing p c rest with
  | zero => rw [overriddenAt?, hp.overridden?_eq hW hpre hchain, List.head?_eq_getElem?]
  | succ k ih =>
    rw [overriddenAt?_succ, hp.overridden?_eq hW hpre hchain]
    cases hplaces : visiblePlaces W name rest with
    | nil =>
      rw [hplaces] at hk
      cases hk
    | cons q places =>
      -- the chain of the class of the next property goes on like the one along which it was found
      obtain ⟨before, e, after, rfl, -, hq, hafter⟩ := List.filterMap_eq_cons_iff.mp hplaces
      have hdefined := hchain.isDefined_of_first hW hp.defined e (by simp)
      have hstands := standsIn_of_visible hW hpre hdefined hq
      rw [← List.cons_append] at hchain
      obtain ⟨seen, hsuffix⟩ := hchain.split
      obtain ⟨further, hfurther⟩ := hdefined.exists_unrolls hW
      obtain ⟨loop, hloop⟩ := List.cons_prefix_cons.mp
        (hsuffix.isPrefix hW hfurther (List.nil_subset _)) |>.2
      have hsplit : visiblePlaces W name further = places ++ visiblePlaces W name loop := by
        rw [← hloop, visiblePlaces, List.filterMap_append, hafter]
        rfl
      rw [hplaces, List.length_cons, Nat.add_lt_add_iff_right] at hk
      rw [List.head?_cons, Option.bind_some, List.getElem?_cons_succ,
        ih hstands hfurther (by rw [hsplit, List.length_append]; omega), hsplit,
        List.getElem?_append_left hk]

/-- All that a property comes to override, and what is overridden by that, are the first visible
properties of classes that its own class leads to. -/
theorem StandsIn.exists_of_overriddenAt? (hW : W.IsPlain) (hpre : ∀ t ∈ W.held, t.IsPreOrder)
    (hp : StandsIn W name p c) {k : Nat} {q : Tree × Nat} (hq : overriddenAt? W p k = some q) :
    ∃ e, TransGen (IsExtendedBy W) c e ∧ StandsIn W name q e ∧
      (visibleMember? name .property e).bind (placeOf? W) = some q := by
  have hstep : ∀ {p c q}, StandsIn W name p c → overridden? W p = some q →
      ∃ e, TransGen (IsExtendedBy W) c e ∧ StandsIn W name q e ∧
        (visibleMember? name .property e).bind (placeOf? W) = some q := by
    intro p c q hp hq
    obtain ⟨rest, hchain⟩ := hp.defined.exists_unrolls hW
    have hdefined := hchain.isDefined_of_first hW hp.defined
    rw [hp.overridden?_eq hW hpre hchain, visiblePlaces, List.head?_filterMap] at hq
    obtain ⟨e, he, hq⟩ := List.exists_of_findSome?_eq_some hq
    have hstands := standsIn_of_visible hW hpre (hdefined e (List.mem_cons_of_mem _ he)) hq
    exact ⟨e, hchain.reaches_rest e he, hstands, hq⟩
  induction k generalizing q with
  | zero => exact hstep hp hq
  | succ k ih =>
    obtain ⟨r, hr, hq⟩ := Option.bind_eq_some_iff.mp hq
    obtain ⟨e, hce, hstands, -⟩ := ih hr
    obtain ⟨e', hee', hrest⟩ := hstep hstands hq
    exact ⟨e', hce.trans hee', hrest⟩

/-! ## The nearest annotation -/

/-- The first property of a name in a class, which may be local. -/
def firstProperty? (name : String) (c : ClassDef) : Option MemberDef :=
  c.members.find? fun m => m.kind = .property && m.name = name

/-- Where a property with an annotation is declared. -/
def annotatedPlace? (W : Store) (m : MemberDef) : Option (Tree × Nat) :=
  (placeOf? W m).filter fun p => (annotation? p).isSome

/-- The first declaration with an annotation among the first properties of a name in some
classes. -/
def nearestAnnotated? (W : Store) (name : String) (cs : List ClassDef) : Option (Tree × Nat) :=
  cs.findSome? fun c => (firstProperty? name c).bind (annotatedPlace? W)

/-- Whether the first property of a name in a class, or the first one that is not local, has an
annotation. -/
def annotates (W : Store) (name : String) (c : ClassDef) : Bool :=
  ((firstProperty? name c).bind (annotatedPlace? W)).isSome ||
    ((visibleMember? name .property c).bind (annotatedPlace? W)).isSome

/-- In the nearest ancestor of a class that has an annotation, no local property comes first.  If no
ancestor has one, then neither has the visible property of the class itself, in case the class
extends itself in turn, so that its ancestors override this property. -/
def ShowsNearest (W : Store) (name : String) (c : ClassDef) (inherited : List ClassDef) : Prop :=
  match inherited.find? (annotates W name) with
  | some e => ∀ m ∈ firstProperty? name e, m.isLocal = false
  | none => TransGen (IsExtendedBy W) c c → visiblePlaces W name inherited ≠ [] →
      ∀ q ∈ (visibleMember? name .property c).bind (placeOf? W), annotation? q = none

theorem firstProperty?_spec {m : MemberDef} (h : firstProperty? name c = some m) :
    m ∈ c.members ∧ m.name = name ∧ m.kind = .property := by
  have hfound := List.find?_some h
  simp only [Bool.and_eq_true, decide_eq_true_eq] at hfound
  exact ⟨List.mem_of_find?_eq_some h, hfound.2, hfound.1⟩

/-- A first property that is not local is the first one that is not local. -/
theorem visibleMember?_of_firstProperty? {m : MemberDef} (h : firstProperty? name c = some m)
    (hvisible : m.isLocal = false) : visibleMember? name .property c = some m := by
  obtain ⟨hm, before, after, hsplit, hbefore⟩ := List.find?_eq_some_iff_append.mp h
  refine List.find?_eq_some_iff_append.mpr ⟨?_, before, after, hsplit, fun b hb => ?_⟩
  · rw [hvisible, Bool.not_false, Bool.and_true]
    exact hm
  · have hnot := hbefore b hb
    rw [Bool.and_right_comm, Bool.not_and, hnot, Bool.true_or]

theorem visibleMember?_of_firstProperty?_eq_none (h : firstProperty? name c = none) :
    visibleMember? name .property c = none := by
  refine List.find?_eq_none.mpr fun m hm hvisible => List.find?_eq_none.mp h m hm ?_
  rw [Bool.and_right_comm, Bool.and_eq_true] at hvisible
  exact hvisible.1

theorem annotatedPlace?_eq_some_iff {m : MemberDef} {q : Tree × Nat} :
    annotatedPlace? W m = some q ↔ placeOf? W m = some q ∧ (annotation? q).isSome :=
  Option.filter_eq_some_iff

/-- A visible property of a class without annotations has none. -/
theorem annotation?_eq_none_of_visible (hc : annotates W name c = false) {q : Tree × Nat}
    (hq : (visibleMember? name .property c).bind (placeOf? W) = some q) : annotation? q = none := by
  obtain ⟨m, hm, hplace⟩ := Option.bind_eq_some_iff.mp hq
  have hnone := (Bool.or_eq_false_iff.mp hc).2
  rw [hm, Option.bind_some, Option.isSome_eq_false_iff, Option.isNone_iff_eq_none] at hnone
  by_contra hannotation
  have hsome := annotatedPlace?_eq_some_iff.mpr ⟨hplace, Option.isSome_iff_ne_none.mpr hannotation⟩
  rw [hnone] at hsome
  cases hsome

/-- A node declares one member. -/
theorem eq_of_mem_membersOf {t : Tree} {n : Nat} {owner : DeclRef} {m m' : MemberDef}
    (hm : m ∈ membersOf t n owner) (hm' : m' ∈ membersOf t n owner)
    (h : m.site.node = m'.site.node) : m = m' := by
  have hnode : ∀ {k d}, Widening.memberAt? t owner k = some d → d.site.node = k := by
    intro k d hd
    unfold Widening.memberAt? at hd
    split at hd <;> cases hd <;> rfl
  rw [Widening.membersOf_eq] at hm hm'
  obtain ⟨k, -, hk⟩ := List.mem_filterMap.mp hm
  obtain ⟨k', -, hk'⟩ := List.mem_filterMap.mp hm'
  obtain rfl : k = k' := (hnode hk).symm.trans (h.trans (hnode hk'))
  exact Option.some.inj (hk.symm.trans hk')

/-- Members that are declared at one place are the same, and so are their classes. -/
theorem eq_of_placeOf? (hW : W.IsPlain) (hpre : ∀ t ∈ W.held, t.IsPreOrder) {c e : ClassDef}
    (hc : IsDefined W c) (he : IsDefined W e) {m m' : MemberDef} (hm : m ∈ c.members)
    (hm' : m' ∈ e.members) {q : Tree × Nat} (hq : placeOf? W m = some q)
    (hq' : placeOf? W m' = some q) : c = e ∧ m = m' := by
  obtain ⟨t, ht, hid, hmembers, howner⟩ := hc.exists_tree hW
  obtain ⟨u, hu, hid', hmembers', howner'⟩ := he.exists_tree hW
  obtain ⟨hmodule, -, -⟩ := child_of_mem_membersOf (hmembers ▸ hm)
  obtain ⟨hmodule', -, -⟩ := child_of_mem_membersOf (hmembers' ▸ hm')
  rw [placeOf?_of_mem_held hW ht hmodule] at hq
  rw [placeOf?_of_mem_held hW hu hmodule'] at hq'
  obtain ⟨rfl, hnode⟩ := Prod.mk.inj (Option.some.inj (hq.trans hq'.symm))
  have hdecl := howner (hpre t ht) m hm
  rw [hnode, howner' (hpre t ht) m' hm'] at hdecl
  obtain rfl := hc.eq hW he (congrArg DeclRef.site (Option.some.inj hdecl)).symm
  rw [hmembers] at hm hm'
  exact ⟨rfl, eq_of_mem_membersOf hm hm' hnode⟩

section Nearest

variable {e : ClassDef} {before after : List ClassDef}

/-- The visible property of the nearest class with an annotation, if it has one, is the first one
with an annotation that is overridden. -/
theorem StandsIn.isFirstAnnotated_visible (hW : W.IsPlain) (hpre : ∀ t ∈ W.held, t.IsPreOrder)
    (hp : StandsIn W name p c) (hchain : Unrolls W [] (some c) (c :: (before ++ e :: after)))
    (hbefore : ∀ b ∈ before, annotates W name b = false) {q : Tree × Nat}
    (hq : (visibleMember? name .property e).bind (annotatedPlace? W) = some q) :
    IsFirstAnnotated W p (some q) := by
  obtain ⟨m, hm, hq⟩ := Option.bind_eq_some_iff.mp hq
  obtain ⟨hplace, hannotation⟩ := annotatedPlace?_eq_some_iff.mp hq
  have hplaces : visiblePlaces W name (before ++ e :: after) =
      visiblePlaces W name before ++ q :: visiblePlaces W name after := by
    rw [visiblePlaces, List.filterMap_append, List.filterMap_cons, hm, Option.bind_some, hplace]
    rfl
  have hlength : (visiblePlaces W name before).length <
      (visiblePlaces W name (before ++ e :: after)).length := by
    rw [hplaces, List.length_append, List.length_cons]
    omega
  refine ⟨(visiblePlaces W name before).length, ?_, hannotation, fun j hj r hr => ?_⟩
  · rw [hp.overriddenAt?_eq hW hpre hchain hlength, hplaces,
      List.getElem?_append_right (Nat.le_refl _), Nat.sub_self, List.getElem?_cons_zero]
  · rw [hp.overriddenAt?_eq hW hpre hchain (hj.trans hlength), hplaces,
      List.getElem?_append_left hj] at hr
    obtain ⟨b, hb, hvisible⟩ := List.mem_filterMap.mp (List.mem_of_getElem? hr)
    exact annotation?_eq_none_of_visible (hbefore b hb) hvisible

/-- Of some classes without annotations nothing is taken. -/
theorem nearestAnnotated?_of_not_annotates {cs : List ClassDef}
    (hcs : ∀ c ∈ cs, annotates W name c = false) : nearestAnnotated? W name cs = none := by
  refine List.findSome?_eq_none_iff.mpr fun c hc => ?_
  simpa using (Bool.or_eq_false_iff.mp (hcs c hc)).1

theorem nearestAnnotated?_append (hbefore : ∀ b ∈ before, annotates W name b = false) :
    nearestAnnotated? W name (before ++ e :: after) =
      ((firstProperty? name e).bind (annotatedPlace? W)).or (nearestAnnotated? W name after) := by
  have hnone := nearestAnnotated?_of_not_annotates hbefore
  rw [nearestAnnotated?] at hnone
  rw [nearestAnnotated?, List.findSome?_append, hnone, Option.none_or, List.findSome?_cons]
  cases (firstProperty? name e).bind (annotatedPlace? W) <;> rfl

/-- If a local property comes first in the nearest class with an annotation, then another
declaration is overridden first. -/
theorem StandsIn.not_isFirstAnnotated (hW : W.IsPlain) (hpre : ∀ t ∈ W.held, t.IsPreOrder)
    (hp : StandsIn W name p c) (hchain : Unrolls W [] (some c) (c :: (before ++ e :: after)))
    (hbefore : ∀ b ∈ before, annotates W name b = false) (he : annotates W name e = true)
    {m : MemberDef} (hm : firstProperty? name e = some m) (hlocal : m.isLocal = true) :
    ¬IsFirstAnnotated W p (nearestAnnotated? W name (before ++ e :: after)) := by
  have hclasses := hchain.isDefined_of_first hW hp.defined
  have hmem := firstProperty?_spec hm
  have hedefined := hclasses e (by simp)
  rw [nearestAnnotated?_append hbefore, hm, Option.bind_some]
  cases htaken : annotatedPlace? W m with
  | some q =>
    -- what is taken is local, and so it is not overridden
    rw [Option.some_or]
    rintro ⟨k, hk, -⟩
    obtain ⟨e', -, hstands, hvisible⟩ := hp.exists_of_overriddenAt? hW hpre hk
    obtain ⟨m', hm', hplace'⟩ := Option.bind_eq_some_iff.mp hvisible
    obtain ⟨hmem', -, -, hshown⟩ := visibleMember?_spec hm'
    obtain ⟨-, rfl⟩ := eq_of_placeOf? hW hpre hedefined hstands.defined hmem.1 hmem'
      (annotatedPlace?_eq_some_iff.mp htaken).1 hplace'
    rw [hlocal] at hshown
    cases hshown
  | none =>
    -- the visible property of the class has an annotation, but that is not taken
    rw [annotates, hm, Option.bind_some, htaken, Option.isSome_none, Bool.false_or,
      Option.isSome_iff_exists] at he
    obtain ⟨q, hq⟩ := he
    rw [Option.none_or]
    intro hfirst
    have hafter := hfirst.unique (hp.isFirstAnnotated_visible hW hpre hchain hbefore hq)
    obtain ⟨e', he', hq'⟩ := List.exists_of_findSome?_eq_some hafter
    obtain ⟨m', hm', hq⟩ := Option.bind_eq_some_iff.mp hq
    obtain ⟨m'', hm'', hq'⟩ := Option.bind_eq_some_iff.mp hq'
    obtain ⟨rfl, -⟩ := eq_of_placeOf? hW hpre hedefined (hclasses e' (by simp [he']))
      (visibleMember?_spec hm').1 (firstProperty?_spec hm'').1
      (annotatedPlace?_eq_some_iff.mp hq).1 (annotatedPlace?_eq_some_iff.mp hq').1
    have hnodup := (List.nodup_cons.mp hchain.nodup.2).2
    exact (List.nodup_cons.mp (List.nodup_append.mp hnodup).2.1).1 he'

end Nearest

/-- A class that extends itself in turn is among the ancestors of its own ancestors, so its visible
property is overridden by theirs. -/
theorem StandsIn.exists_overriddenAt?_own (hW : W.IsPlain) (hpre : ∀ t ∈ W.held, t.IsPreOrder)
    (hp : StandsIn W name p c) (hchain : Unrolls W [] (some c) (c :: rest))
    (hback : TransGen (IsExtendedBy W) c c) (hplaces : visiblePlaces W name rest ≠ [])
    {q : Tree × Nat} (hq : (visibleMember? name .property c).bind (placeOf? W) = some q) :
    ∃ k, overriddenAt? W p k = some q := by
  have hdefined := hchain.isDefined_of_first hW hp.defined
  obtain ⟨first, places, hplaces⟩ := List.exists_cons_of_ne_nil hplaces
  obtain ⟨e, he, hfirst⟩ := List.mem_filterMap.mp (hplaces ▸ List.mem_cons_self)
  have hedefined := hdefined e (List.mem_cons_of_mem _ he)
  obtain ⟨further, hfurther⟩ := hedefined.exists_unrolls hW
  have hc : c ∈ further := by
    have hmem := hfurther.mem_of_transGen hW hedefined
      (transGen_back hW hback (hchain.reaches_rest e he))
    refine (List.mem_cons.mp hmem).resolve_left ?_
    rintro rfl
    exact (List.nodup_cons.mp hchain.nodup.2).1 he
  have hvisible : q ∈ visiblePlaces W name further := List.mem_filterMap.mpr ⟨c, hc, hq⟩
  obtain ⟨k, hk, hget⟩ := List.getElem_of_mem hvisible
  refine ⟨k + 1, ?_⟩
  rw [overriddenAt?_succ, hp.overridden?_eq hW hpre hchain, hplaces, List.head?_cons,
    Option.bind_some, (standsIn_of_visible hW hpre hedefined hfirst).overriddenAt?_eq hW hpre
      hfurther hk, List.getElem?_eq_getElem hk]
  exact congrArg some hget

/-- The nearest declaration with an annotation is the first one among those that are overridden
exactly if nothing local comes before it and no cycle leads to one in the class itself. -/
theorem StandsIn.isFirstAnnotated_iff (hW : W.IsPlain) (hpre : ∀ t ∈ W.held, t.IsPreOrder)
    (hp : StandsIn W name p c) (hchain : Unrolls W [] (some c) (c :: rest)) :
    IsFirstAnnotated W p (nearestAnnotated? W name rest) ↔ ShowsNearest W name c rest := by
  rw [ShowsNearest]
  cases hnearest : rest.find? (annotates W name) with
  | none =>
    have hnone : ∀ e ∈ rest, annotates W name e = false := fun e he =>
      Bool.eq_false_iff.mpr (List.find?_eq_none.mp hnearest e he)
    rw [nearestAnnotated?_of_not_annotates hnone]
    constructor
    · intro hfirst hback hplaces q hq
      obtain ⟨k, hk⟩ := hp.exists_overriddenAt?_own hW hpre hchain hback hplaces hq
      exact hfirst k q hk
    · intro hown k q hq
      obtain ⟨e, hce, -, hvisible⟩ := hp.exists_of_overriddenAt? hW hpre hq
      rcases List.mem_cons.mp (hchain.mem_of_transGen hW hp.defined hce) with rfl | he
      · refine hown hce (fun hplaces => ?_) q hvisible
        have hnothing : overridden? W p = none := by
          rw [hp.overridden?_eq hW hpre hchain, hplaces, List.head?_nil]
        rw [overriddenAt?_eq_none hnothing] at hq
        cases hq
      · exact annotation?_eq_none_of_visible (hnone e he) hvisible
  | some e =>
    obtain ⟨he, before, after, rfl, hbefore⟩ := List.find?_eq_some_iff_append.mp hnearest
    simp only [Bool.not_eq_true'] at hbefore
    cases hm : firstProperty? name e with
    | none =>
      rw [annotates, hm, visibleMember?_of_firstProperty?_eq_none hm] at he
      cases he
    | some m =>
      simp only [hm, Option.mem_some_iff, forall_eq']
      cases hlocal : m.isLocal with
      | true =>
        exact iff_of_false (hp.not_isFirstAnnotated hW hpre hchain hbefore he hm hlocal) (by simp)
      | false =>
        refine iff_of_true ?_ rfl
        have hvisible := visibleMember?_of_firstProperty? hm hlocal
        rw [annotates, hm, hvisible, Bool.or_self, Option.bind_some] at he
        obtain ⟨q, hq⟩ := Option.isSome_iff_exists.mp he
        rw [nearestAnnotated?_append hbefore, hm, Option.bind_some, hq, Option.some_or]
        exact hp.isFirstAnnotated_visible hW hpre hchain hbefore
          (by rw [hvisible, Option.bind_some, hq])

end Sequence

/-! ## The annotation that is taken -/

namespace Answers

theorem firstAnswer {α β : Type} {q : α → Query (Option β)} {g : α → Option β} {l : List α}
    (h : ∀ a ∈ l, Answers W (q a) (g a)) :
    Answers W (Session.firstAnswer q l) (l.findSome? g) := by
  induction l with
  | nil => exact .pure none
  | cons a l ih =>
    obtain ⟨ha, hl⟩ := List.forall_mem_cons.mp h
    refine ha.bind ?_
    rw [List.findSome?_cons]
    cases g a with
    | none => exact ih hl
    | some b => exact .pure (some b)

end Answers

/-- A class gives a property the annotation of its first one of the name. -/
theorem answers_inheritedType? (hW : W.IsPlain) {c : ClassDef} (hc : IsDefined W c)
    (name : String) : Answers W (inheritedType? name c)
      (((firstProperty? name c).bind (annotatedPlace? W)).bind (annotatedType? W)) := by
  have hfind : (c.members.find? fun m => m.kind = .property && m.name = name) =
      firstProperty? name c := rfl
  rw [inheritedType?, hfind]
  cases hfirst : firstProperty? name c with
  | none => exact .pure none
  | some m =>
    obtain ⟨hmem, -, hkind⟩ := firstProperty?_spec hfirst
    obtain ⟨t, ht, hid, hmembers, -⟩ := hc.exists_tree hW
    obtain ⟨hmodule, -, hdeclares⟩ := child_of_mem_membersOf (hmembers ▸ hmem)
    have hplace := placeOf?_of_mem_held hW ht hmodule
    obtain ⟨h, hproperty⟩ := exists_property_of_declares (hkind ▸ hdeclares)
    have htree := answers_tree?_of_mem hW ht
    rw [← hmodule] at htree
    refine htree.bind ?_
    have hannotation : annotation? (t, m.site.node) = h.type := by
      rw [annotation?, hproperty]
    simp only [hproperty]
    rw [Option.bind_some, annotatedPlace?, hplace, Option.filter_some, hannotation]
    cases htype : h.type with
    | none => exact .pure none
    | some a =>
      rw [Option.isSome_some, if_pos rfl, Option.bind_some, annotatedType?, hannotation, htype]
      have hresolve := Answers.of_steady hW
        (steady_resolveType (hW.grounded_of_mem ht) m.site.node a)
      rw [Option.mapM_some, map_eq_pure_bind]
      exact hresolve.bind (.pure _)

theorem isSome_annotatedType? {m : MemberDef} {q : Tree × Nat} (h : annotatedPlace? W m = some q) :
    (annotatedType? W q).isSome := by
  rw [annotatedType?, Option.isSome_map]
  exact (annotatedPlace?_eq_some_iff.mp h).2

/-- The first type that one of some classes gives is that of the nearest annotation. -/
theorem findSome?_annotatedType? (W : Store) (name : String) (cs : List ClassDef) :
    (cs.findSome? fun c =>
      ((firstProperty? name c).bind (annotatedPlace? W)).bind (annotatedType? W)) =
        (nearestAnnotated? W name cs).bind (annotatedType? W) := by
  induction cs with
  | nil => rfl
  | cons c cs ih =>
    rw [nearestAnnotated?, List.findSome?_cons, List.findSome?_cons]
    cases hq : (firstProperty? name c).bind (annotatedPlace? W) with
    | none => exact ih
    | some q =>
      obtain ⟨m, -, hq⟩ := Option.bind_eq_some_iff.mp hq
      obtain ⟨type, htype⟩ := Option.isSome_iff_exists.mp (isSome_annotatedType? hq)
      simp only [Option.bind_some, htype]

/-- The type that a property without annotation takes is that of the nearest annotation among the
first properties of its name in the ancestors of its class.  That is the first annotation among the
declarations that it overrides exactly if no local property comes first in the nearest class that
has one, and if none has one, no cycle leads to one in the class itself. -/
theorem declaredPropertyType?_of_unannotated (hW : W.IsPlain)
    (hpre : ∀ id t, W.tree? id = some t → t.IsPreOrder) {t : Tree} (ht : t ∈ W.held) {n : Nat}
    {h : PropertyHeader} (hproperty : t.kind? n = some (.property h)) (hunannotated : h.type = none)
    {owner : DeclRef} (howner : ownerOf? t n = some owner) :
    ∃ c inherited, c.decl = owner ∧ (ancestors owner (new W)).1.classes = c :: inherited ∧
      (declaredPropertyType? t n (new W)).1 =
        (nearestAnnotated? W h.name inherited).bind (annotatedType? W) ∧
      (IsFirstAnnotated W (t, n) (nearestAnnotated? W h.name inherited) ↔
        ShowsNearest W h.name c inherited) := by
  have hpreOrder : ∀ t ∈ W.held, t.IsPreOrder := by
    rintro t (rfl | ht)
    · exact Source.Module.isPreOrder_treeAs _ _ _
    · exact hpre t.id t ht
  obtain ⟨c, hc, rfl⟩ := exists_isDefined_of_ownerOf? hW ht howner
  have hstands : StandsIn W h.name (t, n) c :=
    ⟨hc, ht, howner, by rw [hproperty]; rfl⟩
  have hasked := Answers.of_steady hW (steady_ancestors hc.grounded.1)
  obtain ⟨rest, hchain⟩ := hc.exists_unrolls hW
  have hclasses := (unrolls_ancestors hW hc hasked).unique hW hchain
  refine ⟨c, rest, rfl, hclasses, ?_, hstands.isFirstAnnotated_iff hW hpreOrder hchain⟩
  generalize (ancestors c.decl (new W)).1 = chain at hasked hclasses
  have hdefined := hchain.isDefined_of_first hW hc
  have hfirst := Answers.firstAnswer fun e he =>
    answers_inheritedType? hW ((List.forall_mem_cons.mp hdefined).2 e he) h.name
  have hanswer : Answers W (declaredPropertyType? t n) (rest.findSome? fun e =>
      ((firstProperty? h.name e).bind (annotatedPlace? W)).bind (annotatedType? W)) := by
    rw [declaredPropertyType?, hproperty]
    simp only [hunannotated, howner]
    refine hasked.bind ?_
    rw [hclasses, List.drop_succ_cons, List.drop_zero]
    exact hfirst
  rw [hanswer.eq_new hW, findSome?_annotatedType?]

/-! ## A local property that comes first -/

/-- A class whose property `id` is local, and classes that inherit and redeclare its properties. -/
def shapes : Source.Module :=
  { bareModule "file:///w/m.pkl" with
    classes := [
      ⟨"Shape", [], none, [.open], [⟨"id", some (.simple "Int"), [.local], none, none, none⟩,
        ⟨"name", some (.simple "String"), [], none, none, none⟩], [], none⟩,
      ⟨"Square", [], some (.simple "Shape"), [.open], [⟨"id", none, [], none, none, none⟩,
        ⟨"name", none, [], none, none, none⟩], [], none⟩,
      ⟨"Tile", [], some (.simple "Square"), [], [⟨"name", none, [], none, none, none⟩], [],
        none⟩] }

def shapesTree : Tree := shapes.treeAs (Store.idOf shapes.uri) 1

def shapesStore : Store := Store.ofSources default .none [shapes]

theorem isPlain_shapesStore : shapesStore.IsPlain :=
  Store.isPlain_ofSources ProjectIndex.manifestIn?_none (by decide)

theorem shapesTree_mem_held : shapesTree ∈ shapesStore.held :=
  .inr (Store.tree?_ofSources_singleton shapes)

/-- The last class of the module. -/
def tile : DeclRef := ⟨⟨shapesTree.id, 7⟩, "Tile"⟩

/-- Its property takes the annotation of the first declaration of `name` through the second one. -/
theorem declaredPropertyType?_tile :
    (declaredPropertyType? shapesTree 8 (new shapesStore)).1 =
        annotatedType? shapesStore (shapesTree, 3) ∧
      (annotatedType? shapesStore (shapesTree, 3)).isSome ∧
      IsFirstAnnotated shapesStore (shapesTree, 8) (some (shapesTree, 3)) := by
  have hname : shapesTree.kind? 8 = some (.property ⟨"name", none, default⟩) := by decide
  have howner : ownerOf? shapesTree 8 = some tile := by decide
  obtain ⟨c, inherited, -, hclasses, htype, hfirst⟩ :=
    declaredPropertyType?_of_unannotated isPlain_shapesStore Store.isPreOrder_ofSources
      shapesTree_mem_held hname rfl howner
  have hinherited : inherited = (ancestors tile (new shapesStore)).1.classes.drop 1 := by
    rw [hclasses, List.drop_succ_cons, List.drop_zero]
  have hnearest : nearestAnnotated? shapesStore "name" inherited = some (shapesTree, 3) := by
    rw [hinherited]
    decide +kernel
  have hshows : ((inherited.find? (annotates shapesStore "name")).bind (firstProperty? "name")).map
      (·.isLocal) = some false := by
    rw [hinherited]
    decide +kernel
  rw [hnearest] at htype hfirst
  refine ⟨htype, by decide, hfirst.mpr ?_⟩
  obtain ⟨m, hm, hlocal⟩ := Option.map_eq_some_iff.mp hshows
  obtain ⟨e, he, hm⟩ := Option.bind_eq_some_iff.mp hm
  rw [ShowsNearest, he]
  simp [hm, hlocal]

/-- What a property without annotation takes need not be the first annotation among the
declarations that it overrides: the second declaration of `id` overrides nothing, and takes that of
the local one. -/
theorem not_forall_isFirstAnnotated :
    ¬∀ (W : Store) (t : Tree) (n : Nat) (h : PropertyHeader) (owner : DeclRef), W.IsPlain →
      (∀ id t, W.tree? id = some t → t.IsPreOrder) → t ∈ W.held →
      t.kind? n = some (.property h) → h.type = none → ownerOf? t n = some owner →
      ∃ q, IsFirstAnnotated W (t, n) q ∧
        (declaredPropertyType? t n (new W)).1 = q.bind (annotatedType? W) := by
  intro hall
  have hid : shapesTree.kind? 5 = some (.property ⟨"id", none, default⟩) := by decide
  have howner : ownerOf? shapesTree 5 = some ⟨⟨shapesTree.id, 4⟩, "Square"⟩ := by decide
  have htype : (declaredPropertyType? shapesTree 5 (new shapesStore)).1 =
      some (BaseTypes.plain BaseModule.types.int) := by decide +kernel
  have hoverrides : overridden? shapesStore (shapesTree, 5) = none := by decide +kernel
  obtain ⟨q, hfirst, htaken⟩ := hall shapesStore shapesTree 5 _ _ isPlain_shapesStore
    Store.isPreOrder_ofSources shapesTree_mem_held hid rfl howner
  rw [htype] at htaken
  cases q with
  | none => cases htaken
  | some q =>
    obtain ⟨k, hk, -⟩ := hfirst
    rw [overriddenAt?_eq_none hoverrides] at hk
    cases hk

end Session

end PklAnalysis
