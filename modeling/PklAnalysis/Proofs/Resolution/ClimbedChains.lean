import PklAnalysis.Proofs.Lattice.UnknownRoots
import PklAnalysis.Proofs.Resolution.InheritedAnnotations
import PklAnalysis.Proofs.Resolution.StoredRelations

/-!
# Classes seen as their ancestors

The members of a class come from the chain of its superclasses as they are written, while the
arguments that it gives to an ancestor come from climbing to it with its own arguments in the
superclasses.  Both meet the same classes as long as no superclass leads elsewhere with other
arguments (`Session.isSome_asSupertype?_iff`).
-/

namespace PklAnalysis.Session

variable {W : Store}

/-! ## The way up -/

/-- The class that a type is. -/
def class? : Ty → Option DeclRef
  | .class d _ => some d
  | _ => none

theorem eq_class_of_class? {type : Ty} {d : DeclRef} (h : class? type = some d) :
    ∃ args, type = .class d args := by
  cases type with
  | «class» e args => exact ⟨args, congrArg (Ty.class · args) (Option.some.inj h)⟩
  | _ => cases h

/-- To which class a superclass leads does not depend on the arguments of the class below it. -/
def HasFixedSuperclasses (W : Store) : Prop :=
  ∀ c, IsDefined W c → ∀ super, c.superclass = some super → ∀ args,
    class? (expansion W (super.substitute BaseModule.types c.decl.site args)) =
      class? (expansion W super)

/-- Superclasses that are written as classes lead to these with all arguments. -/
theorem hasFixedSuperclasses_of_written (hW : W.IsPlain)
    (h : ∀ t ∈ BaseModule.tree :: W.trees.values, t.Each fun n kind => ∀ d ∈ declIn? t n kind,
      ∀ c ∈ (classDef d (new W)).1, ∀ super ∈ c.superclass, (class? super).isSome) :
    HasFixedSuperclasses W := by
  intro c hc super hsuper args
  obtain ⟨t, ht, -, hdecl, -⟩ := exists_tree_of_grounded hW hc.grounded.1
  obtain ⟨kind, hkind, hdecl⟩ := exists_kind_of_declOf? hdecl
  have hclass := h t (Store.mem_values_of_mem_held ht) _ kind hkind _ hdecl c
    (hc.answers.eq_new hW) super hsuper
  obtain ⟨d, hd⟩ := Option.isSome_iff_exists.mp hclass
  obtain ⟨given, rfl⟩ := eq_class_of_class? hd
  rw [Ty.substitute]
  rfl

/-- The class to which the superclass of a class leads. -/
def superclass? (W : Store) (c : ClassDef) : Option DeclRef :=
  c.superclass.bind fun super => class? (expansion W super)

section Climbs

variable {c : ClassDef}

theorem grounded_superclass? (hW : W.IsPlain) (hc : IsDefined W c) {d : DeclRef}
    (hd : superclass? W c = some d) : Grounded W.held d := by
  obtain ⟨super, hsuper, hclass⟩ := Option.bind_eq_some_iff.mp hd
  obtain ⟨args, hargs⟩ := eq_class_of_class? hclass
  have hground : Grounded W.held super := (hsuper ▸ hc.grounded.2.1).of_some
  exact (Grounded.class_iff.mp (hargs ▸ grounded_expand hW hground)).1

theorem answers_superclassDef (hW : W.IsPlain) (hc : IsDefined W c) :
    Answers W (superclassDef c.superclass)
      ((superclass? W c).bind fun d => (classDef d (new W)).1) := by
  have hground := hc.grounded.2.1
  rw [superclass?]
  cases hsuper : c.superclass with
  | none => exact .pure none
  | some super =>
    have hground : Grounded W.held super := (hsuper ▸ hground).of_some
    have hexpanded := grounded_expand hW hground
    refine (answers_expand hW hground).bind ?_
    rw [Option.bind_some]
    generalize expansion W super = above at hexpanded ⊢
    cases above with
    | «class» d args => exact .of_steady hW (steady_classDef (Grounded.class_iff.mp hexpanded).1)
    | _ => exact .pure none

theorem class?_parent? (hW : W.IsPlain) (hfixed : HasFixedSuperclasses W) (hc : IsDefined W c)
    (args : List Ty) :
    ((definitions W).parent? c.decl args).bind class? = superclass? W c := by
  have hclass : (definitions W).classDef c.decl = (some c : Option ClassDef) :=
    hc.answers.eq_new hW
  rw [TypeEnv.parent?, hclass, superclass?]
  simp only
  cases hsuper : c.superclass with
  | none => rfl
  | some super => exact hfixed c hc super hsuper args

section Step

variable {target : Site} {seen : List Site} (hW : W.IsPlain) (hfixed : HasFixedSuperclasses W)
  (hc : IsDefined W c) (htarget : c.decl.site ≠ target) (n : Nat) (args : List Ty)
include hW hfixed hc htarget

theorem climb_last (hlast : superclass? W c = none) :
    (definitions W).climb target (n + 1) seen c.decl args = (none : Option (List Ty)) := by
  have habove := (class?_parent? hW hfixed hc args).trans hlast
  rw [TypeEnv.climb_succ_eq, if_neg htarget]
  generalize (definitions W).parent? c.decl args = above at habove
  split
  · rfl
  cases above with
  | none => rfl
  | some above =>
    cases above with
    | «class» d args => cases habove
    | _ => rfl

theorem climb_above (hnew : c.decl.site ∉ seen) {d : DeclRef} (hd : superclass? W c = some d) :
    ∃ args', (definitions W).climb target (n + 1) seen c.decl args =
      ((definitions W).climb target n (c.decl.site :: seen) d args' : Option (List Ty)) := by
  obtain ⟨above, habove, hclass⟩ :=
    Option.bind_eq_some_iff.mp ((class?_parent? hW hfixed hc args).trans hd)
  obtain ⟨args', rfl⟩ := eq_class_of_class? hclass
  refine ⟨args', ?_⟩
  rw [TypeEnv.climb_succ_eq, if_neg htarget, if_neg (by simpa using hnew), habove]

end Step

theorem climb_self (d : DeclRef) (n : Nat) (seen : List Site) (args : List Ty) :
    (definitions W).climb d.site n seen d args = (some args : Option (List Ty)) := by
  unfold TypeEnv.climb
  rw [if_pos rfl]
  rfl

theorem climb_of_mem {d : DeclRef} {target : Site} (htarget : d.site ≠ target) {seen : List Site}
    (hseen : d.site ∈ seen) (n : Nat) (args : List Ty) :
    (definitions W).climb target n seen d args = (none : Option (List Ty)) := by
  unfold TypeEnv.climb
  rw [if_neg htarget, if_pos (List.contains_iff_mem.mpr hseen)]
  rfl

/-- Nothing is climbed to from what is no class. -/
theorem climb_of_classDef_eq_none {d : DeclRef} (hd : (classDef d (new W)).1 = none) {target : Site}
    (htarget : d.site ≠ target) (n : Nat) (seen : List Site) (args : List Ty) :
    (definitions W).climb target n seen d args = (none : Option (List Ty)) := by
  have hnone : (definitions W).parent? d args = none := by
    have hclass : (definitions W).classDef d = (none : Option ClassDef) := hd
    rw [TypeEnv.parent?, hclass]
  cases n with
  | zero =>
    unfold TypeEnv.climb
    rw [if_neg htarget, ite_self]
    rfl
  | succ n => rw [TypeEnv.climb_succ_eq, if_neg htarget, hnone, ite_self]

/-- The definition that a store has for a class is one by which the class is defined. -/
theorem isDefined_of_classDef (hW : W.IsPlain) {d : DeclRef} (hd : Grounded W.held d)
    (hc : (classDef d (new W)).1 = some c) : IsDefined W c ∧ c.decl = d := by
  have hanswers : Answers W (classDef d) (some c) := hc ▸ .of_steady hW (steady_classDef hd)
  exact ⟨.of_answers hW hd hanswers, decl_of_answers_classDef hW hanswers⟩

/-- A place without a class is not that of a class. -/
theorem site_ne_of_classDef_eq_none (hW : W.IsPlain) {d : DeclRef} (hd : Grounded W.held d)
    (hnone : (classDef d (new W)).1 = none) {e : ClassDef} (he : IsDefined W e) :
    d.site ≠ e.decl.site := by
  intro h
  rw [hW.decl_eq hd he.grounded.1 h, he.answers.eq_new hW] at hnone
  cases hnone

/-- A class is climbed to from another one exactly if it is in the chain of this one. -/
theorem isSome_climb_iff (hW : W.IsPlain) (hfixed : HasFixedSuperclasses W) {e : ClassDef}
    (he : IsDefined W e) {seen : List Site} {classes : List ClassDef}
    (hc : IsDefined W c) (hchain : Unrolls W seen (some c) classes) (hnodup : seen.Nodup)
    (hsites : seen ⊆ W.sites) (hnot : e.decl.site ∉ seen) {n : Nat}
    (hn : W.sites.length < n + seen.length) (args : List Ty) :
    ((definitions W).climb e.decl.site n seen c.decl args : Option (List Ty)).isSome ↔
      e ∈ classes := by
  generalize hnext : some c = next at hchain
  induction hchain generalizing c n args with
  | last => cases hnext
  | @met seen c hmet =>
    cases hnext
    have hsite : c.decl.site ≠ e.decl.site := fun h => hnot (h ▸ hmet)
    rw [climb_of_mem hsite hmet]
    exact iff_of_false Bool.false_ne_true List.not_mem_nil
  | @step seen c next rest hnew hsuper hrest ih =>
    cases hnext
    by_cases hsite : c.decl.site = e.decl.site
    · obtain rfl := hc.eq hW he hsite
      rw [climb_self]
      exact iff_of_true rfl List.mem_cons_self
    have hnodup' : (c.decl.site :: seen).Nodup := List.nodup_cons.mpr ⟨hnew, hnodup⟩
    have hsites' : c.decl.site :: seen ⊆ W.sites :=
      List.cons_subset.mpr ⟨Store.IsPlain.site_mem hc.grounded.1, hsites⟩
    have hlength := (hnodup'.subperm hsites').length_le
    rw [List.length_cons] at hlength
    obtain ⟨n, rfl⟩ := Nat.exists_eq_add_of_le' (show 1 ≤ n by omega)
    have hother : e ≠ c := fun h => hsite (congrArg (·.decl.site) h).symm
    rw [List.mem_cons, or_iff_right hother]
    obtain rfl := hsuper.unique hW (answers_superclassDef hW hc)
    cases hd : superclass? W c with
    | none =>
      rw [hd] at hrest
      rw [climb_last hW hfixed hc hsite n args hd]
      cases hrest
      exact iff_of_false Bool.false_ne_true List.not_mem_nil
    | some d =>
      have hground := grounded_superclass? hW hc hd
      rw [hd, Option.bind_some] at hrest ih
      obtain ⟨args', hclimb⟩ := climb_above hW hfixed hc hsite n args hnew hd
      rw [hclimb]
      cases hfound : (classDef d (new W)).1 with
      | none =>
        rw [hfound] at hrest
        rw [climb_of_classDef_eq_none hfound (site_ne_of_classDef_eq_none hW hground hfound he)]
        cases hrest
        exact iff_of_false Bool.false_ne_true List.not_mem_nil
      | some c' =>
        obtain ⟨hc', rfl⟩ := isDefined_of_classDef hW hground hfound
        have hnot' : e.decl.site ∉ c.decl.site :: seen := by simp [hnot, Ne.symm hsite]
        exact ih hc' hnodup' hsites' hnot' (by rw [List.length_cons]; omega) args' hfound.symm

end Climbs

/-! ## Chains -/

/-- The chain of a class, by the definitions of a store. -/
def chainOf (W : Store) (d : DeclRef) : List ClassDef := (ancestors d (new W)).1.classes

section Chain

variable (hW : W.IsPlain) {d : DeclRef} (hd : Grounded W.held d)
include hW hd

/-- What is no class has no chain. -/
theorem chainOf_eq_nil (hnone : (classDef d (new W)).1 = none) : chainOf W d = [] := by
  have hdef := Answers.of_steady hW (steady_classDef hd)
  rw [hnone] at hdef
  have hask : ∀ d, ancestors d = remembered d.site (·.chains) (fun s chains => { s with chains })
      (env.ancestors d) := fun _ => rfl
  have hchain : Answers W (ancestors d) ⟨[], false⟩ :=
    .remembered shelf_chains hask hW (steady_ancestors hd)
      (hdef.bind (Widening.answers_chain hW .none (Nat.lt_succ_self _) (.pure _)))
  rw [chainOf, hchain.eq_new hW]

theorem unrolls_chainOf : Unrolls W [] (classDef d (new W)).1 (chainOf W d) := by
  cases hfound : (classDef d (new W)).1 with
  | none =>
    rw [chainOf_eq_nil hW hd hfound]
    exact .last []
  | some c =>
    obtain ⟨hc, rfl⟩ := isDefined_of_classDef hW hd hfound
    exact unrolls_ancestors hW hc (.of_steady hW (steady_ancestors hd))

theorem isDefined_of_mem_chainOf : ∀ e ∈ chainOf W d, IsDefined W e :=
  (unrolls_chainOf hW hd).isDefined hW fun _ hc => (isDefined_of_classDef hW hd hc).1

/-- A class, whatever its arguments, is seen as the classes of its chain. -/
theorem isSome_asSupertype?_iff (hfixed : HasFixedSuperclasses W) {e : ClassDef}
    (he : IsDefined W e) (args : List Ty) :
    ((definitions W).asSupertype? (.class d args) e.decl : Option (List Ty)).isSome ↔
      e ∈ chainOf W d := by
  have hchain := unrolls_chainOf hW hd
  have hcapacity := (IsCurrent.new hW).length_sites_le
  change ((definitions W).climb e.decl.site ((new W).capacity + 1) [] d args :
    Option (List Ty)).isSome ↔ _
  cases hfound : (classDef d (new W)).1 with
  | none =>
    have hne := site_ne_of_classDef_eq_none hW hd hfound he
    rw [climb_of_classDef_eq_none hfound hne, chainOf_eq_nil hW hd hfound]
    exact iff_of_false Bool.false_ne_true List.not_mem_nil
  | some c =>
    rw [hfound] at hchain
    obtain ⟨hc, rfl⟩ := isDefined_of_classDef hW hd hfound
    exact isSome_climb_iff hW hfixed he hc hchain List.nodup_nil (List.nil_subset _)
      List.not_mem_nil (by rw [List.length_nil]; omega) args

end Chain

end PklAnalysis.Session
