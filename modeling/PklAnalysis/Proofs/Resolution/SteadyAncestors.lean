import PklAnalysis.Proofs.Resolution.SteadyClasses

/-!
# Aliases and superclasses are followed steadily

Aliases are replaced a fixed number of times; superclasses are followed with as many steps as the
session counts nodes, and any larger number of steps leads to the same answer in the same way, since
no class is met twice.  With the ancestors of a class its members are found steadily.
-/

namespace PklAnalysis.Session

variable {W : Store} {s : Session} {T : Set Tree}

/-! ## Aliases -/

theorem steady_expandFrom (n : Nat) (seen : List Site) {t : Ty} (ht : Grounded T t) :
    Steady T (env.expandFrom n seen t) := by
  induction n generalizing T seen t with
  | zero =>
    unfold TypeEnv.expandFrom
    split
    · split
      · exact .pure .unknown
      · exact .pure .unknown
    · exact .pure ht
  | succ n ih =>
    unfold TypeEnv.expandFrom
    split
    · next d args =>
      obtain ⟨hd, hargs⟩ := Grounded.typeAlias_iff.mp ht
      split
      · exact .pure .unknown
      · refine Steady.bind (n := Query) (steady_aliasDef hd) fun U found hU hfound => ?_
        cases found with
        | none => exact .pure .unknown
        | some a => exact ih _ (hfound.of_some.2.substitute _ (hargs.mono hU))
    · exact .pure ht

theorem steady_expand {t : Ty} (ht : Grounded T t) : Steady T (env.expand t) :=
  steady_expandFrom _ _ ht

/-! ## Superclasses -/

theorem steady_climb (target : Site) (n : Nat) (seen : List Site) {d : DeclRef} {args : List Ty}
    (hd : Grounded T d) (hargs : Grounded T args) :
    Steady T (env.climb target n seen d args) := by
  induction n generalizing T seen d args with
  | zero =>
    unfold TypeEnv.climb
    split
    · exact .pure hargs.some
    · split
      · exact .pure .none
      · exact .pure .none
  | succ n ih =>
    unfold TypeEnv.climb
    split
    · exact .pure hargs.some
    · split
      · exact .pure .none
      · refine Steady.bind (n := Query) (steady_classDef hd) fun U found hU hfound => ?_
        cases found with
        | none => exact .pure .none
        | some c =>
          cases hsuper : c.superclass with
          | none => simp only [hsuper]; exact .pure .none
          | some super =>
            have hground : Grounded U super := (hsuper ▸ hfound.of_some.2.1).of_some
            simp only [hsuper]
            refine (steady_expand (hground.substitute _ (hargs.mono hU))).bind
              fun V type hV htype => ?_
            split
            · obtain ⟨hd', hargs'⟩ := Grounded.class_iff.mp htype
              exact ih _ hd' hargs'
            · exact .pure .none

/-- With more steps than there are classes left a climb does not depend on the number of steps. -/
theorem climb_congr (hW : W.IsPlain) (hs : IsCurrent W s) (target : Site) {n m : Nat}
    {seen : List Site} {d : DeclRef} {args : List Ty} (hnodup : seen.Nodup)
    (hseen : seen ⊆ W.sites) (hd : Grounded W.held d) (hargs : Grounded W.held args)
    (hn : W.sites.length < n + seen.length) (hm : W.sites.length < m + seen.length) :
    env.climb target n seen d args s = env.climb target m seen d args s := by
  induction n generalizing s m seen d args with
  | zero =>
    -- no class is met twice, so no more classes have been met than there are places
    have hlength := (hnodup.subperm hseen).length_le
    omega
  | succ n ih =>
    cases m with
    | zero =>
      have hlength := (hnodup.subperm hseen).length_le
      omega
    | succ m =>
      rw [TypeEnv.climb, TypeEnv.climb]
      split
      · rfl
      split
      · rfl
      next hnew =>
        refine SteadyQuery.bind_congr (steady_classDef hd) hW hs fun found s' hfound hs' => ?_
        cases found with
        | none => rfl
        | some c =>
          cases hsuper : c.superclass with
          | none => simp only [hsuper]
          | some super =>
            have hground : Grounded W.held super := (hsuper ▸ hfound.of_some.2.1).of_some
            simp only [hsuper]
            refine SteadyQuery.bind_congr (steady_expand (hground.substitute _ hargs)) hW hs'
              fun type s'' htype hs'' => ?_
            split
            · obtain ⟨hd', hargs'⟩ := Grounded.class_iff.mp htype
              have hsite := Store.IsPlain.site_mem hd
              exact ih hs'' (List.nodup_cons.mpr ⟨by simpa using hnew, hnodup⟩)
                (List.cons_subset.mpr ⟨hsite, hseen⟩) hd' hargs'
                (by rw [List.length_cons]; omega) (by rw [List.length_cons]; omega)
            · rfl

theorem steady_asSupertype? {t : Ty} (ht : Grounded T t) (target : DeclRef) :
    Steady T (env.asSupertype? t target) := by
  unfold TypeEnv.asSupertype?
  refine (steady_expand ht).bind fun U type hU htype => ?_
  split
  · next d args =>
    obtain ⟨hd, hargs⟩ := Grounded.class_iff.mp htype
    refine SteadyQuery.of_eventually (fun n => steady_climb target.site n [] hd hargs)
      fun W hW hUW => ⟨W.sites.length + 1, fun n hn s hs => ?_⟩
    have hcapacity := hs.length_sites_le
    exact climb_congr hW hs target.site List.nodup_nil (List.nil_subset _) (hd.mono hUW)
      (hargs.mono hUW) (by rw [List.length_nil]; omega) (by rw [List.length_nil]; omega)
  · exact .pure .none

/-! ## Chains of ancestors -/

/-- The definition that a superclass leads to. -/
def superclassDef : Option Ty → Query (Option ClassDef)
  | none => return none
  | some super => do
    match ← env.expand super with
    | .class d _ => classDef d
    | _ => return none

/-- One step along a chain: the rest of it starts with the definition of the superclass. -/
theorem chainFrom_succ (n : Nat) (seen : List Site) (c : ClassDef) :
    env.chainFrom (n + 1) seen (some c) =
      if seen.contains c.decl.site then pure ⟨[], true⟩
      else superclassDef c.superclass >>= fun next =>
        env.chainFrom n (c.decl.site :: seen) next >>= fun rest =>
        pure ⟨c :: rest.classes, rest.isCyclic⟩ := by
  rw [TypeEnv.chainFrom]
  split
  · rfl
  · cases c.superclass with
    | none => rfl
    | some super =>
      simp only [superclassDef, bind_assoc]
      refine congrArg (env.expand super >>= ·) (funext fun type => ?_)
      cases type <;> rfl

theorem steady_superclassDef {super : Option Ty} (hsuper : Grounded T super) :
    Steady T (superclassDef super) := by
  cases super with
  | none => exact .pure .none
  | some super =>
    refine (steady_expand hsuper.of_some).bind fun U type hU htype => ?_
    split
    · exact steady_classDef (Grounded.class_iff.mp htype).1
    · exact .pure .none

theorem steady_chainFrom (n : Nat) (seen : List Site) {next : Option ClassDef}
    (hnext : Grounded T next) : Steady T (env.chainFrom n seen next) := by
  induction n generalizing T seen next with
  | zero =>
    cases next with
    | none => exact .pure .nil
    | some c =>
      unfold TypeEnv.chainFrom
      split
      · exact .pure .nil
      · exact .pure .nil
  | succ n ih =>
    cases next with
    | none => exact .pure .nil
    | some c =>
      rw [chainFrom_succ]
      split
      · exact .pure .nil
      · refine (steady_superclassDef hnext.of_some.2.1).bind fun U next hU hdef => ?_
        refine (ih (c.decl.site :: seen) hdef).bind fun V rest hV hrest => .pure ?_
        exact .cons (hnext.of_some.mono (hU.trans hV)) hrest

/-- With more steps than there are classes left a chain does not depend on the number of steps. -/
theorem chainFrom_congr (hW : W.IsPlain) (hs : IsCurrent W s) {n m : Nat} {seen : List Site}
    {next : Option ClassDef} (hnodup : seen.Nodup) (hseen : seen ⊆ W.sites)
    (hnext : Grounded W.held next) (hn : W.sites.length < n + seen.length)
    (hm : W.sites.length < m + seen.length) :
    env.chainFrom n seen next s = env.chainFrom m seen next s := by
  induction n generalizing s m seen next with
  | zero =>
    have hlength := (hnodup.subperm hseen).length_le
    omega
  | succ n ih =>
    cases m with
    | zero =>
      have hlength := (hnodup.subperm hseen).length_le
      omega
    | succ m =>
      cases next with
      | none => rfl
      | some c =>
        rw [chainFrom_succ, chainFrom_succ]
        split
        · rfl
        next hnew =>
          refine SteadyQuery.bind_congr (steady_superclassDef hnext.of_some.2.1) hW hs
            fun next s' hdef hs' => ?_
          have hrest := ih hs' (List.nodup_cons.mpr ⟨by simpa using hnew, hnodup⟩)
            (List.cons_subset.mpr ⟨Store.IsPlain.site_mem hnext.of_some.1, hseen⟩) hdef
            (by rw [List.length_cons]; omega)
            (show W.sites.length < m + (c.decl.site :: seen).length by
              rw [List.length_cons]; omega)
          rw [bind_apply, bind_apply, hrest]

theorem steady_chain {next : Option ClassDef} (hnext : Grounded T next) :
    Steady T (do env.chainFrom ((← env.classCount) + 1) [] next : Query AncestorChain) := by
  refine SteadyQuery.of_eventually (fun n => steady_chainFrom n [] hnext)
    fun W hW hUW => ⟨W.sites.length + 1, fun n hn s hs => ?_⟩
  have hcapacity := hs.length_sites_le
  exact chainFrom_congr hW hs List.nodup_nil (List.nil_subset _) (hnext.mono hUW)
    (by rw [List.length_nil]; omega) (by rw [List.length_nil]; omega)

/-! ## Ancestors and members -/

theorem shelf_chains : Shelf (·.chains) (fun s chains => { s with chains }) ancestors where
  recalls h := h.chains
  stores h hrecalls := h.recall rfl rfl rfl h.classes h.aliases hrecalls h.members
  trees _ _ := rfl
  targets _ _ := rfl
  empty _ := rfl

theorem shelf_members : Shelf (·.members) (fun s members => { s with members }) membersOfClass where
  recalls h := h.members
  stores h hrecalls := h.recall rfl rfl rfl h.classes h.aliases h.chains hrecalls
  trees _ _ := rfl
  targets _ _ := rfl
  empty _ := rfl

theorem ancestors_remembered :
    (∀ T d, Grounded T d → Steady T (ancestors d)) ∧ ∀ d, Visits d (ancestors d) := by
  have hsteady : ∀ U d, Grounded U d → Steady U (env.ancestors d) := fun U d hd =>
    Steady.bind (n := Query) (steady_classDef hd) fun V c _ hc => steady_chain hc
  have hvisits : ∀ d, Visits d (env.ancestors d) := fun d =>
    (visits_classDef d).bind (fun U hd => steady_classDef hd) fun U c _ hc => steady_chain hc
  exact ⟨fun T d hd => steady_remembered shelf_chains (fun _ => rfl) hsteady hvisits hd,
    visits_remembered shelf_chains (fun _ => rfl) hsteady hvisits⟩

theorem steady_ancestors {d : DeclRef} (hd : Grounded T d) : Steady T (ancestors d) :=
  ancestors_remembered.1 T d hd

theorem steady_membersOfClass {d : DeclRef} (hd : Grounded T d) : Steady T (membersOfClass d) := by
  have hbuild : ∀ (U : Set Tree) (chain : AncestorChain), Grounded U chain →
      Steady U (pure (MemberCache.build chain.classes) : Query MemberCache) :=
    fun U chain h => .pure (Grounded.build h)
  have hsteady : ∀ U d, Grounded U d →
      Steady U (ancestors d >>= fun chain => pure (MemberCache.build chain.classes)) :=
    fun U d hd => (steady_ancestors hd).bind fun V chain _ hchain => hbuild V chain hchain
  have hvisits : ∀ d,
      Visits d (ancestors d >>= fun chain => pure (MemberCache.build chain.classes)) :=
    fun d => (ancestors_remembered.2 d).bind (fun U hd => steady_ancestors hd)
      fun U chain _ hchain => hbuild U chain hchain
  exact steady_remembered shelf_members (fun _ => rfl) hsteady hvisits hd

theorem steady_memberOfClass? {d : DeclRef} (hd : Grounded T d) (name : String)
    (kind : MemberKind) : Steady T (memberOfClass? d name kind) :=
  (steady_membersOfClass hd).bind fun _ _ _ hcache => .pure (hcache.lookup name kind)

theorem steady_hasUnknownAncestor {d : DeclRef} (hd : Grounded T d) :
    Steady T (hasUnknownAncestor d) :=
  (steady_ancestors hd).bind fun _ _ _ _ => .pure trivial

end PklAnalysis.Session
