import Mathlib.Order.Filter.AtTopBot.Basic
import PklAnalysis.Proofs.Resolution.FaithfulQueries

/-!
# Chains come to an end

Supermodules and superclasses are followed as many steps as there are places, and not past what has
been met before.  Over a store without a loader no places come about, so that is enough: with more
steps the chains are the same.
-/

namespace PklAnalysis

namespace World

variable {W : World} {origin : Store}

theorem sites_eq (horigin : origin.loader = none) (hW : W.origin = origin) :
    W.store.sites = origin.sites := by
  subst hW
  rw [Store.sites, Store.sites, (W.reached.trees horigin).2]

theorem mem_sites (horigin : origin.loader = none) (hW : W.origin = origin) {site : Site}
    (h : W.store.HasPlace site) : site ∈ origin.sites :=
  sites_eq horigin hW ▸ h.mem_sites

end World

/-- The root of a tree is a place of its module. -/
theorem Faithful.hasPlace_root {W : World} {t : Tree} (h : Faithful W t) :
    W.store.HasPlace ⟨t.id, Tree.root⟩ := by
  obtain ⟨name, isOpen, hroot⟩ := h.rooted
  exact ⟨t, h, rfl, by rw [hroot]; rfl⟩

namespace Session

open Filter

variable {W : World} {s : Session} {origin : Store}

/-- What follows a faithful query agrees if it does so on its answer. -/
theorem IsFaithfulTo.bind_congr {α β : Type} [Reporting α] (hs : s.IsFaithfulTo W) {q : Query α}
    (hq : Faithfully W q) {f g : α → Query β}
    (h : ∀ U a s', W ≤ U → (q s).1 = a → Faithful U a → s'.IsFaithfulTo U → f a s' = g a s') :
    (q >>= f) s = (q >>= g) s := by
  obtain ⟨U, hU, hs', ha⟩ := hq.keepsFaith le_rfl hs 0
  exact h U (q s).1 (q s).2 hU rfl ha hs'

/-- The definition of a class is that of the class at its place. -/
theorem IsFaithfulTo.site_of_classDef (hs : s.IsFaithfulTo W) {d : DeclRef} {c : ClassDef}
    (hc : (classDef d s).1 = some c) : c.decl.site = d.site := by
  rw [classDef, remembered_apply] at hc
  split at hc
  · next found hremembered => exact (hs.classes d.site found hremembered).1 c hc
  · exact congrArg DeclRef.site (decl_of_tree?_classAt? hc)

/-- A session counts at least the places of its store. -/
theorem IsFaithfulTo.length_sites_le (hs : s.IsFaithfulTo W) (horigin : origin.loader = none)
    (hW : W.origin = origin) : origin.sites.length ≤ s.capacity := by
  rw [← World.sites_eq horigin hW, ← hs.store]
  exact length_sites_store_le s

/-- Places that are met once each. -/
structure Passed (W : Store) (seen : List Site) : Prop where
  nodup : seen.Nodup
  subset : seen ⊆ W.sites

namespace Passed

variable {seen : List Site} {site : Site}

theorem nil (W : Store) : Passed W [] := ⟨List.nodup_nil, List.nil_subset _⟩

theorem cons (h : Passed origin seen) (hnew : ¬seen.contains site = true)
    (hsite : site ∈ origin.sites) : Passed origin (site :: seen) :=
  ⟨List.nodup_cons.mpr ⟨by simpa using hnew, h.nodup⟩, List.cons_subset.mpr ⟨hsite, h.subset⟩⟩

theorem length_le (h : Passed origin seen) : seen.length ≤ origin.sites.length :=
  (h.nodup.subperm h.subset).length_le

end Passed

section Steps

variable (horigin : origin.loader = none)
include horigin

/-- With a step for each place that is left, one step more changes nothing about a climb. -/
theorem climb_succ (hs : s.IsFaithfulTo W) (hW : W.origin = origin) (target : Site) {n : Nat}
    {seen : List Site} (hseen : Passed origin seen) (d : DeclRef) {args : List Ty}
    (hargs : Faithful W args) (hn : origin.sites.length < n + seen.length) :
    env.climb target (n + 1) seen d args s = env.climb target n seen d args s := by
  induction n generalizing s W seen d args with
  | zero => exact absurd hseen.length_le (by omega)
  | succ n ih =>
    rw [TypeEnv.climb, TypeEnv.climb]
    split
    · rfl
    split
    · rfl
    next hnew =>
      refine hs.bind_congr (faithful_classDef d) fun U found s' hU hc hfound hs' => ?_
      have hUorigin := hU.1.symm.trans hW
      cases found with
      | none => rfl
      | some c =>
        obtain ⟨-, hplace, hsuper, -⟩ := hfound.of_some
        have hsite := World.mem_sites horigin hUorigin hplace
        rw [hs.site_of_classDef hc] at hsite
        cases hsuperclass : c.superclass with
        | none => simp only [hsuperclass]
        | some super =>
          rw [hsuperclass] at hsuper
          simp only [hsuperclass]
          refine hs'.bind_congr (faithful_expand (hsuper.of_some.substitute _ (hargs.mono hU)))
            fun U' type s'' hU' _ htype hs'' => ?_
          split
          · exact ih hs'' (hU'.1.symm.trans hUorigin) (hseen.cons hnew hsite) _ htype.class_args
              (by rw [List.length_cons]; omega)
          · rfl

/-- With a step for each place that is left, one step more changes nothing about a chain of
superclasses. -/
theorem chainFrom_succ_eq (hs : s.IsFaithfulTo W) (hW : W.origin = origin) {n : Nat}
    {seen : List Site} (hseen : Passed origin seen) {next : Option ClassDef}
    (hnext : Faithful W next) (hn : origin.sites.length < n + seen.length) :
    env.chainFrom (n + 1) seen next s = env.chainFrom n seen next s := by
  induction n generalizing s W seen next with
  | zero => exact absurd hseen.length_le (by omega)
  | succ n ih =>
    cases next with
    | none => rfl
    | some c =>
      rw [chainFrom_succ, chainFrom_succ]
      split
      · rfl
      next hnew =>
        obtain ⟨-, hplace, hsuper, -⟩ := hnext.of_some
        have hsite := World.mem_sites horigin hW hplace
        refine hs.bind_congr (faithful_superclassDef hsuper) fun U next s' hU _ hdef hs' => ?_
        have hrest := ih hs' (hU.1.symm.trans hW) (hseen.cons hnew hsite) hdef
          (by rw [List.length_cons]; omega)
        rw [bind_apply, bind_apply, hrest]

/-- With a step for each place that is left, one step more changes nothing about a chain of
supermodules. -/
theorem supermodulesFrom_succ (hs : s.IsFaithfulTo W) (hW : W.origin = origin) {n : Nat}
    {seen : List ModuleId} (hseen : Passed origin (seen.map (Site.mk · Tree.root)))
    {next : Option Tree} (hnext : Faithful W next)
    (hn : origin.sites.length < n + seen.length) :
    supermodulesFrom (n + 1) seen next s = supermodulesFrom n seen next s := by
  induction n generalizing s W seen next with
  | zero =>
    have hlength := hseen.length_le
    rw [List.length_map] at hlength
    exact absurd hlength (by omega)
  | succ n ih =>
    cases next with
    | none => rfl
    | some t =>
      rw [supermodulesFrom, supermodulesFrom]
      split
      · rfl
      next hnew =>
        have hplace := hnext.of_some.hasPlace_root
        refine hs.bind_congr (faithful_supermodule? t) fun U parent s' hU _ hparent hs' => ?_
        have hpassed : Passed origin ((t.id :: seen).map (Site.mk · Tree.root)) :=
          hseen.cons (by simpa using hnew) (World.mem_sites horigin hW hplace)
        have hrest := ih hs' (hU.1.symm.trans hW) hpassed hparent
          (by rw [List.length_cons]; omega)
        rw [bind_apply, bind_apply, hrest]

end Steps

/-- What is the same with one step more from some number of steps on is the same with all numbers of
steps from there on. -/
theorem eventually_eq_of_succ {α : Type} {f : Nat → α} {N : Nat}
    (h : ∀ n, N ≤ n → f (n + 1) = f n) : ∀ᶠ n in atTop, f n = f N := by
  refine eventually_atTop.mpr ⟨N, fun n hn => ?_⟩
  induction n, hn using Nat.le_induction with
  | base => rfl
  | succ n hn ih => rw [h n hn, ih]

/-- The chains that are followed in a session are followed to their ends: from some number of steps
on they are the same. -/
structure ChainsEnd (W : World) (s : Session) : Prop where
  supermodules : ∀ t, Faithful W t → ∀ᶠ n in atTop,
    (do supermodulesFrom n [t.id] (← supermodule? t) : Query _) s = supermodules t s
  ancestors : ∀ d, ∀ᶠ n in atTop,
    (do env.chainFrom n [] (← classDef d) : Query _) s = env.ancestors d s
  supertypes : ∀ d args target, Faithful W args → ∀ᶠ n in atTop,
    env.climb target n [] d args s =
      (do env.climb target ((← env.classCount) + 1) [] d args : Query _) s

/-- Without a loader the chains end in all sessions over a store. -/
theorem IsFaithfulTo.chainsEnd (hs : s.IsFaithfulTo W) (hloader : W.origin.loader = none) :
    ChainsEnd W s where
  supermodules t ht := by
    obtain ⟨U, hU, hs', hfirst⟩ := (faithful_supermodule? t).keepsFaith le_rfl hs 0
    have hlength := hs'.length_sites_le hloader hU.1.symm
    have hplace : U.store.HasPlace ⟨t.id, Tree.root⟩ := (ht.mono hU).hasPlace_root
    have hpassed : Passed W.origin ([t.id].map (Site.mk · Tree.root)) :=
      (Passed.nil _).cons (by simp) (World.mem_sites hloader hU.1.symm hplace)
    change ∀ᶠ n in atTop, supermodulesFrom n [t.id] (supermodule? t s).1 (supermodule? t s).2 =
      supermodulesFrom ((supermodule? t s).2.capacity + 1) [t.id] (supermodule? t s).1
        (supermodule? t s).2
    exact eventually_eq_of_succ (f := fun n => supermodulesFrom n _ _ _) fun n hn =>
      supermodulesFrom_succ hloader hs' hU.1.symm hpassed hfirst
        (by rw [List.length_singleton]; omega)
  ancestors d := by
    obtain ⟨U, hU, hs', hc⟩ := (faithful_classDef d).keepsFaith le_rfl hs 0
    have hlength := hs'.length_sites_le hloader hU.1.symm
    change ∀ᶠ n in atTop, env.chainFrom n [] (classDef d s).1 (classDef d s).2 =
      env.chainFrom ((classDef d s).2.capacity + 1) [] (classDef d s).1 (classDef d s).2
    exact eventually_eq_of_succ (f := fun n => env.chainFrom n [] _ _) fun n hn =>
      chainFrom_succ_eq hloader hs' hU.1.symm (.nil _) hc (by rw [List.length_nil]; omega)
  supertypes d args target hargs := by
    have hlength := hs.length_sites_le hloader rfl
    change ∀ᶠ n in atTop, env.climb target n [] d args s =
      env.climb target (s.capacity + 1) [] d args s
    exact eventually_eq_of_succ (f := fun n => env.climb target n [] d args s) fun n hn =>
      climb_succ hloader hs rfl target (.nil _) d hargs (by rw [List.length_nil]; omega)

end Session

end PklAnalysis
