import Mathlib.Logic.Relation
import PklAnalysis.Proofs.Lattice.Hierarchies
import PklAnalysis.Proofs.Lattice.NearNormal
import PklAnalysis.Proofs.Lattice.UnknownRoots

/-!
# Common subtypes do not depend on the order

The rules of common subtypes look at the left type first: they open its union before the other one,
and climb from the left class before the right one.  The answers are the same from both sides all
the same, at every depth.  Two unions may be opened in either order, since what stands in a union in
normal form is no union itself, and of two classes at different places only one can be below the
other one if no class is above itself.
-/

namespace PklAnalysis

theorem commonShortcut_comm (a b : Ty) : commonShortcut a b = commonShortcut b a := by
  cases a <;> cases b <;> simp only [commonShortcut, eq_comm]

namespace Ty

variable {base : BaseTypes}

/-! ## Normal forms -/

theorem isNearMember_of_isMember {t : Ty} (h : t.isMember base = true) :
    t.isNearMember base = true := by
  obtain ⟨hleaf, -, hnull⟩ := isMember_iff.mp h
  rw [isNearMember, hleaf, hnull]
  rfl

theorem isNearNormalAt_of_isNormalAt {t : Ty} (h : t.isNormalAt base = true) :
    t.isNearNormalAt base = true := by
  cases t with
  | union ms =>
    simp only [isNormalAt, Bool.and_eq_true, decide_eq_true_iff, List.all_eq_true] at h
    simp only [isNearNormalAt, Bool.and_eq_true, decide_eq_true_iff, List.all_eq_true]
    exact ⟨⟨h.1.1, h.1.2.filter _⟩, fun m hm => isNearMember_of_isMember (h.2 m hm)⟩
  | nullable t =>
    cases t with
    | union ms => rfl
    | _ =>
      simp only [isNormalAt, isContent] at h
      exact isNearMember_of_isMember h
  | _ => rfl

/-- A member of a union nearly in normal form is not the type without values. -/
theorem ne_nothing_of_isNearMember {t : Ty} (h : t.isNearMember base = true) : t ≠ .nothing := by
  rintro rfl
  exact Bool.false_ne_true h

/-- A union nearly in normal form has a member. -/
theorem NearNormal.exists_mem {ms : List Ty} (h : NearNormal base (.union ms)) : ∃ t, t ∈ ms := by
  obtain ⟨⟨hlength, -⟩, -⟩ := NearNormal.union_iff.mp h
  exact List.exists_mem_of_length_pos (by omega)

end Ty

namespace TypeEnv

variable (env : TypeEnv Id)

/-! ## Environments without loops -/

/-- A class at one place has a class at another place as its superclass. -/
def SiteExtends (s s' : Site) : Prop := ∃ d d', env.Extends d d' ∧ d.site = s ∧ d'.site = s'

/-- An environment without type aliases whose superclasses are classes, none of them above itself.
What the definitions of a class say of its parameters depends on its place only. -/
structure IsAscending : Prop where
  aliasDef_eq : ∀ d, env.aliasDef d = none
  superclass_eq : ∀ {d c s}, env.classDef d = some c → c.superclass = some s →
    ∃ d' args, s = .class d' args
  acyclic : ∀ s, ¬Relation.TransGen env.SiteExtends s s
  variance_congr : ∀ {d d'}, d.site = d'.site →
    varianceIn (env.classDef d) = varianceIn (env.classDef d')

variable {env}

section Ascending

variable (h : env.IsAscending)
include h

theorem expand_typeAlias_of_isAscending (d : DeclRef) (args : List Ty) :
    env.expand (.typeAlias d args) = .unknown := by
  simp [expand, maxExpansions, expandFrom, h.aliasDef_eq d, pure, bind]

/-- Above a class is what its definition names, with the arguments of the class put in. -/
theorem exists_of_parent {d d' : DeclRef} {args args' : List Ty}
    (hparent : env.parent? d args = some (.class d' args')) :
    ∃ c given, env.classDef d = some c ∧ c.superclass = some (.class d' given) ∧
      given.map (Ty.substitute env.base c.decl.site args) = args' := by
  rw [parent?] at hparent
  cases hc : env.classDef d with
  | none => simp [hc] at hparent
  | some c =>
    simp only [hc] at hparent
    obtain ⟨s, hsuper, hexpand⟩ := Option.map_eq_some_iff.mp hparent
    obtain ⟨e, given, rfl⟩ := h.superclass_eq hc hsuper
    rw [Ty.substitute, Ty.substituteAll_eq_map] at hexpand
    cases hexpand
    exact ⟨c, given, rfl, hsuper, rfl⟩

/-- What each step from a class to its superclass keeps holds of the ancestor that is found. -/
theorem exists_of_climb {P : DeclRef → List Ty → Prop}
    (hstep : ∀ {d c d' given args}, env.classDef d = some c →
      c.superclass = some (.class d' given) → P d args →
      P d' (given.map (Ty.substitute env.base c.decl.site args)))
    {target : Site} {n : Nat} {seen : List Site} {d : DeclRef} {args view : List Ty}
    (hview : env.climb target n seen d args = some view) (hP : P d args) :
    ∃ d', d'.site = target ∧ P d' view := by
  induction n generalizing seen d args with
  | zero =>
    rw [climb] at hview
    split at hview
    · next hsite => exact ⟨d, hsite, Option.some.inj hview ▸ hP⟩
    · split at hview <;> cases hview
  | succ n ih =>
    rw [climb_succ_eq] at hview
    split at hview
    · next hsite => exact ⟨d, hsite, Option.some.inj hview ▸ hP⟩
    split at hview
    · cases hview
    split at hview
    · next d' args' hparent =>
      obtain ⟨c, given, hc, hsuper, rfl⟩ := exists_of_parent h hparent
      exact ih hview (hstep hc hsuper hP)
    · cases hview

/-- The arguments that a class has as an ancestor are nearly in normal form, and the way there leads
over superclasses. -/
theorem view_of_isAscending {c d : DeclRef} {as view : List Ty}
    (has : ∀ a ∈ as, Ty.NearNormal env.base a)
    (hview : env.asSupertype? (.class c as) d = some view) :
    (∀ v ∈ view, Ty.NearNormal env.base v) ∧
      Relation.ReflTransGen env.SiteExtends c.site d.site := by
  change env.climb d.site (_ + 1) [] c as = some view at hview
  obtain ⟨e, he, hpath, hargs⟩ := exists_of_climb h
    (P := fun e args => Relation.ReflTransGen env.SiteExtends c.site e.site ∧
      ∀ a ∈ args, Ty.NearNormal env.base a)
    (fun {e c' e' given args} hc hsuper ⟨hpath, hargs⟩ =>
      ⟨hpath.tail ⟨e, e', ⟨c', given, hc, hsuper⟩, rfl, rfl⟩,
        List.forall_mem_map.mpr fun a _ => Ty.NearNormal.substitute a _ hargs⟩)
    hview ⟨.refl, has⟩
  exact ⟨hargs, he ▸ hpath⟩

/-- Two classes that are each an ancestor of the other one stand at one place. -/
theorem site_eq_of_views {c d : DeclRef} {as bs view view' : List Ty}
    (has : ∀ a ∈ as, Ty.NearNormal env.base a) (hbs : ∀ b ∈ bs, Ty.NearNormal env.base b)
    (hview : env.asSupertype? (.class c as) d = some view)
    (hview' : env.asSupertype? (.class d bs) c = some view') : c.site = d.site := by
  have hup := (view_of_isAscending h has hview).2
  have hback := (view_of_isAscending h hbs hview').2
  rcases Relation.reflTransGen_iff_eq_or_transGen.mp hup with heq | hpath
  · exact heq.symm
  · exact absurd (hpath.trans_left hback) (h.acyclic c.site)

end Ascending

/-! ## The rules from both sides -/

section Rules

variable {S C : Ty → Ty → Prop}

/-- Arguments of one class have the same refinements from both sides. -/
theorem ArgsMeet.symm (hC : ∀ {a b}, Ty.NearNormal env.base a → Ty.NearNormal env.base b →
      C a b → C b a) {c c' : Option ClassDef} (hvariance : varianceIn c = varianceIn c')
    {ours theirs : List Ty} (hours : ∀ a ∈ ours, Ty.NearNormal env.base a)
    (htheirs : ∀ b ∈ theirs, Ty.NearNormal env.base b) (h : ArgsMeet S C c ours theirs) :
    ArgsMeet S C c' theirs ours := by
  intro i hi
  have hi' := h i (Nat.max_comm _ _ ▸ hi)
  rw [hvariance] at hi'
  revert hi'
  cases varianceIn c' i with
  | covariant => exact hC (Ty.NearNormal.argAt hours i) (Ty.NearNormal.argAt htheirs i)
  | contravariant => exact id
  | invariant => exact And.symm

variable (h : env.IsAscending)
  (hC : ∀ {a b}, Ty.NearNormal env.base a → Ty.NearNormal env.base b → C a b → C b a)
include h hC

/-- Two classes meet from both sides: whichever is below the other one, the arguments are compared
for the upper one. -/
theorem ClassesMeet.symm {c d : DeclRef} {as bs : List Ty}
    (has : ∀ a ∈ as, Ty.NearNormal env.base a) (hbs : ∀ b ∈ bs, Ty.NearNormal env.base b)
    (hmeet : env.ClassesMeet S C c d as bs) : env.ClassesMeet S C d c bs as := by
  rcases hmeet with ⟨view, hview, hargs⟩ | ⟨-, view, hview, hargs⟩
  · have hnear := (view_of_isAscending h has hview).1
    cases hback : env.asSupertype? (.class d bs) c with
    | none => exact .inr ⟨hback, view, hview, hargs.symm hC rfl hnear hbs⟩
    | some view' =>
      -- both are one class, so neither is seen as anything else
      have hsite := site_eq_of_views h has hbs hview hback
      change env.climb d.site (_ + 1) [] c as = some view at hview
      change env.climb c.site (_ + 1) [] d bs = some view' at hback
      rw [climb, if_pos hsite] at hview
      rw [climb, if_pos hsite.symm] at hback
      cases hview
      cases hback
      refine .inl ⟨_, ?_, hargs.symm hC (h.variance_congr hsite.symm) has hbs⟩
      change env.climb c.site (_ + 1) [] d bs = some bs
      rw [climb, if_pos hsite.symm]
      rfl
  · have hnear := (view_of_isAscending h hbs hview).1
    exact .inl ⟨view, hview, hargs.symm hC rfl has hnear⟩

/-- The rules for the shapes of two types give the same answer from both sides, if they do so for
texts and for unions. -/
theorem ShapesMeet.symm (hunknown : ∀ {t}, t ≠ .nothing → C .unknown t)
    (hS : ∀ {x y}, S (.literal x) (.literal y) → S (.literal y) (.literal x))
    (hunions : ∀ {ms ns}, Ty.NearNormal env.base (.union ms) → Ty.NearNormal env.base (.union ns) →
      (∃ t ∈ ms, C t (.union ns)) → ∃ t ∈ ns, C t (.union ms))
    {a b : Ty} (ha : Ty.NearNormal env.base a) (hb : Ty.NearNormal env.base b)
    (hmeet : env.ShapesMeet S C a b) : env.ShapesMeet S C b a := by
  have hexpand (d : DeclRef) (as : List Ty) :
      Ty.NearNormal env.base (env.expand (.typeAlias d as)) :=
    expand_typeAlias_of_isAscending h d as ▸ Ty.NearNormal.unknown
  have hmembers {ms : List Ty} (hms : Ty.NearNormal env.base (.union ms)) (t : Ty) (ht : t ∈ ms) :
      Ty.NearNormal env.base t := ((Ty.NearNormal.union_iff.mp hms).2 t ht).2
  have hleft {ms : List Ty} {t : Ty} (hms : Ty.NearNormal env.base (.union ms))
      (ht : Ty.NearNormal env.base t) : (∃ u ∈ ms, C u t) → ∃ u ∈ ms, C t u :=
    fun ⟨u, hu, hmeet⟩ => ⟨u, hu, hC (hmembers hms u hu) ht hmeet⟩
  have hright {ms : List Ty} {t : Ty} (hms : Ty.NearNormal env.base (.union ms))
      (ht : Ty.NearNormal env.base t) : (∃ u ∈ ms, C t u) → ∃ u ∈ ms, C u t :=
    fun ⟨u, hu, hmeet⟩ => ⟨u, hu, hC ht (hmembers hms u hu) hmeet⟩
  cases a with
  | typeAlias d as =>
    cases b with
    | typeAlias e bs =>
      change C (env.expand (.typeAlias e bs)) _
      rw [expand_typeAlias_of_isAscending h]
      exact hunknown nofun
    | _ => exact hC (hexpand d as) hb hmeet
  | union ms =>
    cases b with
    | typeAlias e bs => exact hC ha (hexpand e bs) hmeet
    | union ns => exact hunions ha hb hmeet
    | _ => exact hleft ha hb hmeet
  | nullable t =>
    cases b with
    | typeAlias e bs => exact hC ha (hexpand e bs) hmeet
    | union ns => exact hright hb ha hmeet
    | _ => exact hmeet
  | literal x =>
    cases b with
    | typeAlias e bs => exact hC ha (hexpand e bs) hmeet
    | union ns => exact hright hb ha hmeet
    | literal y => exact hS hmeet
    | _ => exact hmeet
  | function ps r =>
    obtain ⟨hps, hr⟩ := Ty.NearNormal.function_iff.mp ha
    cases b with
    | typeAlias e bs => exact hC ha (hexpand e bs) hmeet
    | union ns => exact hright hb ha hmeet
    | function qs s =>
      exact ⟨hmeet.1.symm, hC hr (Ty.NearNormal.function_iff.mp hb).2 hmeet.2⟩
    | «class» d bs => exact hC (Ty.NearNormal.functionView hps hr) hb hmeet
    | _ => exact hmeet
  | «class» c as =>
    cases b with
    | typeAlias e bs => exact hC ha (hexpand e bs) hmeet
    | union ns => exact hright hb ha hmeet
    | function qs s =>
      obtain ⟨hqs, hs⟩ := Ty.NearNormal.function_iff.mp hb
      exact hC ha (Ty.NearNormal.functionView hqs hs) hmeet
    | «class» d bs =>
      exact ClassesMeet.symm h hC (Ty.NearNormal.class_iff.mp ha) (Ty.NearNormal.class_iff.mp hb)
        hmeet
    | _ => exact hmeet
  | unknown | nothing | param =>
    cases b with
    | typeAlias e bs => exact hC ha (hexpand e bs) hmeet
    | union ns => exact hright hb ha hmeet
    | _ => exact hmeet

end Rules

/-! ## The answers from both sides -/

/-- Where the depth ends only the type without values has no common subtype. -/
theorem commonUnder_zero (p : Pending) {a b : Ty} (ha : a ≠ .nothing) (hb : b ≠ .nothing) :
    env.commonUnder 0 p a b = true := by
  rw [commonUnder]
  cases hshort : commonShortcut a b with
  | fails => exact ((eq_nothing_of_commonShortcut hshort).elim ha hb).elim
  | _ => rfl

theorem commonUnder_unknown (depth : Nat) (p : Pending) {t : Ty} (ht : t ≠ .nothing) :
    env.commonUnder depth p .unknown t = true := by
  cases depth <;> cases t <;> first | rfl | exact absurd rfl ht

/-- Two texts are subtypes of each other from both sides. -/
theorem subtypeUnder_literals (depth : Nat) {x y : String}
    (h : env.subtypeUnder (n := Id) true depth [] (.literal x) (.literal y) = true) :
    env.subtypeUnder (n := Id) true depth [] (.literal y) (.literal x) = true := by
  by_cases hxy : x = y
  · exact hxy ▸ h
  have hshort {x y : String} (hxy : x ≠ y) :
      subtypeShortcut (.literal x) (.literal y) = .open := by
    simp [subtypeShortcut, hxy]
  cases depth with
  | zero =>
    rw [subtypeUnder, hshort (Ne.symm hxy)]
  | succ depth =>
    rw [subtypeUnder, hshort hxy] at h
    cases h

section Answers

variable (h : env.IsAscending)
include h

/-- A type alias has no definition, so nothing but the type without values is ruled out for it. -/
theorem commonUnder_typeAlias (depth : Nat) (p : Pending) (d : DeclRef) (as : List Ty) {t : Ty}
    (ht : t ≠ .nothing) : env.commonUnder depth p (.typeAlias d as) t = true := by
  cases depth with
  | zero => exact commonUnder_zero p nofun ht
  | succ depth =>
    rw [commonUnder]
    cases hshort : commonShortcut (.typeAlias d as) t with
    | holds => rfl
    | fails => exact absurd ((eq_nothing_of_commonShortcut hshort).resolve_left nofun) ht
    | «open» =>
      refine (env.commonStep_iff _ _ _ _).mpr ?_
      change env.commonUnder depth p (env.expand (.typeAlias d as)) t = true
      rw [expand_typeAlias_of_isAscending h]
      exact commonUnder_unknown depth p ht

/-- A type that is no union meets a union in one of its members. -/
theorem commonUnder_union_iff {t : Ty} {ns : List Ty} (ht : t.isNearMember env.base = true)
    (hns : Ty.NearNormal env.base (.union ns)) (depth : Nat) :
    env.commonUnder (depth + 1) [] t (.union ns) = true ↔
      ∃ u ∈ ns, env.commonUnder depth [] t u = true := by
  -- with an open type there is nothing to look for, since the union has a member
  have hopen (hall : ∀ depth {u : Ty}, u ≠ .nothing → env.commonUnder depth [] t u = true) :
      env.commonUnder (depth + 1) [] t (.union ns) = true ↔
        ∃ u ∈ ns, env.commonUnder depth [] t u = true := by
    obtain ⟨u, hu⟩ := hns.exists_mem
    have hmember := ((Ty.NearNormal.union_iff.mp hns).2 u hu).1
    exact iff_of_true (hall _ nofun) ⟨u, hu, hall _ (Ty.ne_nothing_of_isNearMember hmember)⟩
  cases t with
  | nothing | nullable _ | union _ => exact absurd ht Bool.false_ne_true
  | unknown => exact hopen fun depth _ hu => commonUnder_unknown depth [] hu
  | param p =>
    refine hopen fun depth u hu => ?_
    cases depth <;> cases u <;> first | rfl | exact absurd rfl hu
  | typeAlias d as => exact hopen fun depth _ hu => commonUnder_typeAlias h depth [] d as hu
  | «class» | function | literal =>
    rw [commonUnder]
    exact env.commonStep_iff _ _ _ _

/-- Common subtypes under no pending pairs are found from both sides, at any depth. -/
theorem commonUnder_symm {depth : Nat} {a b : Ty} (ha : Ty.NearNormal env.base a)
    (hb : Ty.NearNormal env.base b) (hmeet : env.commonUnder depth [] a b = true) :
    env.commonUnder depth [] b a = true := by
  induction depth using Nat.strongRecOn generalizing a b with
  | ind depth ih =>
  cases depth with
  | zero =>
    rw [commonUnder] at hmeet ⊢
    rwa [commonShortcut_comm]
  | succ depth =>
    rw [commonUnder] at hmeet ⊢
    rw [commonShortcut_comm]
    cases hshort : commonShortcut a b with
    | holds => rfl
    | fails =>
      rw [hshort] at hmeet
      cases hmeet
    | «open» =>
      simp only [hshort] at hmeet
      refine (env.commonStep_iff _ _ b a).mpr (ShapesMeet.symm h
        (fun hx hy => ih depth (Nat.lt_succ_self depth) hx hy)
        (fun ht => commonUnder_unknown depth [] ht) (subtypeUnder_literals depth) ?_ ha hb
        ((env.commonStep_iff _ _ a b).mp hmeet))
      rintro ms ns hms hns ⟨t, ht, hmeet⟩
      have hmember {t : Ty} (ht : t ∈ ms) := (Ty.NearNormal.union_iff.mp hms).2 t ht
      have hmember' {u : Ty} (hu : u ∈ ns) := (Ty.NearNormal.union_iff.mp hns).2 u hu
      cases depth with
      | zero =>
        obtain ⟨u, hu⟩ := hns.exists_mem
        have hne : u ≠ .nothing := Ty.ne_nothing_of_isNearMember (hmember' hu).1
        exact ⟨u, hu, commonUnder_zero [] hne (by simp)⟩
      | succ depth =>
        -- two steps on a member of the one union is compared with a member of the other one
        obtain ⟨u, hu, hmeet⟩ := (commonUnder_union_iff h (hmember ht).1 hns depth).mp hmeet
        refine ⟨u, hu, (commonUnder_union_iff h (hmember' hu).1 hms depth).mpr ⟨t, ht, ?_⟩⟩
        exact ih depth (by omega) (hmember ht).2 (hmember' hu).2 hmeet

end Answers

/-- Whether two types in normal form can have a common subtype does not depend on their order. -/
theorem haveCommonSubtype_comm (h : env.IsAscending) {a b : Ty}
    (ha : ∀ u ∈ a.subterms, u.isNormalAt env.base = true)
    (hb : ∀ u ∈ b.subterms, u.isNormalAt env.base = true) :
    env.haveCommonSubtype a b = env.haveCommonSubtype b a := by
  have hnear {t : Ty} (ht : ∀ u ∈ t.subterms, u.isNormalAt env.base = true) :
      Ty.NearNormal env.base t := fun u hu => Ty.isNearNormalAt_of_isNormalAt (ht u hu)
  rw [haveCommonSubtype_eq, haveCommonSubtype_eq]
  exact Bool.eq_iff_iff.mpr
    ⟨commonUnder_symm h (hnear ha) (hnear hb), commonUnder_symm h (hnear hb) (hnear ha)⟩

end TypeEnv

namespace TypeTable

/-! ## Tables -/

/-- A table without type aliases is such an environment if superclasses are classes that are lower
in some order. -/
theorem isAscending_of_rank {t : TypeTable} (haliases : t.aliases = []) (rank : Site → Nat)
    (hsuper : ∀ e ∈ t.classes, ∀ s ∈ e.2.superclass, (headSite? s).isSome)
    (hrank : ∀ e ∈ t.classes, ∀ site ∈ e.2.superclass.bind headSite?, rank site < rank e.1) :
    t.env.IsAscending where
  aliasDef_eq d := by
    change t.aliases.lookup d.site = none
    rw [haliases]
    rfl
  superclass_eq {d c s} hc hs := by
    have hhead := hsuper (d.site, c) (mem_of_lookup hc) s hs
    cases s with
    | «class» d' args => exact ⟨d', args, rfl⟩
    | _ => exact absurd hhead Bool.false_ne_true
  acyclic s hcycle := by
    have hlower : ∀ s s', t.env.SiteExtends s s' → rank s' < rank s := by
      rintro _ _ ⟨d, d', ⟨c, args, hc, hs⟩, rfl, rfl⟩
      exact hrank (d.site, c) (mem_of_lookup hc) d'.site (by rw [hs]; rfl)
    have hpath : Relation.TransGen (fun m n => n < m) (rank s) (rank s) := hcycle.lift rank hlower
    rw [Relation.transGen_eq_self] at hpath
    exact Nat.lt_irrefl _ hpath
  variance_congr {d d'} hsite := by
    change varianceIn (t.classes.lookup d.site) = varianceIn (t.classes.lookup d'.site)
    rw [hsite]

/-- The base table with a class of cells, listings of values that can be replaced. -/
def cells : DeclRef × TypeTable :=
  let (d, t) := withBase.reserve "Cell"
  (d, t.defineClass d [⟨"Value", .invariant⟩]
    (some (.class t.base.listing [.param ⟨d.site, 0, "Value"⟩])))

end TypeTable

namespace TypeEnv

open TypeTable in
/-- A cell of numbers or a text, and listings of integers that may be null. -/
theorem haveCommonSubtype_comm_cells :
    let b := cells.2.base
    let cell : Ty := .union [.class cells.1 [BaseTypes.plain b.number], .literal "empty"]
    let listing : Ty := .nullable (.class b.listing [BaseTypes.plain b.int])
    cells.2.env.haveCommonSubtype cell listing = cells.2.env.haveCommonSubtype listing cell := by
  have hascending : cells.2.env.IsAscending :=
    isAscending_of_rank rfl (·.node) (by decide) (by decide)
  exact haveCommonSubtype_comm hascending (by decide) (by decide)

end TypeEnv

end PklAnalysis
