import Mathlib.Order.WellFoundedSet
import PklAnalysis.Proofs.Lattice.EndlessTypes

/-!
# Aliases that do not reach themselves

A type reaches what aliases at its head stand for and what stands under its question marks and in
its unions; a parameter of an alias stands for the argument that the alias is given.  An alias may
have several definitions, as its meaning can change while modules are looked for.  If no alias
reaches itself, every type can be taken apart to the end, whichever definitions are used.
-/

namespace PklAnalysis.Ty

variable (defs : AliasDef → Prop)

/-- What a type reaches through alias heads, question marks and unions alone. -/
inductive Reaches : Ty → Ty → Prop
  | refl (t : Ty) : Reaches t t
  | nullable {t u : Ty} (h : Reaches t u) : Reaches (.nullable t) u
  | union {ms : List Ty} {m u : Ty} (hm : m ∈ ms) (h : Reaches m u) : Reaches (.union ms) u
  | target {d : DeclRef} {args : List Ty} {a : AliasDef} {u : Ty} (ha : defs a)
      (hd : a.decl.site = d.site) (h : Reaches a.target u) : Reaches (.typeAlias d args) u
  | argument {d : DeclRef} {args : List Ty} {a : AliasDef} {p : ParamRef} {b u : Ty} (ha : defs a)
      (hd : a.decl.site = d.site) (hp : Reaches a.target (.param p)) (howner : p.owner = d.site)
      (hb : args[p.index]? = some b) (h : Reaches b u) : Reaches (.typeAlias d args) u

/-- The target of an alias reaches an alias at a place. -/
def ReachesAlias (a : AliasDef) (site : Site) : Prop :=
  ∃ d args, Reaches defs a.target (.typeAlias d args) ∧ d.site = site

/-- A type with the alias at its head replaced, or what stands in it if it has a question mark or is
a union. -/
inductive Beneath (base : BaseTypes) : Ty → Ty → Prop
  | nullable (t : Ty) : Beneath base t (.nullable t)
  | union {ms : List Ty} {m : Ty} (hm : m ∈ ms) : Beneath base m (.union ms)
  | target {d : DeclRef} {args : List Ty} {a : AliasDef} (ha : defs a)
      (hd : a.decl.site = d.site) :
      Beneath base (a.target.substitute base a.decl.site args) (.typeAlias d args)

/-- A type can be taken apart to the end, with whichever definitions its aliases are replaced. -/
def ComesToEnd (base : BaseTypes) (t : Ty) : Prop := Acc (Beneath defs base) t

variable {defs : AliasDef → Prop} {base : BaseTypes} {t u : Ty}

/-! ## What is reached -/

theorem Reaches.mono {defs' : AliasDef → Prop} (hdefs : ∀ a, defs a → defs' a)
    (h : Reaches defs t u) : Reaches defs' t u := by
  induction h with
  | refl t => exact .refl t
  | nullable _ ih => exact .nullable ih
  | union hm _ ih => exact .union hm ih
  | target ha hd _ ih => exact .target (hdefs _ ha) hd ih
  | argument ha hd _ howner hb _ ihp ih => exact .argument (hdefs _ ha) hd ihp howner hb ih

/-- What the target of a reached alias reaches is reached. -/
theorem Reaches.through_target {d : DeclRef} {args : List Ty}
    (h : Reaches defs t (.typeAlias d args)) {a : AliasDef} (ha : defs a)
    (hd : a.decl.site = d.site) (hu : Reaches defs a.target u) : Reaches defs t u := by
  generalize hv : Ty.typeAlias d args = v at h
  induction h with
  | refl t => exact hv ▸ .target ha hd hu
  | nullable _ ih => exact .nullable (ih hv)
  | union hm _ ih => exact .union hm (ih hv)
  | target ha' hd' _ ih => exact .target ha' hd' (ih hv)
  | argument ha' hd' hp howner hb _ _ ih => exact .argument ha' hd' hp howner hb (ih hv)

/-! ## Types that come to an end -/

theorem byComponents_comesToEnd : ByComponents (ComesToEnd defs base) where
  head t ht := by
    refine Acc.intro t fun u hu => ?_
    cases hu with
    | nullable | union | target => exact (Bool.false_ne_true ht).elim
  nothing := Acc.intro _ fun u hu => by cases hu
  nullable t := by
    refine ⟨fun h => h.inv (.nullable t), fun h => Acc.intro _ fun u hu => ?_⟩
    cases hu with
    | nullable => exact h
  union ms := by
    refine ⟨fun h m hm => h.inv (.union hm), fun h => Acc.intro _ fun u hu => ?_⟩
    cases hu with
    | union hm => exact h u hm

/-- A type comes to an end if all that stands in the place of its parameters does, as far as it is
reached, and all aliases that it reaches do, if their arguments do as far as they are reached. -/
theorem ComesToEnd.substitute {owner : Site} {args : List Ty}
    (hparams : ∀ p b, Reaches defs t (.param p) → p.owner = owner → args[p.index]? = some b →
      ComesToEnd defs base b)
    (haliases : ∀ d bs, (∃ bs', Reaches defs t (.typeAlias d bs')) →
      (∀ a p b, defs a → a.decl.site = d.site → Reaches defs a.target (.param p) →
        p.owner = d.site → bs[p.index]? = some b → ComesToEnd defs base b) →
      ComesToEnd defs base (.typeAlias d bs)) :
    ComesToEnd defs base (t.substitute base owner args) := by
  have hends : ByComponents (ComesToEnd defs base) := byComponents_comesToEnd
  induction t using byParts with
  | nothing => exact hends.nothing
  | nullable t ih =>
    have ht := ih (fun p b hp => hparams p b (.nullable hp))
      fun d bs ⟨bs', hd⟩ => haliases d bs ⟨bs', .nullable hd⟩
    exact hends.unionOf (List.forall_mem_cons.mpr ⟨ht, List.forall_mem_singleton.mpr
      (hends.head _ rfl)⟩)
  | union ms ih =>
    rw [Ty.substitute, substituteAll_eq_map]
    refine hends.unionOf (List.forall_mem_map.mpr fun m hm => ih m hm ?_ ?_)
    · exact fun p b hp => hparams p b (.union hm hp)
    · exact fun d bs ⟨bs', hd⟩ => haliases d bs ⟨bs', .union hm hd⟩
  | typeAlias d bs ih =>
    rw [Ty.substitute, substituteAll_eq_map]
    refine haliases d _ ⟨bs, .refl _⟩ fun a p b ha hsite hp howner hb => ?_
    rw [List.getElem?_map] at hb
    obtain ⟨b, hget, rfl⟩ := Option.map_eq_some_iff.mp hb
    -- an argument that the alias shows is reached with the alias
    have hreach {u : Ty} (hu : Reaches defs b u) : Reaches defs (.typeAlias d bs) u :=
      .argument ha hsite hp howner hget hu
    refine ih b (List.mem_of_getElem? hget) ?_ ?_
    · exact fun p b hp => hparams p b (hreach hp)
    · exact fun d bs ⟨bs', hd⟩ => haliases d bs ⟨bs', hreach hd⟩
  | param p =>
    rw [Ty.substitute]
    split
    · next howner =>
      cases hi : args[p.index]? with
      | none => exact hends.head _ rfl
      | some a => exact hparams p a (.refl _) howner hi
    · exact hends.head _ rfl
  | unknown | class_ | function | literal => exact hends.head _ rfl

/-! ## Ranked aliases -/

section Ranked

variable {rank : Site → Nat}
variable (hrank : ∀ a, defs a → ∀ d ∈ a.target.aliases, rank d.site < rank a.decl.site)
include hrank

end Ranked

/-! ## No alias reaches itself -/

/-- An alias at one place is reached from a definition of an alias at another place. -/
def ReachedFrom (defs : AliasDef → Prop) (x y : Site) : Prop :=
  ∃ a, defs a ∧ a.decl.site = y ∧ ReachesAlias defs a x

variable (hcycles : ∀ a, defs a → ¬ReachesAlias defs a a.decl.site)
include hcycles

/-- From an alias one comes back to the same alias nowhere, so among finitely many aliases one comes
to an end. -/
theorem wellFounded_reachedFrom (hfinite : {site | ∃ a, defs a ∧ a.decl.site = site}.Finite) :
    WellFounded (ReachedFrom defs) := by
  have hirrefl : Std.Irrefl (ReachedFrom defs) :=
    ⟨fun x ⟨a, ha, hx, hreach⟩ => hcycles a ha (hx ▸ hreach)⟩
  have htrans : IsTrans Site (ReachedFrom defs) := by
    refine ⟨fun x y z hxy hyz => ?_⟩
    obtain ⟨a, ha, rfl, d, args, hd, rfl⟩ := hxy
    obtain ⟨b, hb, rfl, d', args', hd', hsite⟩ := hyz
    exact ⟨b, hb, rfl, d, args, hd'.through_target ha hsite.symm hd, rfl⟩
  have hstrict : IsStrictOrder Site (ReachedFrom defs) := { hirrefl, htrans with }
  have hwf := Set.wellFoundedOn_iff.mp (hfinite.wellFoundedOn (r := ReachedFrom defs))
  -- a place without definitions leads nowhere
  refine ⟨fun y => hwf.induction y fun y ih => Acc.intro y fun x hx => ?_⟩
  by_cases hdefined : ∃ a, defs a ∧ a.decl.site = x
  · have ⟨a, ha, hy, _⟩ := hx
    exact ih x ⟨hx, hdefined, a, ha, hy⟩
  · exact Acc.intro x fun z ⟨a, ha, hx, _⟩ => (hdefined ⟨a, ha, hx⟩).elim

/-- If no alias reaches itself, every type comes to an end. -/
theorem comesToEnd (hfinite : {site | ∃ a, defs a ∧ a.decl.site = site}.Finite) (t : Ty) :
    ComesToEnd defs base t := by
  have hends : ByComponents (ComesToEnd defs base) := byComponents_comesToEnd
  -- an alias comes to an end if its arguments do, as far as they are reached
  have halias (site : Site) : ∀ d args, d.site = site →
      (∀ a p b, defs a → a.decl.site = d.site → Reaches defs a.target (.param p) →
        p.owner = d.site → args[p.index]? = some b → ComesToEnd defs base b) →
      ComesToEnd defs base (.typeAlias d args) := by
    induction site using (wellFounded_reachedFrom hcycles hfinite).induction with
    | _ site ih =>
      intro d args hd hargs
      refine Acc.intro _ fun u hu => ?_
      cases hu with
      | target ha hsite =>
        refine ComesToEnd.substitute (fun p b hp howner => ?_) fun d' bs ⟨bs', hreach⟩ => ?_
        · exact hargs _ p b ha hsite hp (howner.trans hsite)
        · exact ih d'.site ⟨_, ha, hsite.trans hd, d', bs', hreach, rfl⟩ d' bs rfl
  induction t using byParts with
  | nothing => exact hends.nothing
  | nullable t ih => exact (hends.nullable t).mpr ih
  | union ms ih => exact (hends.union ms).mpr ih
  | typeAlias d args ih =>
    exact halias d.site d args rfl fun _ _ b _ _ _ _ hb => ih b (List.mem_of_getElem? hb)
  | unknown | class_ | function | literal | param => exact hends.head _ rfl

end PklAnalysis.Ty
