import Mathlib.Logic.Relation
import Mathlib.Order.WellFounded
import PklAnalysis.Proofs.Lattice.NearNormal
import PklAnalysis.Proofs.Lattice.Unfolding

/-!
# Types without an end

Members of a value are looked for in what stands under the question marks and in the unions of its
type, with aliases replaced before each step.  Nothing gets smaller by that, so it may go on without
end: a type ends if it does not.  A type in which it stands itself has no end, and a type ends if no
alias in it leads back to itself.
-/

namespace PklAnalysis

/-- What stands under the question mark or in the union that a type is. -/
def Ty.components : Ty → List Ty
  | .nullable t => [t]
  | .union ms => ms
  | _ => []

/-- The alias that a type is at its head. -/
def Ty.alias? : Ty → Option DeclRef
  | .typeAlias d _ => some d
  | _ => none

/-- The type aliases that occur in a type. -/
def Ty.aliases (t : Ty) : List DeclRef := t.subterms.filterMap alias?

namespace Ty

variable {d : DeclRef} {t : Ty} {ts : List Ty}

theorem mem_aliases_of_mem (ht : t ∈ ts) (h : d ∈ t.aliases) :
    d ∈ (subtermsOfAll ts).filterMap alias? := by
  obtain ⟨u, hu, hd⟩ := List.mem_filterMap.mp h
  exact List.mem_filterMap.mpr ⟨u, mem_subtermsOfAll.mpr ⟨t, ht, hu⟩, hd⟩

theorem aliases_nullable (t : Ty) : (nullable t).aliases = t.aliases := rfl

theorem mem_aliases_union (ht : t ∈ ts) (h : d ∈ t.aliases) : d ∈ (union ts).aliases :=
  mem_aliases_of_mem ht h

theorem mem_aliases_head (d : DeclRef) (args : List Ty) : d ∈ (typeAlias d args).aliases :=
  List.mem_cons_self

theorem mem_aliases_args (d' : DeclRef) (ht : t ∈ ts) (h : d ∈ t.aliases) :
    d ∈ (typeAlias d' ts).aliases :=
  List.mem_cons_of_mem _ (mem_aliases_of_mem ht h)

/-! ## Properties of components -/

/-- A property that question marks and unions have exactly if what stands in them has it, and that
types without components have, aliases excepted. -/
structure ByComponents (P : Ty → Prop) : Prop where
  head : ∀ t, t.isHead = true → P t
  nothing : P .nothing
  nullable : ∀ t, P (.nullable t) ↔ P t
  union : ∀ ms, P (.union ms) ↔ ∀ m ∈ ms, P m

namespace ByComponents

variable {P : Ty → Prop} (h : ByComponents P) {base : BaseTypes}
include h

theorem of_mem_leaves {l : Ty} (ht : P t) (hl : l ∈ t.leaves base) : P l := by
  induction t using Ty.byParts with
  | nothing => exact (List.not_mem_nil hl).elim
  | nullable t ih =>
    rcases List.mem_cons.mp hl with rfl | hl
    · exact h.head _ rfl
    · exact ih ((h.nullable t).mp ht) hl
  | union ms ih =>
    rw [Ty.leaves, Ty.mem_leavesOfAll] at hl
    obtain ⟨m, hm, hl⟩ := hl
    exact ih m hm ((h.union ms).mp ht m hm) hl
  | unknown | class_ | typeAlias | function | literal | param =>
    rw [Ty.leaves_of_isLeaf rfl, List.mem_singleton] at hl
    exact hl ▸ ht

theorem ofMembers {ms : List Ty} (hms : ∀ m ∈ ms, P m) : P (Ty.ofMembers ms) := by
  match ms with
  | [] => exact h.nothing
  | [m] => exact hms m (List.mem_singleton_self m)
  | m :: n :: ms => exact (h.union _).mpr hms

theorem unionOf (hts : ∀ t ∈ ts, P t) : P (Ty.unionOf base ts) := by
  -- whichever form the union takes, its members are leaves of the given types
  have hmembers : ∀ m ∈ Ty.membersOf base (Ty.leavesOfAll base ts), P m := by
    intro m hm
    obtain ⟨t, ht, hl⟩ := Ty.mem_leavesOfAll.mp (Ty.mem_membersOf.mp hm).1
    exact h.of_mem_leaves (hts t ht) hl
  rw [Ty.unionOf_eq, Ty.ofLeaves]
  split
  · exact h.head _ rfl
  split
  · split
    · exact h.head _ rfl
    · exact (h.nullable _).mpr (h.ofMembers hmembers)
  · exact h.ofMembers hmembers

/-- A type has the property with types that have it in the place of its parameters, if its aliases
have it when their arguments do. -/
theorem substitute (ht : ∀ d ∈ t.aliases, ∀ args, (∀ a ∈ args, P a) → P (.typeAlias d args))
    (owner : Site) {args : List Ty} (hargs : ∀ a ∈ args, P a) :
    P (t.substitute base owner args) := by
  induction t using Ty.byParts with
  | nothing => exact h.nothing
  | nullable t ih =>
    rw [aliases_nullable] at ht
    have hnull : P base.nullType := h.head _ rfl
    exact h.unionOf (List.forall_mem_cons.mpr ⟨ih ht, List.forall_mem_singleton.mpr hnull⟩)
  | union ms ih =>
    rw [Ty.substitute, substituteAll_eq_map]
    refine h.unionOf (List.forall_mem_map.mpr fun m hm => ih m hm fun d hd => ?_)
    exact ht d (mem_aliases_union hm hd)
  | typeAlias d bs ih =>
    rw [Ty.substitute, substituteAll_eq_map]
    refine ht d (mem_aliases_head d bs) _ (List.forall_mem_map.mpr fun b hb => ih b hb ?_)
    exact fun d' hd' => ht d' (mem_aliases_args d hb hd')
  | param p =>
    rw [Ty.substitute]
    split
    · cases hi : args[p.index]? with
      | none => exact h.head _ rfl
      | some a => exact hargs a (List.mem_of_getElem? hi)
    · exact h.head _ rfl
  | unknown | class_ | function | literal => exact h.head _ rfl

/-- A type has the property if its aliases have it when their arguments do. -/
theorem of_aliases (ht : ∀ d ∈ t.aliases, ∀ args, (∀ a ∈ args, P a) → P (.typeAlias d args)) :
    P t := by
  induction t using Ty.byParts with
  | nothing => exact h.nothing
  | nullable t ih => exact (h.nullable t).mpr (ih ht)
  | union ms ih =>
    exact (h.union ms).mpr fun m hm => ih m hm fun d hd => ht d (mem_aliases_union hm hd)
  | typeAlias d args ih =>
    refine ht d (mem_aliases_head d args) args fun a ha => ih a ha ?_
    exact fun d' hd' => ht d' (mem_aliases_args d ha hd')
  | unknown | class_ | function | literal | param => exact h.head _ rfl

end ByComponents

end Ty

namespace TypeEnv

variable (env : TypeEnv Id)

/-- A type stands under the question mark or in the union to which another one expands. -/
def ComponentOf (a t : Ty) : Prop := a ∈ (env.expand t : Ty).components

/-- A type can be taken apart to the end, with aliases replaced before each step. -/
def Ends (t : Ty) : Prop := Acc env.ComponentOf t

/-- The target of a type alias mentions another one. -/
def Mentions (d' d : DeclRef) : Prop :=
  ∃ a, env.aliasDef d = some a ∧ d' ∈ a.target.aliases

/-- A type alias ends if its arguments do. -/
def EndsWithArgs (d : DeclRef) : Prop :=
  ∀ args, (∀ a ∈ args, env.Ends a) → env.Ends (.typeAlias d args)

variable {env}

/-! ## One step -/

theorem ends_iff {t : Ty} : env.Ends t ↔ ∀ a ∈ (env.expand t : Ty).components, env.Ends a :=
  ⟨fun h _ ha => h.inv ha, Acc.intro (r := env.ComponentOf) t⟩

theorem ends_nullable {t : Ty} : env.Ends (.nullable t) ↔ env.Ends t :=
  ends_iff.trans List.forall_mem_singleton

theorem ends_union {ms : List Ty} : env.Ends (.union ms) ↔ ∀ m ∈ ms, env.Ends m := ends_iff

/-- A type that is no alias and has no components ends. -/
theorem Ends.of_isHead {t : Ty} (h : t.isHead = true) : env.Ends t := by
  refine ends_iff.mpr ?_
  cases t with
  | unknown | «class» | function | literal | param => exact List.forall_mem_nil _
  | _ => exact (Bool.false_ne_true h).elim

theorem Ends.nothing : env.Ends .nothing := ends_iff.mpr (List.forall_mem_nil _)

/-- An alias expands to what its target expands to, if anything, and is unknown otherwise. -/
theorem Ends.typeAlias {d : DeclRef} {args : List Ty} (h : env.Ends (env.unfold d args)) :
    env.Ends (.typeAlias d args) := by
  rw [ends_iff, expand_eq] at h ⊢
  cases hx : env.expand? (.typeAlias d args) with
  | none => exact List.forall_mem_nil _
  | some x => rwa [expand?_unfold hx] at h

/-- A type in which it stands itself, at whatever depth, has no end. -/
theorem not_ends_of_cycle {t : Ty} (h : Relation.TransGen env.ComponentOf t t) : ¬env.Ends t :=
  fun hends => not_acc_iff_exists_descending_chain.mpr ⟨fun _ => t, rfl, fun _ => h⟩ hends.transGen

theorem byComponents_ends : Ty.ByComponents env.Ends :=
  ⟨fun _ => .of_isHead, .nothing, fun _ => ends_nullable, fun _ => ends_union⟩

/-! ## Aliases that do not lead back to themselves -/

theorem acc_mentions {d : DeclRef} {ds : List DeclRef}
    (hd : (env.aliasDef d : Option AliasDef).map (·.target.aliases) = some ds)
    (h : ∀ d' ∈ ds, Acc env.Mentions d') : Acc env.Mentions d := by
  refine Acc.intro d fun d' hmentions => ?_
  obtain ⟨a, ha, hd'⟩ := hmentions
  obtain ⟨b, hb, rfl⟩ := Option.map_eq_some_iff.mp hd
  obtain rfl : a = b := Option.some.inj (ha.symm.trans hb)
  exact h d' hd'

/-- An alias from which mentions lead to an end ends if its arguments do. -/
theorem endsWithArgs_of_acc {d : DeclRef} (h : Acc env.Mentions d) : env.EndsWithArgs d := by
  induction h with
  | intro d _ ih =>
    intro args hargs
    refine .typeAlias ?_
    -- the target mentions only aliases to which the induction hypothesis applies
    rw [unfold]
    split
    · next a ha => exact byComponents_ends.substitute (fun d' hd' => ih d' ⟨a, ha, hd'⟩) _ hargs
    · exact .of_isHead rfl

/-- A type ends if from none of its aliases mentions lead on without end. -/
theorem ends_of_acc {t : Ty} (h : ∀ d ∈ t.aliases, Acc env.Mentions d) : env.Ends t :=
  byComponents_ends.of_aliases fun d hd => endsWithArgs_of_acc (h d hd)

end TypeEnv

end PklAnalysis
