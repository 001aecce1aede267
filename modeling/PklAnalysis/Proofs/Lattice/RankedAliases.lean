import PklAnalysis.Proofs.Lattice.EndlessTypes
import PklAnalysis.Proofs.Lattice.LosingPrecision

/-!
# Ranked aliases

Where the target of every alias mentions only aliases of lower rank, replacing the alias at the head
of a type comes to an end.  It need not take an alias of lower rank in each step: an argument may
bring an alias of any rank to the head.  So the induction is on the rank of one alias, for all
arguments of which the same is known, and a substitution passes what is known on to the target.
Expansion follows these steps, up to 64 of them.
-/

namespace PklAnalysis

namespace TypeEnv

variable (env : TypeEnv Id)

/-- Replacing the alias at the head of a type by what it is defined as leads over some aliases to a
type that is none. -/
inductive HeadSteps : Ty → List DeclRef → Ty → Prop
  | done {t : Ty} (h : ∀ d args, t ≠ .typeAlias d args) : HeadSteps t [] t
  | step {d : DeclRef} {args : List Ty} {a : AliasDef} {ds : List DeclRef} {x : Ty}
      (ha : env.aliasDef d = some a)
      (h : HeadSteps (a.target.substitute env.base a.decl.site args) ds x) :
      HeadSteps (.typeAlias d args) (d :: ds) x

/-- The targets of aliases mention only defined aliases of lower rank. -/
def IsRanked {α : Type} [LT α] (rank : DeclRef → α) : Prop :=
  ∀ d a, env.aliasDef d = some a →
    ∀ d' ∈ a.target.aliases, (env.aliasDef d' : Option AliasDef).isSome ∧ rank d' < rank d

/-- The steps at the head of each leaf of a type come to an end. -/
def HeadsEnd (t : Ty) : Prop := ∀ l ∈ t.leaves env.base, ∃ ds x, env.HeadSteps l ds x

variable {env}

/-! ## The steps come to an end -/

theorem byComponents_headsEnd : Ty.ByComponents env.HeadsEnd where
  head t ht l hl := by
    rw [Ty.leaves_of_isLeaf (Ty.isLeaf_of_isHead ht), List.mem_singleton] at hl
    exact ⟨[], l, .done (hl ▸ ne_typeAlias_of_isHead ht)⟩
  nothing := List.forall_mem_nil _
  nullable t := by
    have hnull : ∃ ds x, env.HeadSteps env.base.nullType ds x := ⟨[], _, .done nofun⟩
    rw [HeadsEnd, Ty.leaves_nullable, List.forall_mem_cons, and_iff_right hnull]
    exact Iff.rfl
  union ms := by
    constructor
    · exact fun h m hm l hl => h l (Ty.mem_leavesOfAll.mpr ⟨m, hm, hl⟩)
    · intro h l hl
      obtain ⟨m, hm, hl⟩ := Ty.mem_leavesOfAll.mp hl
      exact h m hm l hl

/-- An alias is the only leaf of itself. -/
theorem HeadsEnd.exists_headSteps {t : Ty} (h : env.HeadsEnd t) : ∃ ds x, env.HeadSteps t ds x := by
  by_cases ht : ∃ d args, t = .typeAlias d args
  · obtain ⟨d, args, rfl⟩ := ht
    exact h _ (List.mem_singleton_self _)
  · exact ⟨[], t, .done fun d args he => ht ⟨d, args, he⟩⟩

/-- The steps at the head of an alias come to an end if those of its arguments do. -/
theorem headsEnd_typeAlias {α : Type} [Preorder α] [WellFoundedLT α] {rank : DeclRef → α}
    (hrank : env.IsRanked rank) (d : DeclRef) (hd : (env.aliasDef d : Option AliasDef).isSome)
    (args : List Ty) (hargs : ∀ a ∈ args, env.HeadsEnd a) : env.HeadsEnd (.typeAlias d args) := by
  induction hr : rank d using WellFoundedLT.induction generalizing d args with
  | ind r ih =>
    obtain ⟨a, ha⟩ := Option.isSome_iff_exists.mp hd
    have htarget : env.HeadsEnd (a.target.substitute env.base a.decl.site args) := by
      refine byComponents_headsEnd.substitute (fun d' hd' args' hargs' => ?_) _ hargs
      obtain ⟨hdefined, hlower⟩ := hrank d a ha d' hd'
      exact ih (rank d') (hr ▸ hlower) d' hdefined args' hargs' rfl
    intro l hl
    obtain rfl := List.mem_singleton.mp hl
    obtain ⟨ds, x, h⟩ := htarget.exists_headSteps
    exact ⟨d :: ds, x, .step ha h⟩

/-- With ranked aliases the steps at the head of a type come to an end. -/
theorem exists_headSteps {α : Type} [Preorder α] [WellFoundedLT α] {rank : DeclRef → α}
    (hrank : env.IsRanked rank) {t : Ty}
    (ht : ∀ d ∈ t.aliases, (env.aliasDef d : Option AliasDef).isSome) :
    ∃ ds x, env.HeadSteps t ds x := by
  have hends : env.HeadsEnd t := byComponents_headsEnd.of_aliases fun d hd args hargs =>
    headsEnd_typeAlias hrank d (ht d hd) args hargs
  exact hends.exists_headSteps

/-! ## Expansion follows the steps -/

theorem HeadSteps.unique {t x y : Ty} {ds es : List DeclRef} (h : env.HeadSteps t ds x)
    (h' : env.HeadSteps t es y) : es = ds ∧ y = x := by
  induction h generalizing es with
  | done ht =>
    cases h' with
    | done => exact ⟨rfl, rfl⟩
    | step => exact absurd rfl (ht _ _)
  | @step d args a ds x ha _ ih =>
    cases h' with
    | done ht => exact absurd rfl (ht d args)
    | step ha' h' =>
      obtain rfl := Option.some.inj (ha.symm.trans ha')
      obtain ⟨rfl, rfl⟩ := ih h'
      exact ⟨rfl, rfl⟩

theorem unfold_eq {d : DeclRef} {args : List Ty} {a : AliasDef} (ha : env.aliasDef d = some a) :
    env.unfold d args = a.target.substitute env.base a.decl.site args := by
  rw [unfold, ha]

/-- Expansion takes the steps one by one, as long as none of the aliases was met before. -/
theorem HeadSteps.expandFrom?_eq {t x : Ty} {ds : List DeclRef} (h : env.HeadSteps t ds x)
    {n : Nat} {seen : List Site} (hnodup : (ds.map (·.site)).Nodup)
    (hseen : ∀ d ∈ ds, d.site ∉ seen) :
    env.expandFrom? n seen t = if ds.length ≤ n then some x else none := by
  induction h generalizing n seen with
  | @done t ht =>
    rw [List.length_nil, if_pos (Nat.zero_le n)]
    cases t with
    | typeAlias d args => exact absurd rfl (ht d args)
    | _ => cases n <;> rfl
  | @step d args a ds x ha _ ih =>
    have hnew : seen.contains d.site = false := by
      simpa using hseen d List.mem_cons_self
    cases n with
    | zero =>
      rw [expandFrom?, hnew]
      rfl
    | succ n =>
      rw [List.map_cons, List.nodup_cons] at hnodup
      rw [expandFrom?_alias, hnew, unfold_eq ha, ih hnodup.2 ?_]
      · simp
      · intro e he hmem
        rcases List.mem_cons.mp hmem with hmem | hmem
        · exact hnodup.1 (hmem ▸ List.mem_map_of_mem he)
        · exact hseen e (List.mem_cons_of_mem d he) hmem

/-- What expansion finds is where the steps lead. -/
theorem HeadSteps.eq_of_expandFrom? {t x y : Ty} {ds : List DeclRef} (h : env.HeadSteps t ds x)
    {n : Nat} {seen : List Site} (hy : env.expandFrom? n seen t = some y) : y = x := by
  induction h generalizing n seen with
  | @done t ht =>
    cases t with
    | typeAlias d args => exact absurd rfl (ht d args)
    | _ => cases n <;> exact (Option.some.inj hy).symm
  | step ha _ ih =>
    cases n with
    | zero =>
      rw [expandFrom?] at hy
      split at hy <;> cases hy
    | succ n =>
      rw [expandFrom?_alias, unfold_eq ha] at hy
      split at hy
      · cases hy
      · exact ih hy

/-- With ranked aliases there is one type to which the steps at the head of a type lead, and if no
alias comes to the head twice on the way, expansion finds it unless there are more aliases in a row
than are replaced. -/
theorem expand_of_isRanked {α : Type} [Preorder α] [WellFoundedLT α] {rank : DeclRef → α}
    (hrank : env.IsRanked rank) {t : Ty}
    (ht : ∀ d ∈ t.aliases, (env.aliasDef d : Option AliasDef).isSome) :
    ∃ ds x, env.HeadSteps t ds x ∧ (∀ es y, env.HeadSteps t es y → es = ds ∧ y = x) ∧
      ((ds.map (·.site)).Nodup →
        env.expand t = if ds.length ≤ maxExpansions then x else .unknown) := by
  obtain ⟨ds, x, h⟩ := exists_headSteps hrank ht
  refine ⟨ds, x, h, fun es y h' => h.unique h', fun hnodup => ?_⟩
  rw [expand_eq, expand?, h.expandFrom?_eq hnodup fun _ _ => List.not_mem_nil]
  split <;> rfl

end TypeEnv

namespace TypeTable

/-- The aliases of a table are ranked if those in it are. -/
theorem isRanked_env {t : TypeTable} {α : Type} [LT α] (rank : Site → α)
    (h : ∀ e ∈ t.aliases, ∀ d ∈ e.2.target.aliases,
      (t.env.aliasDef d : Option AliasDef).isSome ∧ rank d.site < rank e.1) :
    t.env.IsRanked fun d => rank d.site := by
  intro d a ha
  exact h _ (mem_of_lookup ha)

/-- The alias for the union of two types, applied to integers and optional texts. -/
theorem expand_eitherOptional :
    withEither.env.expand (.typeAlias either [.class baseTypes.int [],
        .nullable baseTypes.stringType]) =
      .nullable (.union [.class baseTypes.int [], baseTypes.stringType]) := by
  let args : List Ty := [.class baseTypes.int [], .nullable baseTypes.stringType]
  let union : Ty := .nullable (.union [.class baseTypes.int [], baseTypes.stringType])
  have hrank : withEither.env.IsRanked fun d => d.site.node :=
    isRanked_env (fun s => s.node) (by decide)
  have hdefined : ∀ d ∈ (Ty.typeAlias either args).aliases,
      (withEither.env.aliasDef d : Option AliasDef).isSome := by decide
  obtain ⟨ds, x, -, hunique, hexpand⟩ := TypeEnv.expand_of_isRanked hrank hdefined
  -- one step leads to the union
  have hstep : withEither.env.HeadSteps (.typeAlias either args) [either] union := by
    obtain ⟨a, ha⟩ := Option.isSome_iff_exists.mp (hdefined either List.mem_cons_self)
    have htarget : withEither.env.unfold either args = union := by decide
    rw [TypeEnv.unfold_eq ha] at htarget
    refine .step ha ?_
    rw [htarget]
    exact .done nofun
  obtain ⟨rfl, rfl⟩ := hunique _ _ hstep
  exact hexpand (List.pairwise_singleton _ _)

/-- After 64 aliases expansion gives up, though the links are ranked and the last one of them stands
for a type that is known. -/
theorem not_forall_expand_of_isRanked :
    ¬∀ (env : TypeEnv Id) (rank : DeclRef → Nat), env.IsRanked rank → ∀ (d : DeclRef)
      (args : List Ty), (∀ d' ∈ (Ty.typeAlias d args).aliases,
        (env.aliasDef d' : Option AliasDef).isSome) →
      ∀ ds x, env.HeadSteps (.typeAlias d args) ds x → env.expand (.typeAlias d args) = x := by
  intro h
  let first : Ty := .typeAlias (link 0) []
  have hrank : withLinks.env.IsRanked fun d => 100 - d.site.node :=
    isRanked_env (fun s => 100 - s.node) (by decide)
  have hdefined : ∀ d ∈ (Ty.typeAlias either [first, first]).aliases,
      (withLinks.env.aliasDef d : Option AliasDef).isSome := by decide
  obtain ⟨ds, x, hsteps⟩ := TypeEnv.exists_headSteps hrank hdefined
  have hint : withLinks.env.expandFrom? 65 [] (.typeAlias either [first, first]) =
      some (.class baseTypes.int []) := by decide
  have hx : .class baseTypes.int [] = x := hsteps.eq_of_expandFrom? hint
  have hgivenUp : withLinks.env.expand? (.typeAlias either [first, first]) = none := by
    decide
  have hexpand := h withLinks.env _ hrank either [first, first] hdefined ds x hsteps
  rw [← hx, TypeEnv.expand_eq, hgivenUp] at hexpand
  exact nomatch hexpand

end TypeTable

end PklAnalysis
