import PklAnalysis.Proofs.Lattice.EndlessTypes
import PklAnalysis.Proofs.Lattice.TransparentAliases
import PklAnalysis.Proofs.Lattice.UnionLaws

/-!
# Unions are least upper bounds

A type is below another one exactly if its leaves are, unless the second type stands for `nothing`
(`TypeEnv.subtype_iff_leaves`).  In one direction a type is taken apart, in the other one it is put
together; the first needs that what is below a part of a type is below the type, which is proved by
coinduction, as an alias among the parts may lead back to the type.  Since the leaves of a union are
those of its alternatives, the union is above these, and below every type that is above them.
-/

namespace PklAnalysis

namespace Ty

/-- Whether a type is a union or has a question mark. -/
def isComposite : Ty → Bool
  | .nullable _ | .union _ => true
  | _ => false

/-- What must be below a type if a union or a type with a question mark is. -/
def parts (base : BaseTypes) : Ty → List Ty
  | .nullable t => [t, base.nullType]
  | .union ms => ms
  | _ => []

end Ty

namespace TypeEnv

variable (env : TypeEnv Id)

/-- A type is below some part of another one, at whatever depth, or it is `null` and finds a
question mark there.  What is merely below `null` need not be below a type with a question mark. -/
inductive BelowPart (a : Ty) : Ty → Prop
  | whole {b : Ty} (h : env.Subtype a b) : BelowPart a b
  | component {b c : Ty} (hc : env.ComponentOf c b) (h : BelowPart a c) : BelowPart a b
  | null {b t : Ty} (hb : env.expand b = .nullable t) (ha : a = env.base.nullType) : BelowPart a b

variable {env}

/-! ## Expansion -/

theorem expand_expand (t : Ty) : env.expand (env.expand t) = env.expand t :=
  expand_of_ne_typeAlias (expand_ne_typeAlias t)

/-- The same types are below an alias as below what it stands for, unless that is `nothing`. -/
theorem subtype_expand_right_iff {a b : Ty} (hb : env.expand b ≠ .nothing) :
    env.Subtype a b ↔ env.Subtype a (env.expand b) := by
  cases b with
  | typeAlias d bs =>
    cases a with
    | typeAlias e as =>
      rw [subtype_typeAlias_left_iff, subtype_typeAlias_left_iff, and_iff_right nofun,
        and_iff_right hb]
      exact subtype_typeAlias_right_iff (expand_ne_typeAlias _)
    | _ => exact subtype_typeAlias_right_iff nofun
  | _ => exact Iff.rfl

/-- What is below the expansion of a type is below the type. -/
theorem Subtype.of_expand_right {a b : Ty} (h : env.Subtype a (env.expand b)) :
    env.Subtype a b := by
  by_cases hb : env.expand b = .nothing
  · rw [hb] at h
    exact subtype_of_isExtreme (subtype_nothing_iff.mp h)
  · exact (subtype_expand_right_iff hb).mpr h

theorem Subtype.expand_right {a b : Ty} (ha : ∀ d as, a ≠ .typeAlias d as)
    (h : env.Subtype a b) : env.Subtype a (env.expand b) := by
  cases b with
  | typeAlias d bs => exact (subtype_typeAlias_right_iff ha).mp h
  | _ => exact h

/-! ## Taking apart -/

theorem ne_typeAlias_of_isComposite {x : Ty} (hx : x.isComposite = true) (d : DeclRef)
    (args : List Ty) : x ≠ .typeAlias d args := by
  rintro rfl
  exact Bool.false_ne_true hx

theorem not_isExtreme_of_isComposite {x : Ty} (hx : x.isComposite = true) : ¬x.IsExtreme := by
  rintro (h | rfl)
  · cases x <;> first | exact Bool.false_ne_true h | exact Bool.false_ne_true hx
  · exact Bool.false_ne_true hx

/-- The rule for a union or a question mark on the left asks for the parts. -/
theorem shapesFollow_parts {X : Ty → Ty → Prop} {x y : Ty} (hx : x.isComposite = true)
    (hy : ∀ d bs, y ≠ .typeAlias d bs) :
    env.ShapesFollow X x y ↔ ∀ c ∈ x.parts env.base, X c y := by
  cases x with
  | nullable t =>
    rw [Ty.parts, List.forall_mem_cons, List.forall_mem_singleton]
    cases y with
    | typeAlias d bs => exact absurd rfl (hy d bs)
    | _ => exact Iff.rfl
  | union ms =>
    cases y with
    | typeAlias d bs => exact absurd rfl (hy d bs)
    | _ => exact Iff.rfl
  | _ => exact (Bool.false_ne_true hx).elim

/-- A union or a type with a question mark is below itself, and otherwise only below types that its
parts are below. -/
theorem Subtype.composite {x y : Ty} (hx : x.isComposite = true)
    (hy : ∀ d bs, y ≠ .typeAlias d bs) (h : env.Subtype x y) :
    x = y ∨ ∀ c ∈ x.parts env.base, env.Subtype c y := by
  have hfollows := h.follows
  rw [Follows] at hfollows
  cases hshort : subtypeShortcut x y with
  | holds =>
    rcases subtypeShortcut_holds_iff.mp hshort with rfl | hfree | hfree | rfl
    · exact .inl rfl
    · exact absurd (.inl hfree) (not_isExtreme_of_isComposite hx)
    · exact .inr fun c _ => subtype_of_holds
        (subtypeShortcut_holds_iff.mpr (.inr (.inr (.inl hfree))))
    · exact (Bool.false_ne_true hx).elim
  | fails => simp [hshort] at hfollows
  | «open» =>
    simp only [hshort] at hfollows
    exact .inr ((shapesFollow_parts hx hy).mp hfollows)

theorem BelowPart.of_mem_parts {x c : Ty} (hc : c ∈ x.parts env.base) {b : Ty}
    (hb : env.expand b = x) : env.BelowPart c b := by
  cases x with
  | nullable t =>
    rcases List.mem_cons.mp hc with rfl | hc
    · have hcomponent : env.ComponentOf c b := by
        rw [ComponentOf, hb]
        exact List.mem_singleton_self c
      exact .component hcomponent (.whole (.refl c))
    · exact .null hb (List.mem_singleton.mp hc)
  | union ms =>
    have hcomponent : env.ComponentOf c b := by
      rw [ComponentOf, hb]
      exact hc
    exact .component hcomponent (.whole (.refl c))
  | _ => exact (List.not_mem_nil hc).elim

/-- The parts of a type that is below another one are below a part of this. -/
theorem BelowPart.parts {x b c : Ty} (h : env.BelowPart x b) (hx : x.isComposite = true)
    (hc : c ∈ x.parts env.base) : env.BelowPart c b := by
  induction h with
  | @whole b h =>
    have h' := h.expand_right (ne_typeAlias_of_isComposite hx)
    rcases h'.composite hx (expand_ne_typeAlias b) with heq | hparts
    · exact .of_mem_parts hc heq.symm
    · exact .whole (hparts c hc).of_expand_right
  | component hcomponent _ ih => exact .component hcomponent ih
  | null _ ha =>
    rw [ha] at hx
    exact (Bool.false_ne_true hx).elim

/-- What an alias expands to is below the same parts as the alias. -/
theorem BelowPart.expand_left {d : DeclRef} {args : List Ty} {b : Ty}
    (h : env.BelowPart (.typeAlias d args) b) :
    env.BelowPart (env.expand (.typeAlias d args)) b := by
  induction h with
  | whole h => exact .whole (subtype_typeAlias_left_iff.mp h).2
  | component hc _ ih => exact .component hc ih
  | null _ ha => exact nomatch ha

theorem BelowPart.expand_right {a b : Ty} (ha : ∀ d as, a ≠ .typeAlias d as)
    (h : env.BelowPart a b) : env.BelowPart a (env.expand b) := by
  cases h with
  | whole h => exact .whole (h.expand_right ha)
  | component hc h => exact .component (by rwa [ComponentOf, expand_expand]) h
  | null hb ha => exact .null (by rwa [expand_expand]) ha

/-- The rules for a union and a question mark on the right ask for one of the parts. -/
theorem shapesFollow_of_component {X : Ty → Ty → Prop} {a b c : Ty} (ha : a.isComposite = false)
    (haAlias : ∀ d as, a ≠ .typeAlias d as) (hc : c ∈ b.components) (h : X a c) :
    env.ShapesFollow X a b := by
  cases b with
  | nullable t =>
    obtain rfl := List.mem_singleton.mp hc
    cases a with
    | typeAlias d as => exact absurd rfl (haAlias d as)
    | nullable | union => exact nomatch ha
    | _ => exact .inr h
  | union ms =>
    cases a with
    | typeAlias d as => exact absurd rfl (haAlias d as)
    | nullable | union => exact nomatch ha
    | _ => exact ⟨c, hc, h⟩
  | _ => exact (List.not_mem_nil hc).elim

/-- The rule for the shapes of a type and another one that it is below a part of. -/
theorem BelowPart.shapesFollow {a b : Ty} (h : env.BelowPart a b) (hwhole : ¬env.Subtype a b) :
    env.ShapesFollow env.BelowPart a b := by
  by_cases haAlias : ∃ d as, a = .typeAlias d as
  · obtain ⟨d, as, rfl⟩ := haAlias
    exact h.expand_left
  have ha (d : DeclRef) (as : List Ty) : a ≠ .typeAlias d as := fun he => haAlias ⟨d, as, he⟩
  by_cases hbAlias : ∃ d bs, b = .typeAlias d bs
  · obtain ⟨d, bs, rfl⟩ := hbAlias
    cases a with
    | typeAlias d as => exact absurd rfl (ha d as)
    | _ => exact h.expand_right ha
  have hb (d : DeclRef) (bs : List Ty) : b ≠ .typeAlias d bs := fun he => hbAlias ⟨d, bs, he⟩
  cases hcomposite : a.isComposite with
  | true => exact (shapesFollow_parts hcomposite hb).mpr fun c hc => h.parts hcomposite hc
  | false =>
    -- only now the second type is taken apart, which stands for itself
    cases h with
    | whole h => exact absurd h hwhole
    | component hc h =>
      rw [ComponentOf, expand_of_ne_typeAlias hb] at hc
      exact shapesFollow_of_component hcomposite ha hc h
    | null hnull ha =>
      rw [expand_of_ne_typeAlias hb] at hnull
      rw [hnull, ha]
      exact .inl (decide_eq_true rfl)

/-- What is below a part of a type follows from what is below its parts. -/
theorem BelowPart.follows {a b : Ty} (h : env.BelowPart a b) : env.Follows env.BelowPart a b := by
  by_cases hwhole : env.Subtype a b
  · exact hwhole.follows.mono fun _ _ => .whole
  -- what has parts is not `nothing`, so no shortcut refuses the pair
  have hb : b ≠ .nothing := by
    rintro rfl
    cases h with
    | whole h => exact hwhole h
    | component hc _ => exact List.not_mem_nil hc
    | null hb _ => exact nomatch hb
  rw [Follows]
  cases hshort : subtypeShortcut a b with
  | holds => trivial
  | fails => exact hb (eq_nothing_of_subtypeShortcut hshort)
  | «open» => exact h.shapesFollow hwhole

/-- What is below a part of a type is below the type. -/
theorem BelowPart.subtype {a b : Ty} (h : env.BelowPart a b) : env.Subtype a b :=
  ⟨env.BelowPart, fun _ _ => BelowPart.follows, h⟩

/-- The parts of a type are below what the type is below. -/
theorem Subtype.of_mem_parts {x c b : Ty} (h : env.Subtype x b) (hx : x.isComposite = true)
    (hc : c ∈ x.parts env.base) : env.Subtype c b :=
  ((BelowPart.whole h).parts hx hc).subtype

/-! ## Leaves -/

/-- The leaves of a type are below what the type is below. -/
theorem Subtype.of_mem_leaves {x b l : Ty} (h : env.Subtype x b) (hl : l ∈ x.leaves env.base) :
    env.Subtype l b := by
  induction x using Ty.byParts with
  | nothing => exact (List.not_mem_nil hl).elim
  | nullable t ih =>
    rcases List.mem_cons.mp hl with rfl | hl
    · exact h.of_mem_parts rfl (List.mem_cons_of_mem _ (List.mem_singleton_self _))
    · exact ih (h.of_mem_parts rfl List.mem_cons_self) hl
  | union ms ih =>
    obtain ⟨m, hm, hl⟩ := Ty.mem_leavesOfAll.mp hl
    exact ih m hm (h.of_mem_parts rfl hm) hl
  | unknown | class_ | typeAlias | function | literal | param =>
    rw [Ty.leaves_of_isLeaf rfl, List.mem_singleton] at hl
    exact hl ▸ h

/-- The leaves of a type are below it. -/
theorem subtype_of_mem_leaves {l t : Ty} (hl : l ∈ t.leaves env.base) : env.Subtype l t :=
  (Subtype.refl t).of_mem_leaves hl

/-- A union or a type with a question mark is below a type that its parts are below, unless that
stands for `nothing`. -/
theorem subtype_of_parts {x b : Ty} (hx : x.isComposite = true) (hb : env.expand b ≠ .nothing)
    (h : ∀ c ∈ x.parts env.base, env.Subtype c b) : env.Subtype x b := by
  refine .of_expand_right (subtype_iff.mpr ?_)
  rw [Follows]
  cases hshort : subtypeShortcut x (env.expand b) with
  | holds => trivial
  | fails => exact hb (eq_nothing_of_subtypeShortcut hshort)
  | «open» =>
    refine (shapesFollow_parts hx (expand_ne_typeAlias b)).mpr fun c hc => ?_
    exact (subtype_expand_right_iff hb).mp (h c hc)

/-- A type is below another one exactly if its leaves are, unless that stands for `nothing`. -/
theorem subtype_iff_leaves {x b : Ty} (hb : env.expand b ≠ .nothing) :
    env.Subtype x b ↔ ∀ l ∈ x.leaves env.base, env.Subtype l b := by
  constructor
  · exact fun h l hl => h.of_mem_leaves hl
  intro h
  induction x using Ty.byParts with
  | nothing => exact subtype_of_isExtreme (.inr rfl)
  | nullable t ih =>
    refine subtype_of_parts rfl hb fun c hc => ?_
    rcases List.mem_cons.mp hc with rfl | hc
    · exact ih fun l hl => h l (List.mem_cons_of_mem _ hl)
    · exact h c (List.mem_singleton.mp hc ▸ List.mem_cons_self)
  | union ms ih =>
    exact subtype_of_parts rfl hb fun m hm =>
      ih m hm fun l hl => h l (Ty.mem_leavesOfAll.mpr ⟨m, hm, hl⟩)
  | unknown | class_ | typeAlias | function | literal | param =>
    refine h _ ?_
    rw [Ty.leaves_of_isLeaf rfl]
    exact List.mem_singleton_self _

/-! ## Unions -/

/-- With two leaves a type is no alias and has values. -/
theorem expand_ne_nothing {t k l : Ty} (hk : k ∈ t.leaves env.base) (hl : l ∈ t.leaves env.base)
    (hne : k ≠ l) : env.expand t ≠ .nothing := by
  cases t with
  | nothing => exact (List.not_mem_nil hk).elim
  | typeAlias d args =>
    exact absurd ((List.mem_singleton.mp hk).trans (List.mem_singleton.mp hl).symm) hne
  | _ => exact nofun

section Union

variable {xs : List Ty} (hxs : ∀ x ∈ xs, Ty.UnionForm env.base x)
include hxs

/-- The leaves of some types in normal form are leaves of their union. -/
theorem mem_leaves_unionOf_of_mem (hknown : .unknown ∉ Ty.leavesOfAll env.base xs) {x l : Ty}
    (hx : x ∈ xs) (hl : l ∈ x.leaves env.base) : l ∈ (Ty.unionOf env.base xs).leaves env.base := by
  have hmem : l ∈ Ty.leavesOfAll env.base xs := Ty.mem_leavesOfAll.mpr ⟨x, hx, hl⟩
  refine (Ty.mem_leaves_unionOf hknown).mpr ?_
  cases hnull : env.base.isNull l with
  | false => exact .inl ⟨hmem, rfl⟩
  | true => exact .inr ⟨(hxs x hx).eq_nullType hl hnull, l, hmem, hnull⟩

/-- Each of some types in normal form is below their union. -/
theorem subtype_unionOf {x : Ty} (hx : x ∈ xs) : env.Subtype x (Ty.unionOf env.base xs) := by
  by_cases hunknown : .unknown ∈ Ty.leavesOfAll env.base xs
  · rw [Ty.unionOf_eq, Ty.ofLeaves_unknown hunknown]
    exact subtype_of_holds (subtypeShortcut_holds_iff.mpr (.inr (.inr (.inl rfl))))
  have hleaves {l : Ty} := mem_leaves_unionOf_of_mem hxs hunknown hx (l := l)
  rcases (hxs x hx).leaves_cases with rfl | hself | ⟨k, hk, l, hl, hne⟩
  · exact subtype_of_isExtreme (.inr rfl)
  · exact subtype_of_mem_leaves (hleaves hself)
  · -- with two leaves the union stands for a type with values
    refine (subtype_iff_leaves (expand_ne_nothing (hleaves hk) (hleaves hl) hne)).mpr ?_
    exact fun l hl => subtype_of_mem_leaves (hleaves hl)

/-- The union of some types in normal form is below what they are below, unless that is an alias
without values. -/
theorem unionOf_subtype (hparam : ∀ x ∈ xs, ∀ p, x ≠ .param p) {t : Ty}
    (ht : env.expand t = .nothing → t = .nothing) (h : ∀ x ∈ xs, env.Subtype x t) :
    env.Subtype (Ty.unionOf env.base xs) t := by
  by_cases hunknown : .unknown ∈ Ty.leavesOfAll env.base xs
  · rw [Ty.unionOf_eq, Ty.ofLeaves_unknown hunknown]
    exact subtype_of_isExtreme (.inl rfl)
  by_cases hnothing : env.expand t = .nothing
  · -- only `nothing` is below `nothing`, and the union of nothing is nothing
    obtain rfl := ht hnothing
    have hleaves : Ty.leavesOfAll env.base xs = [] := by
      refine List.eq_nil_iff_forall_not_mem.mpr fun l hl => ?_
      obtain ⟨x, hx, hlx⟩ := Ty.mem_leavesOfAll.mp hl
      rcases subtype_nothing_iff.mp (h x hx) with hfree | rfl
      · cases x with
        | unknown => exact hunknown (List.mem_singleton.mp hlx ▸ hl)
        | param p => exact hparam _ hx p rfl
        | _ => exact Bool.false_ne_true hfree
      · exact List.not_mem_nil hlx
    rw [Ty.unionOf_eq, hleaves]
    exact .refl .nothing
  refine (subtype_iff_leaves hnothing).mpr fun l hl => ?_
  rcases (Ty.mem_leaves_unionOf hunknown).mp hl with ⟨hl, -⟩ | ⟨rfl, k, hk, hnull⟩
  · obtain ⟨x, hx, hl⟩ := Ty.mem_leavesOfAll.mp hl
    exact (h x hx).of_mem_leaves hl
  · obtain ⟨x, hx, hk⟩ := Ty.mem_leavesOfAll.mp hk
    exact (hxs x hx).eq_nullType hk hnull ▸ (h x hx).of_mem_leaves hk

end Union

/-- The union of some types in normal form is above each of them, and below every type that is above
all of them.  Type parameters are below `nothing` and aliases without values are below each other,
but no union of two of them is. -/
theorem isSubtype_unionOf_least {xs : List Ty}
    (hxs : ∀ x ∈ xs, Ty.UnionForm env.base x ∧ ∀ p, x ≠ .param p) :
    (∀ x ∈ xs, env.isSubtype x (Ty.unionOf env.base xs) = true) ∧
      ∀ t, (env.expand t = .nothing → t = .nothing) →
        (∀ x ∈ xs, env.isSubtype x t = true ∧ env.Settled x t) →
        env.isSubtype (Ty.unionOf env.base xs) t = true := by
  have hform : ∀ x ∈ xs, Ty.UnionForm env.base x := fun x hx => (hxs x hx).1
  constructor
  · intro x hx
    exact isSubtype_of_subtype (subtype_unionOf hform hx)
  · intro t ht h
    refine isSubtype_of_subtype (unionOf_subtype hform (fun x hx => (hxs x hx).2) ht ?_)
    exact fun x hx => subtype_of_isSubtype (h x hx).1 (h x hx).2

end TypeEnv

/-- A scalar or an optional integer is an optional scalar. -/
theorem TypeTable.isSubtype_scalarOrInt :
    let env := withScalar.2.env
    let scalar : Ty := .typeAlias withScalar.1 []
    let int? : Ty := .nullable (.class env.base.int [])
    Ty.unionOf env.base [int?, scalar] = .nullable (.union [.class env.base.int [], scalar]) ∧
      (∀ x ∈ [int?, scalar], env.isSubtype x (Ty.unionOf env.base [int?, scalar]) = true) ∧
      env.isSubtype (Ty.unionOf env.base [int?, scalar]) (.nullable scalar) = true := by
  intro env scalar int?
  have hxs : ∀ x ∈ [int?, scalar], Ty.UnionForm env.base x ∧ ∀ p, x ≠ .param p := by
    intro x hx
    rcases List.mem_cons.mp hx with rfl | hx
    · exact ⟨by decide, nofun⟩
    · obtain rfl := List.mem_singleton.mp hx
      exact ⟨by decide, nofun⟩
  have hleast := TypeEnv.isSubtype_unionOf_least hxs
  refine ⟨by decide, hleast.1, hleast.2 (.nullable scalar) nofun ?_⟩
  decide

end PklAnalysis
