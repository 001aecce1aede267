import PklAnalysis.Proofs.Lattice.CommonSubtypeRules
import PklAnalysis.Proofs.Lattice.NamedTypes

/-!
# Classes whose superclasses end in the unknown type

The way up from a class may end in a superclass that nothing is known about.  Such a class is not
above or below any base class, but its other ancestors may well be unknown ones, so it could have a
subtype in common with every type.  The relation does not take this into account: it compares the
class by its known ancestors only.  `TypeEnv.Excludes` says for which types it then denies a common
subtype.
-/

namespace PklAnalysis

namespace TypeEnv

variable (env : TypeEnv Id)

/-! ## The way up -/

/-- What the superclass of a class with arguments expands to. -/
def parent? (d : DeclRef) (args : List Ty) : Option Ty :=
  match (env.classDef d : Option ClassDef) with
  | none => none
  | some c => c.superclass.map fun s => env.expand (s.substitute env.base c.decl.site args)

/-- The way up from a class with arguments ends in a superclass that expands to the unknown type. -/
inductive EndsInUnknown : DeclRef → List Ty → Prop where
  | here {d : DeclRef} {args : List Ty} : env.parent? d args = some .unknown → EndsInUnknown d args
  | above {d d' : DeclRef} {args args' : List Ty} : env.parent? d args = some (.class d' args') →
      EndsInUnknown d' args' → EndsInUnknown d args

/-- What is above a class depends on its place only, and above the base classes there are only base
classes. -/
structure HasKnownBase : Prop where
  parent_congr : ∀ {d d'}, d.site = d'.site → ∀ args, env.parent? d args = env.parent? d' args
  parent_base : ∀ {d}, d ∈ env.base.decls → ∀ args, env.parent? d args = none ∨
    ∃ e ∈ env.base.decls, ∃ args', env.parent? d args = some (.class e args')

/-- One step on the way up. -/
theorem climb_succ_eq (target : Site) (n : Nat) (seen : List Site) (d : DeclRef) (args : List Ty) :
    env.climb target (n + 1) seen d args =
      if d.site = target then some args
      else if seen.contains d.site then none
      else match env.parent? d args with
        | some (.class d' args') => env.climb target n (d.site :: seen) d' args'
        | _ => none := by
  rw [climb, parent?]
  split
  · rfl
  split
  · rfl
  change (match env.classDef d with | none => none | some c => _ : Option (List Ty)) = _
  cases env.classDef d with
  | none => rfl
  | some c =>
    cases hs : c.superclass with
    | none => simp only [hs]; rfl
    | some s =>
      simp only [hs, Option.map_some]
      generalize env.expand (s.substitute env.base c.decl.site args) = above
      cases above <;> rfl

variable {env} {c : DeclRef} {as : List Ty}

section KnownBase

variable (hbase : env.HasKnownBase)
include hbase

/-- No base class is at the place of a class that ends in the unknown type. -/
theorem EndsInUnknown.site_ne (h : env.EndsInUnknown c as) {f : DeclRef}
    (hf : f ∈ env.base.decls) : c.site ≠ f.site := by
  induction h generalizing f with
  | here hunknown =>
    intro hsite
    rw [hbase.parent_congr hsite] at hunknown
    rcases hbase.parent_base hf _ with hnone | ⟨e, -, args', hclass⟩
    · rw [hnone] at hunknown
      cases hunknown
    · rw [hclass] at hunknown
      cases hunknown
  | above habove _ ih =>
    intro hsite
    rw [hbase.parent_congr hsite] at habove
    rcases hbase.parent_base hf _ with hnone | ⟨e, he, args', hclass⟩
    · rw [hnone] at habove
      cases habove
    · rw [hclass] at habove
      cases habove
      exact ih he rfl

/-- A class that ends in the unknown type has no base class as an ancestor. -/
theorem EndsInUnknown.asSupertype?_base (h : env.EndsInUnknown c as) {f : DeclRef}
    (hf : f ∈ env.base.decls) : env.asSupertype? (.class c as) f = none := by
  have hclimb : ∀ n seen, env.climb f.site n seen c as = none := by
    induction h with
    | here hunknown =>
      intro n seen
      have hne := (EndsInUnknown.here hunknown).site_ne hbase hf
      cases n with
      | zero => rw [climb, if_neg hne, ite_self]; rfl
      | succ n => rw [climb_succ_eq, if_neg hne, hunknown, ite_self]
    | above habove hrest ih =>
      intro n seen
      have hne := (EndsInUnknown.above habove hrest).site_ne hbase hf
      cases n with
      | zero => rw [climb, if_neg hne, ite_self]; rfl
      | succ n =>
        rw [climb_succ_eq, if_neg hne, habove]
        simp only [ih, ite_self]
  exact hclimb _ _

/-- A base class does not have a class that ends in the unknown type as an ancestor. -/
theorem EndsInUnknown.asSupertype?_of_base (h : env.EndsInUnknown c as) {f : DeclRef}
    (hf : f ∈ env.base.decls) (bs : List Ty) : env.asSupertype? (.class f bs) c = none := by
  have hclimb : ∀ n seen, ∀ f ∈ env.base.decls, ∀ bs, env.climb c.site n seen f bs = none := by
    intro n
    induction n with
    | zero =>
      intro seen f hf bs
      rw [climb, if_neg (h.site_ne hbase hf).symm, ite_self]
      rfl
    | succ n ih =>
      intro seen f hf bs
      rw [climb_succ_eq, if_neg (h.site_ne hbase hf).symm]
      rcases hbase.parent_base hf bs with hnone | ⟨e, he, args', hclass⟩
      · rw [hnone, ite_self]
      · rw [hclass]
        simp only [ih _ e he args', ite_self]
  exact hclimb _ _ f hf bs

end KnownBase

/-! ## What the relation denies -/

/-- The side of a comparison on which a class stands. -/
inductive Side where
  | left
  | right
  deriving DecidableEq

namespace Side

/-- A relation with its first argument on one side. -/
def of (side : Side) (R : Ty → Ty → Prop) (a b : Ty) : Prop :=
  match side with
  | left => R a b
  | right => R b a

end Side

/-- Subtyping down to a depth, with some pairs that are being proved. -/
def SubtypeAt (env : TypeEnv Id) (depth : Nat) (p : Pending) (a b : Ty) : Prop :=
  env.subtypeUnder (n := Id) true depth p a b = true

/-- Common subtypes down to a depth. -/
def CommonAt (env : TypeEnv Id) (depth : Nat) (a b : Ty) : Prop :=
  env.commonUnder depth [] a b = true

/-- Of two classes one has the other one as an ancestor with arguments that agree, compared down to
a depth. -/
def RelatedAt (env : TypeEnv Id) (depth : Nat) : Ty → Ty → Prop
  | .class c as, .class d bs =>
    env.ClassesMeet (env.SubtypeAt depth []) (env.CommonAt depth) c d as bs
  | _, _ => False

/-- A class on one side of a comparison is told apart from a type within so many steps: the type
without values, texts, functions and classes that are not related to the class are told apart from
it, and a type that stands for others is if they are. -/
inductive Excludes (env : TypeEnv Id) (c : DeclRef) (as : List Ty) : Side → Nat → Ty → Prop where
  | nothing (side : Side) (n : Nat) : Excludes env c as side n .nothing
  | literal (side : Side) (n : Nat) (text : String) : Excludes env c as side (n + 3) (.literal text)
  | function (side : Side) (n : Nat) (ps : List Ty) (r : Ty) :
      Excludes env c as side (n + 2) (.function ps r)
  | «class» {side : Side} {n : Nat} {d : DeclRef} {bs : List Ty} :
      Ty.class c as ≠ .class d bs → ¬side.of (env.RelatedAt n) (.class c as) (.class d bs) →
      Excludes env c as side (n + 1) (.class d bs)
  | typeAlias {side : Side} {n : Nat} {d : DeclRef} {bs : List Ty} :
      Excludes env c as side n (env.expand (.typeAlias d bs)) →
      Excludes env c as side (n + 1) (.typeAlias d bs)
  | union {side : Side} {n : Nat} {ms : List Ty} : (∀ m ∈ ms, Excludes env c as side n m) →
      Excludes env c as side (n + 1) (.union ms)
  /-- What stands before a question mark is compared on the left. -/
  | nullable {side : Side} {n : Nat} {t : Ty} : Excludes env c as .right (n + 1) t →
      Excludes env c as side (n + 2) (.nullable t)

/-- One step of the comparison of two types. -/
theorem commonAt_succ_iff {n : Nat} {a b : Ty} : env.CommonAt (n + 1) a b ↔
    match commonShortcut a b with
    | .holds => True
    | .fails => False
    | .open => env.ShapesMeet (env.SubtypeAt n []) (env.CommonAt n) a b := by
  rw [CommonAt, commonUnder]
  cases commonShortcut a b with
  | holds => exact iff_of_true rfl trivial
  | fails => exact iff_of_false Bool.false_ne_true id
  | «open» => exact env.commonStep_iff _ _ a b

section Steps

variable {side : Side} {n : Nat}

/-- A class is compared with a type by the shape of the type. -/
theorem commonAt_class_iff (t : Ty) : side.of (env.CommonAt (n + 1)) (.class c as) t ↔
    match t with
    | .unknown | .param _ => True
    | .nothing => False
    | .literal text => env.SubtypeAt n [] (.literal text) (.class c as)
    | .function ps r => side.of (env.CommonAt n) (.class c as) (env.base.functionView ps r)
    | .class d bs =>
      Ty.class c as = .class d bs ∨ side.of (env.RelatedAt n) (.class c as) (.class d bs)
    | .typeAlias d bs => side.of (env.CommonAt n) (.class c as) (env.expand (.typeAlias d bs))
    | .union ms => ∃ m ∈ ms, side.of (env.CommonAt n) (.class c as) m
    | .nullable u =>
      Side.right.of (env.CommonAt n) (.class c as) u ∨
        env.SubtypeAt n [] env.base.nullType (.class c as) := by
  cases t with
  | «class» d bs =>
    by_cases heq : Ty.class c as = .class d bs
    · cases side <;> exact commonAt_succ_iff.trans (by simp [commonShortcut, heq])
    · cases side <;> exact commonAt_succ_iff.trans (by
        simp [commonShortcut, heq, Ne.symm heq, ShapesMeet, Side.of, RelatedAt])
  | _ =>
    cases side <;> exact commonAt_succ_iff.trans (by simp [commonShortcut, ShapesMeet, Side.of])

/-- At the largest depth only the type without values is denied. -/
theorem commonAt_zero_iff (t : Ty) :
    side.of (env.CommonAt 0) (.class c as) t ↔ t ≠ .nothing := by
  have hzero (a b : Ty) : env.CommonAt 0 a b ↔ commonShortcut a b ≠ .fails := by
    rw [CommonAt, commonUnder]
    cases commonShortcut a b <;> simp [pure]
  have hshort (u : Ty) : (commonShortcut (.class c as) u = .fails ↔ u = .nothing) ∧
      (commonShortcut u (.class c as) = .fails ↔ u = .nothing) := by
    cases u with
    | «class» d bs => constructor <;> simp only [commonShortcut] <;> split <;> simp
    | _ => simp [commonShortcut]
  cases side with
  | left => exact (hzero _ t).trans (not_congr (hshort t).1)
  | right => exact (hzero t _).trans (not_congr (hshort t).2)

end Steps

/-- One step of subtyping. -/
theorem subtypeAt_succ_iff {n : Nat} {p : Pending} {a b : Ty} : env.SubtypeAt (n + 1) p a b ↔
    match subtypeShortcut a b with
    | .holds => True
    | .fails => False
    | .open => (a, b) ∈ p ∨ env.ShapesFollow (env.SubtypeAt n ((a, b) :: p)) a b := by
  rw [SubtypeAt, subtypeUnder]
  cases subtypeShortcut a b with
  | holds => exact iff_of_true rfl trivial
  | fails => exact iff_of_false Bool.false_ne_true id
  | «open» =>
    by_cases hp : (a, b) ∈ p
    · simp only [List.contains_eq_mem, hp, decide_true, if_true, true_or]
      exact iff_of_true rfl trivial
    · simp only [List.contains_eq_mem, hp, decide_false, false_or]
      exact env.subtypeStep_iff _ a b

section Excludes

variable (hbase : env.HasKnownBase) (h : env.EndsInUnknown c as)
include hbase h

theorem EndsInUnknown.ne_base {f : DeclRef} (hf : f ∈ env.base.decls) (bs : List Ty) :
    Ty.class c as ≠ .class f bs := by
  rintro ⟨⟩
  exact h.site_ne hbase hf rfl

/-- Except at the largest depth a base class is no subtype of a class that ends in the unknown
type. -/
theorem EndsInUnknown.subtypeAt_base_iff {f : DeclRef} (hf : f ∈ env.base.decls) (bs : List Ty)
    {p : Pending} (hp : (Ty.class f bs, Ty.class c as) ∉ p) (n : Nat) :
    env.SubtypeAt n p (.class f bs) (.class c as) ↔ n = 0 := by
  have hshort : subtypeShortcut (.class f bs) (.class c as) = .open := by
    simp [subtypeShortcut, (h.ne_base hbase hf bs).symm]
  cases n with
  | zero =>
    rw [SubtypeAt, subtypeUnder, hshort]
    exact iff_of_true rfl rfl
  | succ n =>
    rw [subtypeAt_succ_iff, hshort]
    simp [hp, ShapesFollow, h.asSupertype?_of_base hbase hf bs]

/-- Except at the largest depths a text is no subtype of a class that ends in the unknown type. -/
theorem EndsInUnknown.subtypeAt_literal_iff (text : String) (n : Nat) :
    env.SubtypeAt n [] (.literal text) (.class c as) ↔ n < 2 := by
  have hshort : subtypeShortcut (.literal text) (.class c as) = .open := by simp [subtypeShortcut]
  cases n with
  | zero =>
    rw [SubtypeAt, subtypeUnder, hshort]
    exact iff_of_true rfl Nat.zero_lt_two
  | succ n =>
    have hstring : env.base.string ∈ env.base.decls := by simp
    have hstep := h.subtypeAt_base_iff hbase hstring []
      (p := [(.literal text, .class c as)]) (by simp) n
    rw [subtypeAt_succ_iff, hshort]
    simp only [List.not_mem_nil, false_or, ShapesFollow]
    exact hstep.trans (by omega)

/-- A class that ends in the unknown type is not related to any base class. -/
theorem EndsInUnknown.not_relatedAt_base (side : Side) (n : Nat) {f : DeclRef}
    (hf : f ∈ env.base.decls) (bs : List Ty) :
    ¬side.of (env.RelatedAt n) (.class c as) (.class f bs) := by
  have hup := h.asSupertype?_base hbase hf
  have hdown := h.asSupertype?_of_base hbase hf bs
  cases side <;> simp [Side.of, RelatedAt, ClassesMeet, hup, hdown]

/-- Except at the largest depth a function has nothing in common with a class that ends in the
unknown type. -/
theorem EndsInUnknown.commonAt_functionView_iff (side : Side) (n : Nat) (ps : List Ty) (r : Ty) :
    side.of (env.CommonAt n) (.class c as) (env.base.functionView ps r) ↔ n = 0 := by
  obtain ⟨f, hf, bs, hview⟩ : ∃ f ∈ env.base.decls, ∃ bs,
      env.base.functionView ps r = .class f bs := by
    rw [BaseTypes.functionView]
    split
    · next f hf => exact ⟨f, List.mem_append_right _ (List.mem_of_getElem? hf), _, rfl⟩
    · exact ⟨_, by simp, _, rfl⟩
  rw [hview]
  cases n with
  | zero => exact iff_of_true ((commonAt_zero_iff _).mpr (by simp)) rfl
  | succ n =>
    rw [commonAt_class_iff]
    simp [h.ne_base hbase hf, h.not_relatedAt_base hbase side n hf]

/-- A class that ends in the unknown type and another type are denied a common subtype exactly if
the class is told apart from the type by its known ancestors. -/
theorem EndsInUnknown.not_commonAt_iff (side : Side) (n : Nat) (t : Ty) :
    ¬side.of (env.CommonAt n) (.class c as) t ↔ env.Excludes c as side n t := by
  induction n generalizing side t with
  | zero =>
    rw [commonAt_zero_iff, Classical.not_not]
    refine ⟨?_, fun hexcl => ?_⟩
    · rintro rfl
      exact .nothing _ _
    · cases hexcl
      rfl
  | succ n ih =>
    rw [commonAt_class_iff]
    cases t with
    | nothing => exact iff_of_true not_false (.nothing _ _)
    | unknown | param => exact iff_of_false (Classical.not_not.mpr trivial) nofun
    | literal text =>
      simp only [h.subtypeAt_literal_iff hbase]
      constructor
      · intro hn
        obtain ⟨k, rfl⟩ : ∃ k, n = k + 2 := ⟨n - 2, by omega⟩
        exact .literal _ _ _
      · intro hexcl
        cases hexcl
        omega
    | function ps r =>
      simp only [h.commonAt_functionView_iff hbase]
      constructor
      · intro hn
        obtain ⟨k, rfl⟩ := Nat.exists_eq_succ_of_ne_zero hn
        exact .function _ _ _ _
      · intro hexcl
        cases hexcl
        omega
    | «class» d bs =>
      simp only [not_or]
      constructor
      · exact fun hne => .class hne.1 hne.2
      · intro hexcl
        cases hexcl with
        | «class» hne hrel => exact ⟨hne, hrel⟩
    | typeAlias d bs =>
      refine (ih side _).trans ⟨.typeAlias, fun hexcl => ?_⟩
      cases hexcl with
      | typeAlias hexcl => exact hexcl
    | union ms =>
      simp only [not_exists, not_and]
      refine (forall₂_congr fun m _ => ih side m).trans ⟨.union, fun hexcl => ?_⟩
      cases hexcl with
      | union hall => exact hall
    | nullable u =>
      have hnull : env.base.null ∈ env.base.decls := by simp
      have hsub := h.subtypeAt_base_iff hbase hnull [] List.not_mem_nil n
      simp only [not_or, ih]
      change _ ∧ ¬env.SubtypeAt n [] (.class env.base.null []) _ ↔ _
      rw [hsub]
      constructor
      · rintro ⟨hexcl, hn⟩
        obtain ⟨k, rfl⟩ := Nat.exists_eq_succ_of_ne_zero hn
        exact .nullable hexcl
      · intro hexcl
        cases hexcl with
        | nullable hexcl => exact ⟨hexcl, Nat.succ_ne_zero _⟩

end Excludes

end TypeEnv

end PklAnalysis
