import PklAnalysis.Proofs.Lattice.SubtypingDecides

/-!
# The rules of common subtypes

`TypeEnv.ShapesMeet` says when two types have a common subtype by the rule for their shapes, given
which pairs are subtypes and which have common subtypes.  Since subtyping gives back the pairs that
are being proved, common subtypes are decided under given pairs, by `TypeEnv.commonUnder`.  A pair
that supports itself by these rules, `TypeEnv.Meets`, is never denied.
-/

namespace PklAnalysis.TypeEnv

variable (env : TypeEnv Id)

/-- Two lists of arguments of a class can be refined to the same arguments. -/
def ArgsMeet (S C : Ty → Ty → Prop) (c : Option ClassDef) (ours theirs : List Ty) : Prop :=
  ∀ i < max ours.length theirs.length,
    match varianceIn c i with
    | .covariant => C (argAt ours i) (argAt theirs i)
    | .contravariant => True
    | .invariant => S (argAt ours i) (argAt theirs i) ∧ S (argAt theirs i) (argAt ours i)

/-- The first of two classes is below the other, or else the other is below it, and arguments for
the upper one can be refined to the same arguments. -/
def ClassesMeet (S C : Ty → Ty → Prop) (c d : DeclRef) (as bs : List Ty) : Prop :=
  (∃ view, env.asSupertype? (.class c as) d = some view ∧
    ArgsMeet S C (env.classDef d) view bs) ∨
  (env.asSupertype? (.class c as) d = none ∧
    ∃ view, env.asSupertype? (.class d bs) c = some view ∧
      ArgsMeet S C (env.classDef c) as view)

/-- Two types that no shortcut settles have a common subtype by the rule for their shapes. -/
def ShapesMeet (S C : Ty → Ty → Prop) (a b : Ty) : Prop :=
  match a, b with
  | .typeAlias .., _ => C (env.expand a) b
  | _, .typeAlias .. => C a (env.expand b)
  | .union ms, _ => ∃ t ∈ ms, C t b
  | _, .union ms => ∃ t ∈ ms, C a t
  | .nullable _, .nullable _ => True
  | .nullable t, _ => C t b ∨ S env.base.nullType b
  | _, .nullable t => C t a ∨ S env.base.nullType a
  | .literal _, _ => S a b
  | _, .literal _ => S b a
  | .function ps r, .function qs s => ps.length = qs.length ∧ C r s
  | .function ps r, .class .. => C (env.base.functionView ps r) b
  | .class .., .function ps r => C a (env.base.functionView ps r)
  | .class c as, .class d bs => env.ClassesMeet S C c d as bs
  | _, _ => False

/-- A pair of types has a common subtype by a rule, given the pairs of `X` that have one. -/
def MeetsBy (X : Ty → Ty → Prop) (a b : Ty) : Prop :=
  match commonShortcut a b with
  | .holds => True
  | .fails => False
  | .open => env.ShapesMeet env.Subtype X a b

/-- The rules read coinductively: a pair is in some relation all of whose pairs follow from it. -/
def Meets (a b : Ty) : Prop :=
  ∃ R : Ty → Ty → Prop, (∀ x y, R x y → env.MeetsBy R x y) ∧ R a b

/-! ## More premises -/

section Mono

variable {S S' C C' : Ty → Ty → Prop} (hS : ∀ a b, S a b → S' a b) (hC : ∀ a b, C a b → C' a b)
include hS hC

theorem ArgsMeet.mono {c : Option ClassDef} {ours theirs : List Ty}
    (h : ArgsMeet S C c ours theirs) : ArgsMeet S' C' c ours theirs := by
  intro i hi
  have hi' := h i hi
  revert hi'
  cases varianceIn c i with
  | covariant => exact hC _ _
  | contravariant => exact id
  | invariant => exact And.imp (hS _ _) (hS _ _)

variable {env}

theorem ShapesMeet.mono {a b : Ty} (h : env.ShapesMeet S C a b) : env.ShapesMeet S' C' a b := by
  unfold ShapesMeet at h ⊢
  split at h
  · exact hC _ _ h
  · exact hC _ _ h
  · obtain ⟨t, ht, h⟩ := h
    exact ⟨t, ht, hC _ _ h⟩
  · obtain ⟨t, ht, h⟩ := h
    exact ⟨t, ht, hC _ _ h⟩
  · trivial
  · exact h.imp (hC _ _) (hS _ _)
  · exact h.imp (hC _ _) (hS _ _)
  · exact hS _ _ h
  · exact hS _ _ h
  · exact ⟨h.1, hC _ _ h.2⟩
  · exact hC _ _ h
  · exact hC _ _ h
  · refine Or.imp ?_ ?_ h
    · rintro ⟨view, hview, h⟩
      exact ⟨view, hview, h.mono hS hC⟩
    · rintro ⟨hnone, view, hview, h⟩
      exact ⟨hnone, view, hview, h.mono hS hC⟩
  · exact h.elim

end Mono

/-! ## The rules and the steps -/

theorem orM_iff (x y : Id Bool) : (x <||> y) = true ↔ x = true ∨ y = true := by
  cases x with
  | false => exact ⟨.inr, fun h => h.resolve_left Bool.false_ne_true⟩
  | true => exact ⟨fun _ => .inl rfl, fun _ => rfl⟩

theorem argsCommon_iff (sub common : Ty → Ty → Id Bool) (c : Option ClassDef)
    (ours theirs : List Ty) : argsCommon sub common c ours theirs = true ↔
      ArgsMeet (fun a b => sub a b = true) (fun a b => common a b = true) c ours theirs := by
  rw [argsCommon, allM_iff, ArgsMeet]
  refine forall_congr' fun i => imp_congr List.mem_range ?_
  cases varianceIn c i with
  | covariant => exact Iff.rfl
  | contravariant => exact ⟨fun _ => trivial, fun _ => rfl⟩
  | invariant => exact andM_iff _ _

/-- The step of two classes. -/
theorem classesStep_iff (sub common : Ty → Ty → Id Bool) (c d : DeclRef) (as bs : List Ty) :
    env.commonStep sub common (.class c as) (.class d bs) = true ↔
      env.ClassesMeet (fun a b => sub a b = true) (fun a b => common a b = true) c d as bs := by
  have hmatch : env.commonStep sub common (.class c as) (.class d bs) =
      match (env.asSupertype? (.class c as) d : Option (List Ty)) with
      | some view => argsCommon sub common (env.classDef d) view bs
      | none => (env.asSupertype? (.class d bs) c : Option (List Ty)).any
          fun view => argsCommon sub common (env.classDef c) as view := by
    rw [commonStep]
    change (match env.asSupertype? (.class c as) d with | some view => _ | none => _) = _
    cases env.asSupertype? (.class c as) d with
    | some view => rfl
    | none =>
      change (match env.asSupertype? (.class d bs) c with | some view => _ | none => _) = _
      cases env.asSupertype? (.class d bs) c <;> rfl
  rw [hmatch, ClassesMeet]
  cases env.asSupertype? (.class c as) d with
  | some view =>
    refine (argsCommon_iff sub common _ view bs).trans ⟨fun h => .inl ⟨view, rfl, h⟩, ?_⟩
    rintro (⟨_, he, h⟩ | ⟨he, -⟩)
    · exact Option.some.inj he ▸ h
    · exact nomatch he
  | none =>
    refine (Option.any_eq_true _ _).trans ⟨fun ⟨view, hview, h⟩ => ?_, ?_⟩
    · exact .inr ⟨rfl, view, hview, (argsCommon_iff sub common _ as view).mp h⟩
    · rintro (⟨_, he, -⟩ | ⟨-, view, hview, h⟩)
      · exact nomatch he
      · exact ⟨view, hview, (argsCommon_iff sub common _ as view).mpr h⟩

/-- The step of decided relations takes the rules for shapes. -/
theorem commonStep_iff (sub common : Ty → Ty → Id Bool) (a b : Ty) :
    env.commonStep sub common a b = true ↔
      env.ShapesMeet (fun a b => sub a b = true) (fun a b => common a b = true) a b := by
  fun_cases ShapesMeet env (fun a b => sub a b = true) (fun a b => common a b = true) a b
  case case13 => exact env.classesStep_iff sub common _ _ _ _
  all_goals simp only [commonStep]
  case case1 | case2 => exact Iff.rfl
  case case3 | case4 => exact anyM_iff _ _
  case case5 => exact ⟨fun _ => trivial, fun _ => rfl⟩
  case case6 | case7 => exact orM_iff _ _
  case case10 ps r qs s =>
    split
    · next h => rw [and_iff_right h]
    · next h => exact ⟨fun h => (Bool.false_ne_true h).elim, fun hand => (h hand.1).elim⟩
  case case14 => exact ⟨Bool.false_ne_true, False.elim⟩

/-! ## The evaluation under pending pairs -/

/-- Common subtypes with the pairs that are being proved as an argument. -/
def commonUnder : Nat → Pending → Ty → Ty → Id Bool
  | depth, p, a, b =>
    match commonShortcut a b with
    | .holds => pure true
    | .fails => pure false
    | .open =>
      match depth with
      | 0 => pure true
      | depth + 1 => env.commonStep (env.subtypeUnder (pure true) depth p) (commonUnder depth p) a b

theorem commonWithin_rel (depth : Nat) (p : Pending) (a b : Ty) :
    (restoring p).Rel (env.commonWithin depth a b) (env.commonUnder depth p a b) := by
  induction depth generalizing a b with
  | zero =>
    rw [commonWithin, commonUnder]
    cases commonShortcut a b <;> rfl
  | succ depth ih =>
    rw [commonWithin, commonUnder]
    cases commonShortcut a b with
    | holds => rfl
    | fails => rfl
    | «open» => exact (restoring p).commonStep env (env.subtypeWithin_rel depth p) ih a b

theorem haveCommonSubtype_eq (a b : Ty) :
    env.haveCommonSubtype a b = env.commonUnder maxRelationDepth [] a b :=
  congrArg Prod.fst (env.commonWithin_rel maxRelationDepth [] a b)

variable {env} in
/-- What has a common subtype coinductively is never denied. -/
theorem commonUnder_of_meets {a b : Ty} (h : env.Meets a b) (depth : Nat) (p : Pending) :
    env.commonUnder depth p a b = true := by
  induction depth generalizing a b with
  | zero =>
    obtain ⟨R, hR, hab⟩ := h
    have hrule := hR a b hab
    rw [MeetsBy] at hrule
    rw [commonUnder]
    cases hshort : commonShortcut a b with
    | holds => rfl
    | fails => simp [hshort] at hrule
    | «open» => rfl
  | succ depth ih =>
    obtain ⟨R, hR, hab⟩ := h
    have hrule := hR a b hab
    rw [MeetsBy] at hrule
    rw [commonUnder]
    cases hshort : commonShortcut a b with
    | holds => rfl
    | fails => simp [hshort] at hrule
    | «open» =>
      simp only [hshort] at hrule
      refine (env.commonStep_iff _ _ a b).mpr (hrule.mono (fun x y hxy => ?_) fun x y hxy => ?_)
      · exact subtypeUnder_of_subtype hxy depth p
      · exact ih ⟨R, hR, hxy⟩

variable {env} in
theorem haveCommonSubtype_of_meets {a b : Ty} (h : env.Meets a b) :
    env.haveCommonSubtype a b = true := by
  rw [haveCommonSubtype_eq]
  exact commonUnder_of_meets h maxRelationDepth []

end PklAnalysis.TypeEnv
