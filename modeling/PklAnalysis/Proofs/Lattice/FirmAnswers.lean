import PklAnalysis.Proofs.Lattice.CommonSubtypeRules
import PklAnalysis.Proofs.Lattice.Unfolding

/-!
# Firm answers

The relations answer yes where they are cut off: beyond their depth, and for an alias whose
replacement is given up, which is taken to be unknown.  An answer is firm if this has happened in no
call of its evaluation.  `TypeEnv.firmSubtypeWithin` and `TypeEnv.firmCommonWithin` are the
evaluations that have no answer instead; a firm yes is a derivation from the rules in which all
aliases are replaced.
-/

namespace PklAnalysis.TypeEnv

/-- An action, unless something is in its way. -/
def provided {n : Type → Type} [Alternative n] (ok : Bool) (act : n Bool) : n Bool :=
  if ok then act else failure

variable (env : TypeEnv Id)

/-- Whether the step for a pair can replace the alias that it has to. -/
def replaces (a b : Ty) : Bool :=
  match a, b with
  | .typeAlias .., _ => (env.expand? a).isSome
  | _, .typeAlias .. => (env.expand? b).isSome
  | _, _ => true

/-- Subtyping without an answer where it is cut off. -/
def firmSubtypeWithin : Nat → Ty → Ty → OptionT (StateM Pending) Bool
  | depth, a, b =>
    match subtypeShortcut a b with
    | .holds => pure true
    | .fails => pure false
    | .open =>
      match depth with
      | 0 => failure
      | depth + 1 => whilePending (a, b)
          (provided (env.replaces a b) (env.subtypeStep (firmSubtypeWithin depth) a b))

/-- Common subtypes without an answer where they are cut off. -/
def firmCommonWithin : Nat → Ty → Ty → OptionT (StateM Pending) Bool
  | depth, a, b =>
    match commonShortcut a b with
    | .holds => pure true
    | .fails => pure false
    | .open =>
      match depth with
      | 0 => failure
      | depth + 1 => provided (env.replaces a b)
          (env.commonStep (env.firmSubtypeWithin depth) (firmCommonWithin depth) a b)

/-- No call in the evaluation of subtyping for a pair is cut off. -/
def IsFirmSubtype (a b : Ty) : Prop :=
  ((env.firmSubtypeWithin maxRelationDepth a b).run.run []).1.isSome

/-- No call in the evaluation of common subtypes for a pair is cut off. -/
def IsFirmCommon (a b : Ty) : Prop :=
  ((env.firmCommonWithin maxRelationDepth a b).run.run []).1.isSome

instance (a b : Ty) : Decidable (env.IsFirmSubtype a b) := inferInstanceAs (Decidable (_ = true))

instance (a b : Ty) : Decidable (env.IsFirmCommon a b) := inferInstanceAs (Decidable (_ = true))

instance (a b : Ty) : Decidable (env.haveCommonSubtype a b = true) :=
  instDecidableEqBool (env.haveCommonSubtype a b) true

/-! ## The pairs that are being proved as an argument -/

/-- Subtyping without an answer where it is cut off, while pairs are being proved. -/
def firmSubtypeUnder : Nat → Pending → Ty → Ty → Option Bool
  | depth, p, a, b =>
    match subtypeShortcut a b with
    | .holds => some true
    | .fails => some false
    | .open =>
      match depth with
      | 0 => none
      | depth + 1 =>
        if p.contains (a, b) then some true
        else
          provided (env.replaces a b) (env.subtypeStep (firmSubtypeUnder depth ((a, b) :: p)) a b)

/-- Common subtypes without an answer where they are cut off, while pairs are being proved. -/
def firmCommonUnder : Nat → Pending → Ty → Ty → Option Bool
  | depth, p, a, b =>
    match commonShortcut a b with
    | .holds => some true
    | .fails => some false
    | .open =>
      match depth with
      | 0 => none
      | depth + 1 => provided (env.replaces a b)
          (env.commonStep (env.firmSubtypeUnder depth p) (firmCommonUnder depth p) a b)

theorem settling_provided {p : Pending} {x : OptionT (StateM Pending) Bool} {o : Option Bool}
    (h : (settling p).Rel x o) (ok : Bool) : (settling p).Rel (provided ok x) (provided ok o) := by
  cases ok with
  | false => exact ⟨rfl, nofun⟩
  | true => exact h

theorem agreeing_provided {o : Option Bool} {v : Id Bool} (h : agreeing.Rel o v) (ok : Bool) :
    agreeing.Rel (provided ok o) v := by
  cases ok with
  | false => exact fun _ hw => nomatch hw
  | true => exact h

theorem firmSubtypeWithin_rel (depth : Nat) (p : Pending) (a b : Ty) :
    (settling p).Rel (env.firmSubtypeWithin depth a b) (env.firmSubtypeUnder depth p a b) := by
  induction depth generalizing p a b with
  | zero =>
    rw [firmSubtypeWithin, firmSubtypeUnder]
    cases subtypeShortcut a b with
    | holds => exact (settling p).pure true
    | fails => exact (settling p).pure false
    | «open» => exact ⟨rfl, nofun⟩
  | succ depth ih =>
    rw [firmSubtypeWithin, firmSubtypeUnder]
    cases subtypeShortcut a b with
    | holds => exact (settling p).pure true
    | fails => exact (settling p).pure false
    | «open» =>
      exact settling_whilePending p _ _ _
        (settling_provided ((settling _).subtypeStep env (ih _) a b) _)

theorem firmCommonWithin_rel (depth : Nat) (p : Pending) (a b : Ty) :
    (settling p).Rel (env.firmCommonWithin depth a b) (env.firmCommonUnder depth p a b) := by
  induction depth generalizing a b with
  | zero =>
    rw [firmCommonWithin, firmCommonUnder]
    cases commonShortcut a b with
    | holds => exact (settling p).pure true
    | fails => exact (settling p).pure false
    | «open» => exact ⟨rfl, nofun⟩
  | succ depth ih =>
    rw [firmCommonWithin, firmCommonUnder]
    cases commonShortcut a b with
    | holds => exact (settling p).pure true
    | fails => exact (settling p).pure false
    | «open» =>
      exact settling_provided
        ((settling p).commonStep env (env.firmSubtypeWithin_rel depth p) ih a b) _

/-- A firm answer is the answer. -/
theorem firmSubtypeUnder_agree (depth : Nat) (p : Pending) (a b : Ty) :
    agreeing.Rel (env.firmSubtypeUnder depth p a b)
      (env.subtypeUnder (n := Id) true depth p a b) := by
  induction depth generalizing p a b with
  | zero =>
    rw [firmSubtypeUnder, subtypeUnder]
    cases subtypeShortcut a b with
    | holds => exact agreeing.pure true
    | fails => exact agreeing.pure false
    | «open» => exact fun w hw => (Option.some_ne_none w hw.symm).elim
  | succ depth ih =>
    rw [firmSubtypeUnder, subtypeUnder]
    cases subtypeShortcut a b with
    | holds => exact agreeing.pure true
    | fails => exact agreeing.pure false
    | «open» =>
      simp only
      split
      · exact agreeing.pure true
      · exact agreeing_provided (agreeing.subtypeStep env (ih _) a b) _

theorem firmCommonUnder_agree (depth : Nat) (p : Pending) (a b : Ty) :
    agreeing.Rel (env.firmCommonUnder depth p a b) (env.commonUnder depth p a b) := by
  induction depth generalizing a b with
  | zero =>
    rw [firmCommonUnder, commonUnder]
    cases commonShortcut a b with
    | holds => exact agreeing.pure true
    | fails => exact agreeing.pure false
    | «open» => exact fun w hw => (Option.some_ne_none w hw.symm).elim
  | succ depth ih =>
    rw [firmCommonUnder, commonUnder]
    cases commonShortcut a b with
    | holds => exact agreeing.pure true
    | fails => exact agreeing.pure false
    | «open» =>
      exact agreeing_provided
        (agreeing.commonStep env (env.firmSubtypeUnder_agree depth p) ih a b) _

/-! ## Derivations -/

/-- A pair follows from the pairs of `X` by a rule that replaces all aliases. -/
def FirmlyFollows (X : Ty → Ty → Prop) (a b : Ty) : Prop :=
  match subtypeShortcut a b with
  | .holds => True
  | .fails => False
  | .open => env.replaces a b = true ∧ env.ShapesFollow X a b

/-- A pair follows coinductively by rules that replace all aliases, from the pairs that are being
proved. -/
def FirmSubtypeFrom (p : Pending) (a b : Ty) : Prop :=
  ∃ R : Ty → Ty → Prop, (∀ x y, R x y → (x, y) ∈ p ∨ env.FirmlyFollows R x y) ∧ R a b

/-- Subtyping by rules that replace all aliases, read coinductively. -/
def FirmSubtype (a b : Ty) : Prop :=
  ∃ R : Ty → Ty → Prop, (∀ x y, R x y → env.FirmlyFollows R x y) ∧ R a b

/-- Two types have a common subtype by rules that replace all aliases, in so many steps. -/
def MeetsWithin : Nat → Ty → Ty → Prop
  | depth, a, b =>
    match commonShortcut a b with
    | .holds => True
    | .fails => False
    | .open =>
      match depth with
      | 0 => False
      | depth + 1 =>
        env.replaces a b = true ∧ env.ShapesMeet env.FirmSubtype (MeetsWithin depth) a b

variable {env}

theorem FirmlyFollows.mono {X Y : Ty → Ty → Prop} (h : ∀ a b, X a b → Y a b) {a b : Ty}
    (hX : env.FirmlyFollows X a b) : env.FirmlyFollows Y a b := by
  unfold FirmlyFollows at hX ⊢
  split at hX
  · trivial
  · exact hX.elim
  · exact ⟨hX.1, hX.2.mono h⟩

theorem firmSubtype_iff {a b : Ty} :
    env.FirmSubtype a b ↔ env.FirmlyFollows env.FirmSubtype a b := by
  constructor
  · rintro ⟨R, hR, hab⟩
    exact (hR a b hab).mono fun x y hxy => ⟨R, hR, hxy⟩
  · intro h
    refine ⟨env.FirmlyFollows env.FirmSubtype, fun x y hxy => hxy.mono fun u v huv => ?_, h⟩
    obtain ⟨R, hR, huv⟩ := huv
    exact (hR u v huv).mono fun x y hxy => ⟨R, hR, hxy⟩

theorem FirmSubtype.refl (a : Ty) : env.FirmSubtype a a :=
  firmSubtype_iff.mpr (by simp [FirmlyFollows, subtypeShortcut])

theorem FirmSubtypeFrom.of_follows {p : Pending} {a b : Ty}
    (h : env.FirmlyFollows (env.FirmSubtypeFrom ((a, b) :: p)) a b) :
    env.FirmSubtypeFrom p a b := by
  refine ⟨env.FirmSubtypeFrom ((a, b) :: p), fun x y hxy => ?_, ?_⟩
  · obtain ⟨R, hR, hxy⟩ := hxy
    rcases hR x y hxy with hmem | hfollows
    · rcases List.mem_cons.mp hmem with he | hmem
      · -- the pair itself is no longer taken for granted, it follows by its own step
        cases he
        exact .inr h
      · exact .inl hmem
    · exact .inr (hfollows.mono fun x y hxy => ⟨R, hR, hxy⟩)
  · exact ⟨fun x y => (x, y) = (a, b), fun x y hxy => .inl (hxy ▸ List.mem_cons_self), rfl⟩

theorem provided_eq_some {ok : Bool} {o : Option Bool} (h : provided ok o = some true) :
    ok = true ∧ o = some true := by
  cases ok with
  | false => exact nomatch h
  | true => exact ⟨rfl, h⟩

/-- A firm yes is a derivation. -/
theorem firmSubtypeFrom_of_firmSubtypeUnder {depth : Nat} {p : Pending} {a b : Ty}
    (h : env.firmSubtypeUnder depth p a b = some true) : env.FirmSubtypeFrom p a b := by
  induction depth generalizing p a b with
  | zero =>
    apply FirmSubtypeFrom.of_follows
    rw [firmSubtypeUnder] at h
    rw [FirmlyFollows]
    cases hshort : subtypeShortcut a b with
    | holds => trivial
    | fails => simp [hshort] at h
    | «open» => simp [hshort] at h
  | succ depth ih =>
    rw [firmSubtypeUnder] at h
    by_cases hp : (a, b) ∈ p
    · exact ⟨fun x y => (x, y) = (a, b), fun x y hxy => .inl (hxy ▸ hp), rfl⟩
    apply FirmSubtypeFrom.of_follows
    rw [FirmlyFollows]
    cases hshort : subtypeShortcut a b with
    | holds => trivial
    | fails => simp [hshort] at h
    | «open» =>
      simp only [hshort, List.contains_eq_mem, hp, decide_false] at h
      obtain ⟨hreplaces, hstep⟩ := provided_eq_some h
      exact ⟨hreplaces, (shapesFollow_of_subtypeStep hstep).mono fun x y hxy => ih hxy⟩

theorem firmSubtype_of_firmSubtypeUnder {depth : Nat} {a b : Ty}
    (h : env.firmSubtypeUnder depth [] a b = some true) : env.FirmSubtype a b := by
  obtain ⟨R, hR, hab⟩ := firmSubtypeFrom_of_firmSubtypeUnder h
  exact ⟨R, fun x y hxy => (hR x y hxy).resolve_left List.not_mem_nil, hab⟩

/-- The step of relations that may have no answer follows by the rule for the shapes. -/
theorem shapesMeet_of_commonStep {sub common : Ty → Ty → Option Bool} {a b : Ty}
    (h : env.commonStep sub common a b = some true) :
    env.ShapesMeet (fun x y => sub x y = some true) (fun x y => common x y = some true) a b := by
  let decided (o : Option Bool) : Id Bool := o == some true
  have hdecided : ∀ o, agreeing.Rel o (decided o) := by
    intro o v hv
    change (o == some true) = v
    rw [hv]
    cases v <;> rfl
  have hstep := agreeing.commonStep env (fun x y => hdecided (sub x y))
    (fun x y => hdecided (common x y)) a b true h
  exact ((env.commonStep_iff _ _ a b).mp hstep).mono (fun x y hxy => eq_of_beq hxy)
    fun x y hxy => eq_of_beq hxy

theorem meetsWithin_of_firmCommonUnder {depth : Nat} {a b : Ty}
    (h : env.firmCommonUnder depth [] a b = some true) : env.MeetsWithin depth a b := by
  induction depth generalizing a b with
  | zero =>
    rw [firmCommonUnder] at h
    rw [MeetsWithin]
    cases hshort : commonShortcut a b with
    | holds => trivial
    | fails => simp [hshort] at h
    | «open» => simp [hshort] at h
  | succ depth ih =>
    rw [firmCommonUnder] at h
    rw [MeetsWithin]
    cases hshort : commonShortcut a b with
    | holds => trivial
    | fails => simp [hshort] at h
    | «open» =>
      simp only [hshort] at h
      obtain ⟨hreplaces, hstep⟩ := provided_eq_some h
      exact ⟨hreplaces, (shapesMeet_of_commonStep hstep).mono
        (fun x y hxy => firmSubtype_of_firmSubtypeUnder hxy) fun x y hxy => ih hxy⟩

theorem isFirmSubtype_iff {a b : Ty} :
    env.IsFirmSubtype a b ↔ (env.firmSubtypeUnder maxRelationDepth [] a b).isSome := by
  rw [← (env.firmSubtypeWithin_rel maxRelationDepth [] a b).1]
  exact Iff.rfl

theorem isFirmCommon_iff {a b : Ty} :
    env.IsFirmCommon a b ↔ (env.firmCommonUnder maxRelationDepth [] a b).isSome := by
  rw [← (env.firmCommonWithin_rel maxRelationDepth [] a b).1]
  exact Iff.rfl

theorem firmSubtype_of_isSubtype {a b : Ty} (h : env.isSubtype a b = true)
    (hfirm : env.IsFirmSubtype a b) : env.FirmSubtype a b := by
  obtain ⟨v, hv⟩ := Option.isSome_iff_exists.mp (isFirmSubtype_iff.mp hfirm)
  have hagree := env.firmSubtypeUnder_agree maxRelationDepth [] a b v hv
  rw [isSubtype_eq, hagree] at h
  exact firmSubtype_of_firmSubtypeUnder (h ▸ hv)

theorem meetsWithin_of_haveCommonSubtype {a b : Ty} (h : env.haveCommonSubtype a b = true)
    (hfirm : env.IsFirmCommon a b) : env.MeetsWithin maxRelationDepth a b := by
  obtain ⟨v, hv⟩ := Option.isSome_iff_exists.mp (isFirmCommon_iff.mp hfirm)
  have hagree := env.firmCommonUnder_agree maxRelationDepth [] a b v hv
  rw [haveCommonSubtype_eq, hagree] at h
  exact meetsWithin_of_firmCommonUnder (h ▸ hv)

end PklAnalysis.TypeEnv
