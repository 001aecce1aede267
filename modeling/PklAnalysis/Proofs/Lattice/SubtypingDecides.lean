import PklAnalysis.Lattice.Table
import PklAnalysis.Proofs.Lattice.SubtypingRules

/-!
# Subtyping decides its rules

`TypeEnv.subtypeWith` is subtyping with what happens at the largest depth left open: it may answer
yes, as `TypeEnv.subtypeWithin` does, or have no answer, which tells whether an answer depends on
that depth.  Both give back the pairs that they are given, so they are evaluated under given
pairs, by `TypeEnv.subtypeUnder`.  A yes that does not depend on the depth is a derivation that may
end in pairs that are being proved, and becomes a set of pairs that support themselves; what follows
coinductively is never denied.
-/

namespace PklAnalysis

namespace TypeEnv

/-! ## Subtyping with an open end -/

section Evaluation

variable {m n : Type → Type} [Monad m] [Monad n] [MonadLiftT m n] (env : TypeEnv m)

/-- A pair proved, unless it is being proved already. -/
def whilePending [MonadStateOf Pending n] (e : Ty × Ty) (prove : n Bool) : n Bool := do
  if (← get).contains e then pure true
  else
    modify (e :: ·)
    let answer ← prove
    modify (·.erase e)
    pure answer

/-- Subtyping down to a depth, with what happens beyond it left open. -/
def subtypeWith [MonadStateOf Pending n] (beyond : n Bool) : Nat → Ty → Ty → n Bool
  | depth, a, b =>
    match subtypeShortcut a b with
    | .holds => pure true
    | .fails => pure false
    | .open =>
      match depth with
      | 0 => beyond
      | depth + 1 => whilePending (a, b) (env.subtypeStep (subtypeWith beyond depth) a b)

/-- Beyond its depth subtyping answers yes. -/
theorem subtypeWithin_eq (depth : Nat) (a b : Ty) :
    env.subtypeWithin depth a b = env.subtypeWith (pure true) depth a b := by
  induction depth generalizing a b with
  | zero =>
    unfold subtypeWithin subtypeWith
    cases subtypeShortcut a b <;> rfl
  | succ depth ih =>
    have hsub : env.subtypeWithin depth = env.subtypeWith (pure true) depth :=
      funext fun a => funext fun b => ih a b
    rw [subtypeWithin, subtypeWith, hsub]
    cases subtypeShortcut a b <;> rfl

/-- Subtyping with the pairs that are being proved as an argument. -/
def subtypeUnder (beyond : n Bool) : Nat → Pending → Ty → Ty → n Bool
  | depth, p, a, b =>
    match subtypeShortcut a b with
    | .holds => pure true
    | .fails => pure false
    | .open =>
      match depth with
      | 0 => beyond
      | depth + 1 =>
        if p.contains (a, b) then pure true
        else env.subtypeStep (subtypeUnder beyond depth ((a, b) :: p)) a b

/-- The pairs that are being proved can be an argument, if a pair is removed when it is proved. -/
theorem subtypeWith_rel {n' : Type → Type} [Monad n'] [MonadLiftT m n'] [MonadStateOf Pending n]
    (c : Pending → Correspondence m n n') {beyond : n Bool} {beyond' : n' Bool}
    (hbeyond : ∀ p, (c p).Rel beyond beyond')
    (hpending : ∀ p e x x', (c (e :: p)).Rel x x' →
      (c p).Rel (whilePending e x) (if p.contains e then pure true else x'))
    (depth : Nat) (p : Pending) (a b : Ty) :
    (c p).Rel (env.subtypeWith beyond depth a b) (env.subtypeUnder beyond' depth p a b) := by
  induction depth generalizing p a b with
  | zero =>
    rw [subtypeWith, subtypeUnder]
    cases subtypeShortcut a b with
    | holds => exact (c p).pure true
    | fails => exact (c p).pure false
    | «open» => exact hbeyond p
  | succ depth ih =>
    rw [subtypeWith, subtypeUnder]
    cases subtypeShortcut a b with
    | holds => exact (c p).pure true
    | fails => exact (c p).pure false
    | «open» => exact hpending p _ _ _ ((c _).subtypeStep env (ih ((a, b) :: p)) a b)

/-- Subtyping in two monads, one step at a time. -/
theorem subtypeUnder_rel {n' : Type → Type} [Monad n'] [MonadLiftT m n']
    (c : Correspondence m n n') {beyond : n Bool} {beyond' : n' Bool}
    (hbeyond : c.Rel beyond beyond') (depth : Nat) (p : Pending) (a b : Ty) :
    c.Rel (env.subtypeUnder beyond depth p a b) (env.subtypeUnder beyond' depth p a b) := by
  induction depth generalizing p a b with
  | zero =>
    rw [subtypeUnder, subtypeUnder]
    cases subtypeShortcut a b with
    | holds => exact c.pure true
    | fails => exact c.pure false
    | «open» => exact hbeyond
  | succ depth ih =>
    rw [subtypeUnder, subtypeUnder]
    cases subtypeShortcut a b with
    | holds => exact c.pure true
    | fails => exact c.pure false
    | «open» =>
      simp only
      split
      · exact c.pure true
      · exact c.subtypeStep env (ih ((a, b) :: p)) a b

end Evaluation

/-! ## With and without an answer at the end -/

/-- Computations that give back the pairs that they are given. -/
def restoring (p : Pending) : Correspondence Id (StateT Pending Id) Id where
  Rel x v := x p = (v, p)
  pure _ := rfl
  bind {_ _ x v f g} hx hf := by
    change f (x p).1 (x p).2 = _
    rw [hx]
    exact hf v
  lift _ := rfl

theorem restoring_whilePending (p : Pending) (e : Ty × Ty) (x : StateT Pending Id Bool) (v : Bool)
    (h : (restoring (e :: p)).Rel x v) :
    (restoring p).Rel (whilePending e x) (if p.contains e then true else v) := by
  change (if p.contains e then _ else _ : StateT Pending Id Bool) p = _
  by_cases hp : p.contains e
  · rw [if_pos hp, if_pos hp]
    rfl
  · rw [if_neg hp, if_neg hp]
    change ((x (e :: p)).1, (x (e :: p)).2.erase e) = _
    have hx : x (e :: p) = (v, e :: p) := h
    rw [hx]
    exact congrArg (Prod.mk v) (List.erase_cons_head ..)

theorem run_bind_apply {α β : Type} (x : OptionT (StateM Pending) α)
    (f : α → OptionT (StateM Pending) β) (p : Pending) :
    (x >>= f).run p = (match (x.run p).1 with
      | some a => (f a).run
      | none => pure none : StateM Pending (Option β)) (x.run p).2 := rfl

/-- Computations that may have no answer; with one they give back the pairs that they are given. -/
def settling (p : Pending) : Correspondence Id (OptionT (StateM Pending)) Option where
  Rel x o := (x.run p).1 = o ∧ (o.isSome → (x.run p).2 = p)
  pure _ := ⟨rfl, fun _ => rfl⟩
  bind {_ _ x o f g} hx hf := by
    obtain ⟨rfl, hp⟩ := hx
    rw [run_bind_apply]
    revert hp
    cases (x.run p).1 with
    -- without an answer nothing is said about the pairs
    | none => exact fun _ => ⟨rfl, nofun⟩
    | some a =>
      intro hp
      rw [hp rfl]
      exact hf a
  lift _ := ⟨rfl, fun _ => rfl⟩

theorem settling_whilePending (p : Pending) (e : Ty × Ty) (x : OptionT (StateM Pending) Bool)
    (o : Option Bool) (h : (settling (e :: p)).Rel x o) :
    (settling p).Rel (whilePending e x) (if p.contains e then pure true else o) := by
  obtain ⟨rfl, hrestored⟩ := h
  let prove : OptionT (StateM Pending) Bool := do
    modify (e :: ·)
    let answer ← x
    modify (·.erase e)
    pure answer
  change ((if p.contains e then pure true else prove : OptionT _ Bool).run p).1 = _ ∧
    (_ → ((if p.contains e then pure true else prove : OptionT _ Bool).run p).2 = p)
  by_cases hp : p.contains e
  · rw [if_pos hp, if_pos hp]
    exact (settling p).pure true
  · rw [if_neg hp, if_neg hp]
    have hprove : prove.run p
        = (x >>= fun answer => do modify (·.erase e); pure answer).run (e :: p) := rfl
    rw [hprove, run_bind_apply]
    revert hrestored
    cases (x.run (e :: p)).1 with
    | none => exact fun _ => ⟨rfl, nofun⟩
    | some answer =>
      intro hrestored
      rw [hrestored rfl]
      exact ⟨rfl, fun _ => List.erase_cons_head ..⟩

/-- An answer, if there is one. -/
def agreeing : Correspondence Id Option Id where
  Rel o v := ∀ w, o = some w → v = w
  pure _ _ h := Option.some.inj h
  bind {_ _ o v f g} ho hf := by
    intro w hw
    obtain ⟨a, ha, hw⟩ := Option.bind_eq_some_iff.mp hw
    obtain rfl := ho a ha
    exact hf v w hw
  lift _ _ h := Option.some.inj h

variable (env : TypeEnv Id)

theorem subtypeWithin_rel (depth : Nat) (p : Pending) (a b : Ty) :
    (restoring p).Rel (env.subtypeWithin depth a b) (env.subtypeUnder true depth p a b) := by
  rw [subtypeWithin_eq]
  exact env.subtypeWith_rel restoring (fun _ => rfl) restoring_whilePending depth p a b

theorem isSubtype_eq (a b : Ty) :
    env.isSubtype a b = env.subtypeUnder true maxRelationDepth [] a b :=
  congrArg Prod.fst (env.subtypeWithin_rel maxRelationDepth [] a b)

/-- The answer about a pair does not depend on the depth: with no answer beyond it there is one. -/
def Settled (a b : Ty) : Prop :=
  ((env.subtypeWith (failure : OptionT (StateM Pending) Bool) maxRelationDepth a b).run.run
    []).1.isSome

instance (a b : Ty) : Decidable (env.Settled a b) := inferInstanceAs (Decidable (_ = true))

instance (a b : Ty) : Decidable (env.isSubtype a b = true) :=
  instDecidableEqBool (env.isSubtype a b) true

theorem settled_iff (a b : Ty) :
    env.Settled a b ↔ (env.subtypeUnder none maxRelationDepth [] a b).isSome := by
  have hbeyond : ∀ p, (settling p).Rel failure (none : Option Bool) := fun _ => ⟨rfl, nofun⟩
  have h : (settling []).Rel (env.subtypeWith failure maxRelationDepth a b)
      (env.subtypeUnder none maxRelationDepth [] a b) :=
    env.subtypeWith_rel settling hbeyond settling_whilePending maxRelationDepth [] a b
  rw [← h.1]
  exact Iff.rfl

/-- Without an answer beyond the depth there are no other answers than with one. -/
theorem subtypeUnder_agree {depth : Nat} {p : Pending} {a b : Ty} {v : Bool}
    (h : env.subtypeUnder none depth p a b = some v) :
    env.subtypeUnder (n := Id) true depth p a b = v := by
  have hbeyond : agreeing.Rel (none : Option Bool) true := fun _ h => nomatch h
  exact env.subtypeUnder_rel agreeing hbeyond depth p a b v h

/-! ## Soundness and completeness -/

/-- A pair follows coinductively from itself and the pairs that are being proved. -/
def SubtypeFrom (p : Pending) (a b : Ty) : Prop :=
  ∃ R : Ty → Ty → Prop, (∀ x y, R x y → (x, y) ∈ p ∨ env.Follows R x y) ∧ R a b

variable {env}

theorem SubtypeFrom.of_follows {p : Pending} {a b : Ty}
    (h : env.Follows (env.SubtypeFrom ((a, b) :: p)) a b) : env.SubtypeFrom p a b := by
  refine ⟨env.SubtypeFrom ((a, b) :: p), fun x y hxy => ?_, ?_⟩
  · obtain ⟨R, hR, hxy⟩ := hxy
    rcases hR x y hxy with hmem | hfollows
    · rcases List.mem_cons.mp hmem with he | hmem
      · -- the pair itself is no longer taken for granted, it follows by its own step
        cases he
        exact .inr h
      · exact .inl hmem
    · exact .inr (hfollows.mono fun x y hxy => ⟨R, hR, hxy⟩)
  · exact ⟨fun x y => (x, y) = (a, b), fun x y hxy => .inl (hxy ▸ List.mem_cons_self), rfl⟩

/-- The step of a relation that may have no answer follows by the rule for the shapes. -/
theorem shapesFollow_of_subtypeStep {sub : Ty → Ty → Option Bool} {a b : Ty}
    (h : env.subtypeStep sub a b = some true) :
    env.ShapesFollow (fun x y => sub x y = some true) a b := by
  let decided (x y : Ty) : Id Bool := sub x y == some true
  have hdecided : ∀ x y, agreeing.Rel (sub x y) (decided x y) := by
    intro x y v hv
    change (sub x y == some true) = v
    rw [hv]
    cases v <;> rfl
  have hstep : env.subtypeStep decided a b = true := agreeing.subtypeStep env hdecided a b true h
  exact ((env.subtypeStep_iff decided a b).mp hstep).mono fun x y hxy => eq_of_beq hxy

/-- A yes that does not depend on the depth is a derivation. -/
theorem subtypeFrom_of_subtypeUnder {depth : Nat} {p : Pending} {a b : Ty}
    (h : env.subtypeUnder none depth p a b = some true) : env.SubtypeFrom p a b := by
  induction depth generalizing p a b with
  | zero =>
    apply SubtypeFrom.of_follows
    rw [subtypeUnder] at h
    rw [Follows]
    cases hshort : subtypeShortcut a b with
    | holds => trivial
    | fails => simp [hshort, pure] at h
    | «open» => simp [hshort] at h
  | succ depth ih =>
    rw [subtypeUnder] at h
    by_cases hp : (a, b) ∈ p
    · exact ⟨fun x y => (x, y) = (a, b), fun x y hxy => .inl (hxy ▸ hp), rfl⟩
    apply SubtypeFrom.of_follows
    rw [Follows]
    cases hshort : subtypeShortcut a b with
    | holds => trivial
    | fails => simp [hshort, pure] at h
    | «open» =>
      simp only [hshort, List.contains_eq_mem, hp, decide_false] at h
      exact (shapesFollow_of_subtypeStep h).mono fun x y hxy => ih hxy

/-- What follows coinductively is never denied. -/
theorem subtypeUnder_of_subtype {a b : Ty} (h : env.Subtype a b) (depth : Nat) (p : Pending) :
    env.subtypeUnder (n := Id) true depth p a b = true := by
  induction depth generalizing p a b with
  | zero =>
    have hfollows := h.follows
    rw [Follows] at hfollows
    rw [subtypeUnder]
    cases hshort : subtypeShortcut a b with
    | holds => rfl
    | fails => simp [hshort] at hfollows
    | «open» => rfl
  | succ depth ih =>
    have hfollows := h.follows
    rw [Follows] at hfollows
    rw [subtypeUnder]
    cases hshort : subtypeShortcut a b with
    | holds => rfl
    | fails => simp [hshort] at hfollows
    | «open» =>
      simp only [hshort] at hfollows ⊢
      split
      · rfl
      · exact (env.subtypeStep_iff _ a b).mpr (hfollows.mono fun x y hxy => ih hxy _)

theorem subtypeFrom_nil {a b : Ty} : env.SubtypeFrom [] a b ↔ env.Subtype a b := by
  simp [SubtypeFrom, Subtype]

theorem isSubtype_of_subtype {a b : Ty} (h : env.Subtype a b) : env.isSubtype a b = true := by
  rw [isSubtype_eq]
  exact subtypeUnder_of_subtype h maxRelationDepth []

theorem subtype_of_isSubtype {a b : Ty} (h : env.isSubtype a b = true) (hs : env.Settled a b) :
    env.Subtype a b := by
  obtain ⟨v, hv⟩ := Option.isSome_iff_exists.mp ((env.settled_iff a b).mp hs)
  rw [isSubtype_eq, env.subtypeUnder_agree hv] at h
  exact subtypeFrom_nil.mp (subtypeFrom_of_subtypeUnder (h ▸ hv))

variable (env) in
/-- Subtyping decides its rules read coinductively: it denies no pair that follows, and a pair that
it affirms follows unless the answer depends on the depth. -/
theorem isSubtype_decides (a b : Ty) :
    (env.Subtype a b → env.isSubtype a b = true) ∧
      (env.isSubtype a b = true → env.Settled a b → env.Subtype a b) :=
  ⟨isSubtype_of_subtype, subtype_of_isSubtype⟩

/-! ## A type alias that leads back to itself -/

/-- The base table with a type alias for listings of itself. -/
def nested : DeclRef × TypeTable :=
  let (d, t) := TypeTable.withBase.reserve "Nested"
  (d, t.defineAlias d [] (.class t.base.listing [.typeAlias d []]))

/-- A listing of listings of a type that stands for listings of itself is that type again. -/
theorem subtype_nested :
    let b := nested.2.base
    nested.2.env.Subtype (.class b.listing [.class b.listing [.typeAlias nested.1 []]])
      (.typeAlias nested.1 []) :=
  (isSubtype_decides _ _ _).2 (by decide) (by decide)

end TypeEnv

end PklAnalysis
