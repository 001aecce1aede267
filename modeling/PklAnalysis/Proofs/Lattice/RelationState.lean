import PklAnalysis.Proofs.Lattice.SubtypingDecides

/-!
# What the relations do with their state

Subtyping and common subtypes can be run on a state that holds the pairs being proved and how deep
the rules have been followed: a pair is entered and the depth raised before a step, and both are
taken back after it.  `TypeEnv.subtypeCounted` and `TypeEnv.commonCounted` run in that way.  Each of
their calls leaves the state as it finds it, whatever the steps within ask and wherever they stop
early, and gives the answer of the relation that is given the rest of the depth.  So the state is a
stack that is never seen from outside, and a yes that rests on some pairs and some depth does not
turn into a no with more of them.
-/

namespace PklAnalysis

/-! ## Computations that leave their state alone -/

section Keeping

variable {m : Type → Type} [Monad m] [LawfulMonad m] {σ α : Type}

/-- Computations that end in the state `s` if they begin in it, and what they give then. -/
def keeping (m : Type → Type) [Monad m] [LawfulMonad m] (s : σ) :
    Correspondence m (StateT σ m) m where
  Rel x v := x.run s = (·, s) <$> v
  pure a := by simp
  bind {_ _ x v f g} hx hf := by
    rw [StateT.run_bind, hx, bind_map_left, map_bind]
    exact congrArg (v >>= ·) (funext hf)
  lift x := bind_pure_comp (·, s) x

/-- What such a computation gives is what it gives without its state. -/
theorem eq_run'_of_keeping {s : σ} {x : StateT σ m α} {v : m α} (h : (keeping m s).Rel x v) :
    v = x.run' s := by
  have hx : x.run s = (·, s) <$> v := h
  rw [StateT.run'_eq, hx]
  simp

theorem keeping_run' {s : σ} {x : StateT σ m α} {v : m α} (h : (keeping m s).Rel x v) :
    (keeping m s).Rel x (x.run' s) := eq_run'_of_keeping h ▸ h

/-- What needs no state gives the same on any other one. -/
theorem keeping_pure {τ : Type} (s : σ) (t : τ) (a : α) :
    (keeping m s).Rel (pure a) ((pure a : StateT τ m α).run' t) :=
  eq_run'_of_keeping ((keeping m t).pure a) ▸ (keeping m s).pure a

end Keeping

namespace TypeEnv

/-! ## The relations on a state -/

/-- The pairs that are being proved, the latest first, and how many steps deep that is. -/
structure Progress where
  pending : Pending
  depth : Nat
  deriving DecidableEq

section Counted

variable {m : Type → Type} [Monad m] (env : TypeEnv m)

/-- Subtyping on a state.  At the largest depth it answers yes, so no more calls are nested than the
state allows; the first argument bounds them for the recursion. -/
def subtypeCounted : Nat → Ty → Ty → StateT Progress m Bool
  | calls, a, b =>
    match subtypeShortcut a b with
    | .holds => pure true
    | .fails => pure false
    | .open =>
      match calls with
      | 0 => pure true
      | calls + 1 => do
        if maxRelationDepth ≤ (← get).depth then pure true
        else if (← get).pending.contains (a, b) then pure true
        else
          modify fun s => { s with pending := (a, b) :: s.pending }
          modify fun s => { s with depth := s.depth + 1 }
          let answer ← env.subtypeStep (subtypeCounted calls) a b
          modify fun s => { s with depth := s.depth - 1 }
          modify fun s => { s with pending := s.pending.erase (a, b) }
          pure answer

/-- Common subtypes on a state, which they share with the subtyping that they ask for. -/
def commonCounted : Nat → Ty → Ty → StateT Progress m Bool
  | calls, a, b =>
    match commonShortcut a b with
    | .holds => pure true
    | .fails => pure false
    | .open =>
      match calls with
      | 0 => pure true
      | calls + 1 => do
        if maxRelationDepth ≤ (← get).depth then pure true
        else
          modify fun s => { s with depth := s.depth + 1 }
          let answer ← env.commonStep (env.subtypeCounted calls) (commonCounted calls) a b
          modify fun s => { s with depth := s.depth - 1 }
          pure answer

end Counted

section Frame

variable {m : Type → Type} [Monad m] [LawfulMonad m] (env : TypeEnv m)

/-! ## Pairs alone -/

theorem keeping_whilePending (p : Pending) (e : Ty × Ty) (x : StateT Pending m Bool) (v : m Bool)
    (h : (keeping m (e :: p)).Rel x v) :
    (keeping m p).Rel (whilePending e x) (if p.contains e then pure true else v) := by
  have hx : x.run (e :: p) = (·, e :: p) <$> v := h
  change (whilePending e x).run p = _
  by_cases hp : e ∈ p
  · simp [whilePending, hp]
  · simp [whilePending, hp, hx]

/-- Subtyping gives back the pairs that it is given. -/
theorem keeping_subtypeWithin (depth : Nat) (p : Pending) (a b : Ty) :
    (keeping m p).Rel (env.subtypeWithin depth a b) (env.subtypeUnder (pure true) depth p a b) := by
  rw [subtypeWithin_eq]
  exact env.subtypeWith_rel (keeping m) (fun p => (keeping m p).pure true) keeping_whilePending
    depth p a b

/-- Common subtypes give back the pairs that they are given. -/
theorem keeping_commonWithin (depth : Nat) (p : Pending) (a b : Ty) :
    (keeping m p).Rel (env.commonWithin depth a b) ((env.commonWithin depth a b).run' p) := by
  induction depth generalizing a b with
  | zero =>
    rw [commonWithin]
    cases commonShortcut a b with
    | holds => exact keeping_pure p p true
    | fails => exact keeping_pure p p false
    | «open» => exact keeping_pure p p true
  | succ depth ih =>
    rw [commonWithin]
    cases commonShortcut a b with
    | holds => exact keeping_pure p p true
    | fails => exact keeping_pure p p false
    | «open» =>
      exact keeping_run' ((keeping m p).commonStep env (env.keeping_subtypeWithin depth p) ih a b)

/-! ## Pairs and depth -/

/-- Each call of subtyping leaves the state as it finds it, with the answer for the depth that is
left. -/
theorem keeping_subtypeCounted (calls : Nat) (s : Progress) (a b : Ty)
    (h : maxRelationDepth ≤ calls + s.depth) :
    (keeping m s).Rel (env.subtypeCounted calls a b)
      (env.subtypeUnder (pure true) (maxRelationDepth - s.depth) s.pending a b) := by
  induction calls generalizing s a b with
  | zero =>
    have hrest : maxRelationDepth - s.depth = 0 := by omega
    rw [subtypeCounted, hrest, subtypeUnder]
    cases subtypeShortcut a b with
    | holds => exact (keeping m s).pure true
    | fails => exact (keeping m s).pure false
    | «open» => exact (keeping m s).pure true
  | succ calls ih =>
    cases hrest : maxRelationDepth - s.depth with
    | zero =>
      have hdepth : maxRelationDepth ≤ s.depth := by omega
      rw [subtypeCounted, subtypeUnder]
      cases subtypeShortcut a b with
      | holds => exact (keeping m s).pure true
      | fails => exact (keeping m s).pure false
      | «open» =>
        change StateT.run _ s = _
        simp [hdepth]
    | succ rest =>
      have hdepth : ¬maxRelationDepth ≤ s.depth := by omega
      rw [subtypeCounted, subtypeUnder]
      cases subtypeShortcut a b with
      | holds => exact (keeping m s).pure true
      | fails => exact (keeping m s).pure false
      | «open» =>
        change StateT.run _ s = _
        by_cases hpending : (a, b) ∈ s.pending
        · simp [hdepth, hpending]
        -- the step runs on the state with the pair, one deeper
        have hcalls : maxRelationDepth ≤ calls + (s.depth + 1) := by omega
        have hrest' : maxRelationDepth - (s.depth + 1) = rest := by omega
        have hstep : (env.subtypeStep (env.subtypeCounted calls) a b).run
              ⟨(a, b) :: s.pending, s.depth + 1⟩ = _ :=
          (keeping m _).subtypeStep env (fun x y => hrest' ▸ ih ⟨_, s.depth + 1⟩ x y hcalls) a b
        simp [hdepth, hpending, hstep]

/-- Each call of common subtypes leaves the state as it finds it, with the answer for the depth that
is left. -/
theorem keeping_commonCounted (calls : Nat) (s : Progress) (a b : Ty)
    (h : maxRelationDepth ≤ calls + s.depth) :
    (keeping m s).Rel (env.commonCounted calls a b)
      ((env.commonWithin (maxRelationDepth - s.depth) a b).run' s.pending) := by
  induction calls generalizing s a b with
  | zero =>
    have hrest : maxRelationDepth - s.depth = 0 := by omega
    rw [commonCounted, hrest, commonWithin]
    cases commonShortcut a b with
    | holds => exact keeping_pure s s.pending true
    | fails => exact keeping_pure s s.pending false
    | «open» => exact keeping_pure s s.pending true
  | succ calls ih =>
    cases hrest : maxRelationDepth - s.depth with
    | zero =>
      have hdepth : maxRelationDepth ≤ s.depth := by omega
      rw [commonCounted, commonWithin]
      cases commonShortcut a b with
      | holds => exact keeping_pure s s.pending true
      | fails => exact keeping_pure s s.pending false
      | «open» =>
        change StateT.run _ s = _
        simp [hdepth]
    | succ rest =>
      have hdepth : ¬maxRelationDepth ≤ s.depth := by omega
      rw [commonCounted, commonWithin]
      cases commonShortcut a b with
      | holds => exact keeping_pure s s.pending true
      | fails => exact keeping_pure s s.pending false
      | «open» =>
        have hcalls : maxRelationDepth ≤ calls + (s.depth + 1) := by omega
        have hrest' : maxRelationDepth - (s.depth + 1) = rest := by omega
        have hcounted : (env.commonStep (env.subtypeCounted calls) (env.commonCounted calls) a
              b).run ⟨s.pending, s.depth + 1⟩ = _ :=
          (keeping m _).commonStep env
            (fun x y => hrest' ▸ env.keeping_subtypeCounted calls ⟨_, s.depth + 1⟩ x y hcalls)
            (fun x y => hrest' ▸ ih ⟨_, s.depth + 1⟩ x y hcalls) a b
        have hwithin := eq_run'_of_keeping ((keeping m s.pending).commonStep env
          (env.keeping_subtypeWithin rest s.pending) (env.keeping_commonWithin rest s.pending) a b)
        change StateT.run _ s = (·, s) <$> StateT.run' _ s.pending
        rw [← hwithin]
        simp [hdepth, hcounted]

end Frame

/-! ## More pairs and more depth -/

/-- A yes under some pairs stays a yes under more pairs and with less depth left. -/
theorem subtypeUnder_mono {env : TypeEnv Id} {rest rest' : Nat} {p p' : Pending} {a b : Ty}
    (hp : p ⊆ p') (hrest : rest' ≤ rest)
    (h : env.subtypeUnder (n := Id) true rest p a b = true) :
    env.subtypeUnder (n := Id) true rest' p' a b = true := by
  induction rest generalizing rest' p p' a b with
  | zero =>
    obtain rfl : rest' = 0 := by omega
    rwa [subtypeUnder] at h ⊢
  | succ rest ih =>
    rw [subtypeUnder] at h
    cases rest' with
    | zero =>
      rw [subtypeUnder]
      revert h
      cases subtypeShortcut a b with
      | holds | fails => exact id
      | «open» => exact fun _ => rfl
    | succ rest' =>
      rw [subtypeUnder]
      revert h
      cases subtypeShortcut a b with
      | holds | fails => exact id
      | «open» =>
        intro h
        by_cases hmem : (a, b) ∈ p'
        · simp [hmem, pure]
        have hnot : (a, b) ∉ p := fun h => hmem (hp h)
        simp only [List.contains_eq_mem, hmem, hnot, decide_false, Bool.false_eq_true, if_false]
          at h ⊢
        refine (env.subtypeStep_iff _ a b).mpr (((env.subtypeStep_iff _ a b).mp h).mono ?_)
        exact fun x y => ih (List.cons_subset_cons _ hp) (by omega)

/-- The state of the relations is a stack.  Calls give back the pairs that they are given, and with
a count of the depth in the state they leave it alone as well: each call that is made, from outside
or by a step, ends in the state that it begins in, with the answer for the depth that is left.  A
yes of subtyping stays a yes with more pairs in the state and at a greater depth. -/
theorem relations_restore_state :
    (∀ (m : Type → Type) [Monad m] [LawfulMonad m] (env : TypeEnv m) (a b : Ty),
      (∀ depth p,
        (env.subtypeWithin depth a b).run p = (·, p) <$> (env.subtypeWithin depth a b).run' p ∧
          (env.commonWithin depth a b).run p = (·, p) <$> (env.commonWithin depth a b).run' p) ∧
      ∀ calls (s : Progress), maxRelationDepth ≤ calls + s.depth →
        (env.subtypeCounted calls a b).run s =
            (·, s) <$> (env.subtypeWithin (maxRelationDepth - s.depth) a b).run' s.pending ∧
          (env.commonCounted calls a b).run s =
            (·, s) <$> (env.commonWithin (maxRelationDepth - s.depth) a b).run' s.pending) ∧
    ∀ (env : TypeEnv Id) (a b : Ty) {calls calls' : Nat} {s s' : Progress},
      maxRelationDepth ≤ calls + s.depth → maxRelationDepth ≤ calls' + s'.depth →
      s.pending ⊆ s'.pending → s.depth ≤ s'.depth →
      ((env.subtypeCounted calls a b).run s).1 = true →
      ((env.subtypeCounted calls' a b).run s').1 = true := by
  refine ⟨fun m _ _ env a b => ⟨fun depth p => ⟨?_, env.keeping_commonWithin depth p a b⟩,
    fun calls s h => ⟨?_, env.keeping_commonCounted calls s a b h⟩⟩, ?_⟩
  · exact keeping_run' (env.keeping_subtypeWithin depth p a b)
  · rw [← eq_run'_of_keeping (env.keeping_subtypeWithin _ s.pending a b)]
    exact env.keeping_subtypeCounted calls s a b h
  · intro env a b calls calls' s s' hcalls hcalls' hpending hdepth h
    have hanswer {calls : Nat} {s : Progress} (hcalls : maxRelationDepth ≤ calls + s.depth) :
        env.subtypeUnder (n := Id) true (maxRelationDepth - s.depth) s.pending a b =
          ((env.subtypeCounted calls a b).run s).1 :=
      eq_run'_of_keeping (env.keeping_subtypeCounted calls s a b hcalls)
    rw [← hanswer hcalls] at h
    rw [← hanswer hcalls']
    exact subtypeUnder_mono hpending (by omega) h

open TypeTable in
/-- Listings of integers are listings of numbers, from the empty state and from one five steps deep
in which another pair is being proved. -/
theorem relations_restore_state_listings :
    let env := withBase.env
    let listing (d : DeclRef) : Ty := .class baseTypes.listing [BaseTypes.plain d]
    let s : Progress := ⟨[], 0⟩
    let s' : Progress := ⟨[(BaseTypes.plain baseTypes.string, listing baseTypes.int)], 5⟩
    (env.subtypeCounted maxRelationDepth (listing baseTypes.int) (listing baseTypes.number)).run s =
        (env.isSubtype (listing baseTypes.int) (listing baseTypes.number), s) ∧
      ((env.subtypeCounted maxRelationDepth (listing baseTypes.int)
        (listing baseTypes.number)).run s').1 = true := by
  intro env listing s s'
  obtain ⟨hframe, hmono⟩ := relations_restore_state
  refine ⟨((hframe Id env _ _).2 maxRelationDepth s (by decide)).1, ?_⟩
  have hyes : ((env.subtypeCounted maxRelationDepth (listing baseTypes.int)
      (listing baseTypes.number)).run s).1 = true := by rfl
  exact hmono env _ _ (by decide) (by decide) (by decide) (by decide) hyes

end TypeEnv

end PklAnalysis
