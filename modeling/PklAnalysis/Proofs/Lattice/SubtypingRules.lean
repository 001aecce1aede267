import PklAnalysis.Lattice.Subtyping

/-!
# The rules of subtyping

`TypeEnv.Follows` says when a pair of types follows from other pairs by one rule: the shortcuts come
first, then the rules for the shapes of the two types, in the order in which they are tried.
`TypeEnv.Subtype` is the greatest relation that follows from itself, so a pair may support itself
on the way through a recursive type.

The steps of subtyping and of common subtypes run in any monad over that of the environment.  A
`Correspondence` is a relation between the computations of two such monads that `pure`, `>>=` and
look-ups respect; steps over corresponding relations correspond.
-/

namespace PklAnalysis

/-- A relation between computations in two monads over a third one. -/
structure Correspondence (m n n' : Type → Type) [Monad n] [Monad n'] [MonadLiftT m n]
    [MonadLiftT m n'] where
  Rel : {α : Type} → n α → n' α → Prop
  pure : ∀ {α : Type} (a : α), Rel (Pure.pure a) (Pure.pure a)
  bind : ∀ {α β : Type} {x : n α} {x' : n' α} {f : α → n β} {f' : α → n' β},
    Rel x x' → (∀ a, Rel (f a) (f' a)) → Rel (x >>= f) (x' >>= f')
  lift : ∀ {α : Type} (x : m α), Rel (monadLift x : n α) (monadLift x : n' α)

namespace Correspondence

variable {m n n' : Type → Type} [Monad n] [Monad n'] [MonadLiftT m n] [MonadLiftT m n']
variable (c : Correspondence m n n') {α : Type}
include c

theorem and {x y : n Bool} {x' y' : n' Bool} (hx : c.Rel x x') (hy : c.Rel y y') :
    c.Rel (x <&&> y) (x' <&&> y') := by
  refine c.bind hx fun b => ?_
  cases b with
  | false => exact c.pure false
  | true => exact hy

theorem or {x y : n Bool} {x' y' : n' Bool} (hx : c.Rel x x') (hy : c.Rel y y') :
    c.Rel (x <||> y) (x' <||> y') := by
  refine c.bind hx fun b => ?_
  cases b with
  | false => exact hy
  | true => exact c.pure true

theorem allM {f : α → n Bool} {f' : α → n' Bool} (h : ∀ a, c.Rel (f a) (f' a)) (as : List α) :
    c.Rel (as.allM f) (as.allM f') := by
  induction as with
  | nil => exact c.pure true
  | cons a as ih =>
    refine c.bind (h a) fun b => ?_
    cases b with
    | false => exact c.pure false
    | true => exact ih

theorem anyM {f : α → n Bool} {f' : α → n' Bool} (h : ∀ a, c.Rel (f a) (f' a)) (as : List α) :
    c.Rel (as.anyM f) (as.anyM f') := by
  induction as with
  | nil => exact c.pure false
  | cons a as ih =>
    refine c.bind (h a) fun b => ?_
    cases b with
    | false => exact ih
    | true => exact c.pure true

variable [Monad m] (env : TypeEnv m)
variable {sub : Ty → Ty → n Bool} {sub' : Ty → Ty → n' Bool}

variable (hsub : ∀ a b, c.Rel (sub a b) (sub' a b))
include hsub

omit [Monad m] in
theorem argsSubtype (d : Option ClassDef) (ours theirs : List Ty) :
    c.Rel (TypeEnv.argsSubtype sub d ours theirs) (TypeEnv.argsSubtype sub' d ours theirs) := by
  refine c.allM (fun i => ?_) _
  cases varianceIn d i with
  | covariant => exact hsub _ _
  | contravariant => exact hsub _ _
  | invariant => exact c.and (hsub _ _) (hsub _ _)

theorem classSubtype (a : Ty) (target : DeclRef) (args : List Ty) :
    c.Rel (env.classSubtype sub a target args) (env.classSubtype sub' a target args) := by
  refine c.bind (c.lift _) fun view => ?_
  cases view with
  | none => exact c.pure false
  | some view => exact c.bind (c.lift _) fun d => c.argsSubtype hsub d view args

theorem subtypeStep (a b : Ty) : c.Rel (env.subtypeStep sub a b) (env.subtypeStep sub' a b) := by
  unfold TypeEnv.subtypeStep
  split
  · exact c.bind (c.lift _) fun t => hsub t _
  · exact c.bind (c.lift _) fun t => hsub _ t
  · exact c.allM (fun t => hsub t _) _
  · exact c.and (hsub _ _) (hsub _ _)
  · exact c.anyM (fun t => hsub _ t) _
  · split
    · exact c.pure true
    · exact hsub _ _
  · exact c.pure false
  · exact hsub _ _
  · exact c.pure false
  · split
    · exact c.and (c.allM (fun (p : Ty × Ty) => hsub p.2 p.1) _) (hsub _ _)
    · exact c.pure false
  · exact hsub _ _
  · split
    · exact c.pure false
    · refine c.bind (c.lift _) fun view => ?_
      cases view with
      | none => exact c.pure false
      | some args => exact c.and (c.allM (fun (p : Ty × Nat) => hsub p.1 _) _) (hsub _ _)
  · exact c.classSubtype env hsub _ _ _
  · exact c.pure false

section Common

variable {common : Ty → Ty → n Bool} {common' : Ty → Ty → n' Bool}
variable (hcommon : ∀ a b, c.Rel (common a b) (common' a b))
include hcommon

omit [Monad m] in
theorem argsCommon (d : Option ClassDef) (ours theirs : List Ty) :
    c.Rel (TypeEnv.argsCommon sub common d ours theirs)
      (TypeEnv.argsCommon sub' common' d ours theirs) := by
  refine c.allM (fun i => ?_) _
  cases varianceIn d i with
  | covariant => exact hcommon _ _
  | contravariant => exact c.pure true
  | invariant => exact c.and (hsub _ _) (hsub _ _)

theorem commonStep (a b : Ty) :
    c.Rel (env.commonStep sub common a b) (env.commonStep sub' common' a b) := by
  unfold TypeEnv.commonStep
  split
  · exact c.bind (c.lift _) fun t => hcommon t _
  · exact c.bind (c.lift _) fun t => hcommon _ t
  · exact c.anyM (fun t => hcommon t _) _
  · exact c.anyM (fun t => hcommon _ t) _
  · exact c.pure true
  · exact c.or (hcommon _ _) (hsub _ _)
  · exact c.or (hcommon _ _) (hsub _ _)
  · exact hsub _ _
  · exact hsub _ _
  · split
    · exact hcommon _ _
    · exact c.pure false
  · exact hcommon _ _
  · exact hcommon _ _
  · refine c.bind (c.lift _) fun view => ?_
    cases view with
    | some view => exact c.bind (c.lift _) fun d => c.argsCommon hsub hcommon d _ _
    | none =>
      refine c.bind (c.lift _) fun view => ?_
      cases view with
      | some view => exact c.bind (c.lift _) fun d => c.argsCommon hsub hcommon d _ _
      | none => exact c.pure false
  · exact c.pure false

end Common

end Correspondence

/-- Whether a type is below and above every type: it is unknown or a type parameter. -/
def Ty.isFree : Ty → Bool
  | .unknown | .param _ => true
  | _ => false

namespace TypeEnv

/-! ## Shortcuts -/

theorem subtypeShortcut_holds_iff {a b : Ty} : subtypeShortcut a b = .holds ↔
    a = b ∨ a.isFree = true ∨ b.isFree = true ∨ a = .nothing := by
  unfold subtypeShortcut
  by_cases h : a = b
  · rw [if_pos h]
    exact iff_of_true rfl (.inl h)
  · rw [if_neg h, or_iff_right h]
    cases a <;> cases b <;> simp [Ty.isFree]

theorem subtypeShortcut_open_iff {a b : Ty} : subtypeShortcut a b = .open ↔
    a ≠ b ∧ a.isFree = false ∧ b.isFree = false ∧ a ≠ .nothing ∧ b ≠ .nothing := by
  unfold subtypeShortcut
  by_cases h : a = b
  · simp [h]
  · rw [if_neg h, and_iff_right h]
    cases a <;> cases b <;> simp [Ty.isFree]

theorem eq_nothing_of_subtypeShortcut {a b : Ty} (h : subtypeShortcut a b = .fails) :
    b = .nothing := by
  revert h
  unfold subtypeShortcut
  split
  · exact nofun
  · cases a <;> cases b <;> simp

theorem commonShortcut_holds_iff {a b : Ty} : commonShortcut a b = .holds ↔
    a ≠ .nothing ∧ b ≠ .nothing ∧ (a.isFree = true ∨ b.isFree = true ∨ a = b) := by
  unfold commonShortcut
  cases a <;> cases b <;> simp [Ty.isFree]

theorem commonShortcut_open_iff {a b : Ty} : commonShortcut a b = .open ↔
    a ≠ .nothing ∧ b ≠ .nothing ∧ a.isFree = false ∧ b.isFree = false ∧ a ≠ b := by
  unfold commonShortcut
  cases a <;> cases b <;> simp [Ty.isFree]

theorem eq_nothing_of_commonShortcut {a b : Ty} (h : commonShortcut a b = .fails) :
    a = .nothing ∨ b = .nothing := by
  unfold commonShortcut at h
  split at h
  · exact .inl rfl
  · exact .inr rfl
  · exact nomatch h
  · exact nomatch h
  · exact nomatch h
  · exact nomatch h
  · split at h <;> exact nomatch h

/-! ## The rules -/

variable (env : TypeEnv Id)

/-- The arguments of a class agree with those of the same class, each as its parameter varies. -/
def ArgsFollow (X : Ty → Ty → Prop) (c : Option ClassDef) (ours theirs : List Ty) : Prop :=
  ∀ i < max ours.length theirs.length,
    match varianceIn c i with
    | .covariant => X (argAt ours i) (argAt theirs i)
    | .contravariant => X (argAt theirs i) (argAt ours i)
    | .invariant => X (argAt ours i) (argAt theirs i) ∧ X (argAt theirs i) (argAt ours i)

theorem ArgsFollow.refl {X : Ty → Ty → Prop} (hX : ∀ t, X t t) (c : Option ClassDef)
    (args : List Ty) : ArgsFollow X c args args := by
  intro i _
  cases varianceIn c i with
  | covariant => exact hX _
  | contravariant => exact hX _
  | invariant => exact ⟨hX _, hX _⟩

/-- A class seen as a class of functions has the given parameters and result. -/
def FunctionFollows (X : Ty → Ty → Prop) (args ps : List Ty) (r : Ty) : Prop :=
  (∀ e ∈ ps.zipIdx, X e.1 (argAt args e.2)) ∧ X (argAt args ps.length) r

/-- Two types that no shortcut settles follow by the rule for their shapes. -/
def ShapesFollow (X : Ty → Ty → Prop) (a b : Ty) : Prop :=
  match a, b with
  | .typeAlias .., _ => X (env.expand a) b
  | _, .typeAlias .. => X a (env.expand b)
  | .union ms, _ => ∀ t ∈ ms, X t b
  | .nullable t, _ => X t b ∧ X env.base.nullType b
  | _, .union ms => ∃ t ∈ ms, X a t
  | _, .nullable t => env.base.isNull a = true ∨ X a t
  | .literal _, .literal _ => False
  | .literal _, _ => X env.base.stringType b
  | _, .literal _ => False
  | .function ps r, .function qs s =>
    ps.length = qs.length ∧ (∀ e ∈ ps.zip qs, X e.2 e.1) ∧ X r s
  | .function ps r, .class .. => X (env.base.functionView ps r) b
  | .class .., .function ps r =>
    ∃ f, env.base.functions[ps.length]? = some f ∧
      ∃ args, env.asSupertype? a f = some args ∧ FunctionFollows X args ps r
  | .class .., .class target args =>
    ∃ view, env.asSupertype? a target = some view ∧
      ArgsFollow X (env.classDef target) view args
  | _, _ => False

/-- A pair of types follows from the pairs of `X` by a rule. -/
def Follows (X : Ty → Ty → Prop) (a b : Ty) : Prop :=
  match subtypeShortcut a b with
  | .holds => True
  | .fails => False
  | .open => env.ShapesFollow X a b

/-- The rules read coinductively: a pair is in some relation all of whose pairs follow from it. -/
def Subtype (a b : Ty) : Prop :=
  ∃ R : Ty → Ty → Prop, (∀ x y, R x y → env.Follows R x y) ∧ R a b

/-! ## More premises -/

section Mono

variable {X Y : Ty → Ty → Prop} (h : ∀ a b, X a b → Y a b)
include h

theorem ArgsFollow.mono {c : Option ClassDef} {ours theirs : List Ty}
    (hX : ArgsFollow X c ours theirs) : ArgsFollow Y c ours theirs := by
  intro i hi
  have hXi := hX i hi
  revert hXi
  cases varianceIn c i with
  | covariant => exact h _ _
  | contravariant => exact h _ _
  | invariant => exact And.imp (h _ _) (h _ _)

theorem FunctionFollows.mono {args ps : List Ty} {r : Ty} (hX : FunctionFollows X args ps r) :
    FunctionFollows Y args ps r :=
  ⟨fun e he => h _ _ (hX.1 e he), h _ _ hX.2⟩

variable {env}

theorem ShapesFollow.mono {a b : Ty} (hX : env.ShapesFollow X a b) : env.ShapesFollow Y a b := by
  unfold ShapesFollow at hX ⊢
  split at hX
  · exact h _ _ hX
  · exact h _ _ hX
  · exact fun t ht => h _ _ (hX t ht)
  · exact ⟨h _ _ hX.1, h _ _ hX.2⟩
  · obtain ⟨t, ht, hX⟩ := hX
    exact ⟨t, ht, h _ _ hX⟩
  · exact hX.imp_right (h _ _)
  · exact hX.elim
  · exact h _ _ hX
  · exact hX.elim
  · exact ⟨hX.1, fun e he => h _ _ (hX.2.1 e he), h _ _ hX.2.2⟩
  · exact h _ _ hX
  · obtain ⟨f, hf, args, hargs, hX⟩ := hX
    exact ⟨f, hf, args, hargs, hX.mono h⟩
  · obtain ⟨view, hview, hX⟩ := hX
    exact ⟨view, hview, hX.mono h⟩
  · exact hX.elim

theorem Follows.mono {a b : Ty} (hX : env.Follows X a b) : env.Follows Y a b := by
  unfold Follows at hX ⊢
  split at hX
  · trivial
  · exact hX.elim
  · exact hX.mono h

end Mono

/-- What follows from subtyping is subtyping, and nothing else is. -/
theorem subtype_iff {env : TypeEnv Id} {a b : Ty} :
    env.Subtype a b ↔ env.Follows env.Subtype a b := by
  constructor
  · rintro ⟨R, hR, hab⟩
    exact (hR a b hab).mono fun x y hxy => ⟨R, hR, hxy⟩
  · intro h
    refine ⟨env.Follows env.Subtype, fun x y hxy => hxy.mono fun u v huv => ?_, h⟩
    obtain ⟨R, hR, huv⟩ := huv
    exact (hR u v huv).mono fun x y hxy => ⟨R, hR, hxy⟩

theorem Subtype.follows {env : TypeEnv Id} {a b : Ty} (h : env.Subtype a b) :
    env.Follows env.Subtype a b := subtype_iff.mp h

theorem Subtype.refl {env : TypeEnv Id} (a : Ty) : env.Subtype a a :=
  subtype_iff.mpr (by simp [Follows, subtypeShortcut])

/-! ## The rules and the steps -/

theorem allM_iff {α : Type} (f : α → Id Bool) (as : List α) :
    as.allM f = true ↔ ∀ a ∈ as, f a = true := by
  induction as with
  | nil => simp [List.allM, pure]
  | cons a as ih =>
    rw [List.forall_mem_cons, ← ih]
    change (match f a with | true => as.allM f | false => false) = true ↔ _
    cases f a <;> simp

theorem anyM_iff {α : Type} (f : α → Id Bool) (as : List α) :
    as.anyM f = true ↔ ∃ a ∈ as, f a = true := by
  induction as with
  | nil => simp [List.anyM, pure]
  | cons a as ih =>
    simp only [List.mem_cons, exists_eq_or_imp, ← ih]
    change (match f a with | true => true | false => as.anyM f) = true ↔ _
    cases f a <;> simp

theorem andM_iff (x y : Id Bool) : (x <&&> y) = true ↔ x = true ∧ y = true := by
  cases x with
  | false => exact ⟨fun h => (Bool.false_ne_true h).elim, And.left⟩
  | true => exact ⟨fun h => ⟨rfl, h⟩, And.right⟩

theorem argsSubtype_iff (sub : Ty → Ty → Id Bool) (c : Option ClassDef) (ours theirs : List Ty) :
    argsSubtype sub c ours theirs = true ↔
      ArgsFollow (fun a b => sub a b = true) c ours theirs := by
  rw [argsSubtype, allM_iff, ArgsFollow]
  refine forall_congr' fun i => imp_congr List.mem_range ?_
  cases varianceIn c i with
  | covariant => exact Iff.rfl
  | contravariant => exact Iff.rfl
  | invariant => exact andM_iff _ _

theorem classSubtype_iff (sub : Ty → Ty → Id Bool) (a : Ty) (target : DeclRef) (args : List Ty) :
    env.classSubtype sub a target args = true ↔ ∃ view, env.asSupertype? a target = some view ∧
      ArgsFollow (fun a b => sub a b = true) (env.classDef target) view args := by
  have hany : env.classSubtype sub a target args = (env.asSupertype? a target : Option _).any
      fun view => argsSubtype sub (env.classDef target) view args := by
    change (match env.asSupertype? a target with | none => _ | some view => _) = Option.any _ _
    cases env.asSupertype? a target <;> rfl
  rw [hany]
  exact (Option.any_eq_true _ _).trans
    (exists_congr fun view => and_congr_right fun _ => argsSubtype_iff sub _ view args)

/-- The step of a class below a function type. -/
theorem functionStep_iff (sub : Ty → Ty → Id Bool) (d : DeclRef) (as ps : List Ty) (r : Ty) :
    env.subtypeStep sub (.class d as) (.function ps r) = true ↔
      ∃ f, env.base.functions[ps.length]? = some f ∧
        ∃ args, env.asSupertype? (.class d as) f = some args ∧
          FunctionFollows (fun a b => sub a b = true) args ps r := by
  have hany : env.subtypeStep sub (.class d as) (.function ps r) =
      env.base.functions[ps.length]?.any fun f =>
        (env.asSupertype? (.class d as) f : Option _).any fun args =>
          (ps.zipIdx.allM (m := Id) fun e => sub e.1 (argAt args e.2)) <&&>
            sub (argAt args ps.length) r := by
    rw [subtypeStep]
    cases env.base.functions[ps.length]? with
    | none => rfl
    | some f =>
      change (match env.asSupertype? (.class d as) f with | none => _ | some args => _) =
        Option.any _ (some f)
      rw [Option.any_some]
      cases env.asSupertype? (.class d as) f <;> rfl
  rw [hany]
  refine (Option.any_eq_true _ _).trans (exists_congr fun f => and_congr_right fun _ => ?_)
  refine (Option.any_eq_true _ _).trans (exists_congr fun args => and_congr_right fun _ => ?_)
  exact (andM_iff _ _).trans (and_congr_left' (allM_iff _ _))

/-- The step of a decided relation takes the rules for shapes. -/
theorem subtypeStep_iff (sub : Ty → Ty → Id Bool) (a b : Ty) :
    env.subtypeStep sub a b = true ↔ env.ShapesFollow (fun a b => sub a b = true) a b := by
  fun_cases ShapesFollow env (fun a b => sub a b = true) a b
  case case12 => exact env.functionStep_iff sub _ _ _ _
  all_goals simp only [subtypeStep]
  case case1 | case2 => exact Iff.rfl
  case case3 => exact allM_iff _ _
  case case4 => exact andM_iff _ _
  case case5 => exact anyM_iff _ _
  case case6 => cases env.base.isNull a <;> simp [pure]
  case case10 ps r qs s =>
    split
    · next h => rw [andM_iff, allM_iff, and_iff_right h]
    · next h => exact ⟨fun h => (Bool.false_ne_true h).elim, fun hand => (h hand.1).elim⟩
  case case13 => exact env.classSubtype_iff sub _ _ _
  case case7 | case9 | case14 => exact ⟨Bool.false_ne_true, False.elim⟩

end TypeEnv

end PklAnalysis
