import PklAnalysis.Proofs.Lattice.VaguerMeets

/-!
# Aliases and what they stand for

The relations replace an alias by what it expands to only after their shortcuts, which look at the
types as they stand.  An alias and its expansion therefore have the same answers about a type,
unless one of the two expands to `nothing` and the other one to `nothing`, the unknown type or a
type parameter: `TypeEnv.interchangeable_expand_iff`.
-/

namespace PklAnalysis

/-- Whether a shortcut settles all questions about a type: it is free, or has no values. -/
def Ty.IsExtreme (t : Ty) : Prop := t.isFree = true ∨ t = .nothing

instance (t : Ty) : Decidable t.IsExtreme := inferInstanceAs (Decidable (_ ∨ _))

namespace TypeEnv

/-! ## Common subtypes with an open end -/

section Evaluation

variable {m n : Type → Type} [Monad m] [Monad n] [MonadLiftT m n] (env : TypeEnv m)

/-- Common subtypes down to a depth, with what happens beyond it left open. -/
def commonWith [MonadStateOf Pending n] (beyond : n Bool) : Nat → Ty → Ty → n Bool
  | depth, a, b =>
    match commonShortcut a b with
    | .holds => pure true
    | .fails => pure false
    | .open =>
      match depth with
      | 0 => beyond
      | depth + 1 => env.commonStep (env.subtypeWith beyond depth) (commonWith beyond depth) a b

/-- Beyond its depth the relation answers yes. -/
theorem commonWithin_eq (depth : Nat) (a b : Ty) :
    env.commonWithin depth a b = env.commonWith (pure true) depth a b := by
  induction depth generalizing a b with
  | zero =>
    unfold commonWithin commonWith
    cases commonShortcut a b <;> rfl
  | succ depth ih =>
    have hsub : env.subtypeWithin depth = env.subtypeWith (pure true) depth :=
      funext fun a => funext fun b => env.subtypeWithin_eq depth a b
    have hcommon : env.commonWithin depth = env.commonWith (pure true) depth :=
      funext fun a => funext fun b => ih a b
    unfold commonWithin commonWith
    cases commonShortcut a b with
    | holds => rfl
    | fails => rfl
    | «open» =>
      exact congrArg₂ (fun sub common => env.commonStep sub common a b) hsub hcommon

end Evaluation

variable (env : TypeEnv Id)

/-- The answer about common subtypes of a pair does not depend on the depth: with no answer beyond
it there is one. -/
def SettledCommon (a b : Ty) : Prop :=
  ((env.commonWith (failure : OptionT (StateM Pending) Bool) maxRelationDepth a b).run.run
    []).1.isSome

instance (a b : Ty) : Decidable (env.SettledCommon a b) := inferInstanceAs (Decidable (_ = true))

/-- The answer about common subtypes that is found down to a depth, if there is one. -/
def commonOutcome : Nat → Ty → Ty → Option Bool
  | depth, a, b =>
    match commonShortcut a b with
    | .holds => some true
    | .fails => some false
    | .open =>
      match depth with
      | 0 => none
      | depth + 1 => env.commonStep (env.subtypeUnder none depth []) (commonOutcome depth) a b

/-- The answer about common subtypes is found at some depth. -/
def CommonIs (a b : Ty) (v : Bool) : Prop := ∃ depth, env.commonOutcome depth a b = some v

theorem commonWith_rel (depth : Nat) (a b : Ty) :
    (settling []).Rel (env.commonWith failure depth a b) (env.commonOutcome depth a b) := by
  have hbeyond : ∀ p, (settling p).Rel failure (none : Option Bool) := fun _ => ⟨rfl, nofun⟩
  induction depth generalizing a b with
  | zero =>
    rw [commonWith, commonOutcome]
    cases commonShortcut a b with
    | holds => exact (settling []).pure true
    | fails => exact (settling []).pure false
    | «open» => exact hbeyond []
  | succ depth ih =>
    have hsub := env.subtypeWith_rel settling hbeyond settling_whilePending depth []
    rw [commonWith, commonOutcome]
    cases commonShortcut a b with
    | holds => exact (settling []).pure true
    | fails => exact (settling []).pure false
    | «open» => exact (settling []).commonStep env hsub ih a b

/-- What is found is the answer that the relation gives. -/
theorem commonOutcome_agree (depth : Nat) (a b : Ty) :
    agreeing.Rel (env.commonOutcome depth a b) (env.commonUnder depth [] a b) := by
  induction depth generalizing a b with
  | zero =>
    rw [commonOutcome, commonUnder]
    cases commonShortcut a b with
    | holds => exact agreeing.pure true
    | fails => exact agreeing.pure false
    | «open» =>
      intro w hw
      cases hw
  | succ depth ih =>
    rw [commonOutcome, commonUnder]
    cases commonShortcut a b with
    | holds => exact agreeing.pure true
    | fails => exact agreeing.pure false
    | «open» =>
      exact agreeing.commonStep env (fun x y _ h => env.subtypeUnder_agree h) ih a b

/-! ## More depth -/

/-- A computation that has the answer of another one, if that has one. -/
def growing : Correspondence Id Option Option where
  Rel o o' := ∀ v, o = some v → o' = some v
  pure _ _ h := h
  bind {_ _ o o' f f'} ho hf := by
    intro w hw
    obtain ⟨a, ha, hw⟩ := Option.bind_eq_some_iff.mp hw
    exact Option.bind_eq_some_iff.mpr ⟨a, ho a ha, hf a w hw⟩
  lift _ _ h := h

theorem subtypeUnder_grows (depth : Nat) (p : Pending) (a b : Ty) :
    growing.Rel (env.subtypeUnder none depth p a b) (env.subtypeUnder none (depth + 1) p a b) := by
  induction depth generalizing p a b with
  | zero =>
    rw [subtypeUnder, subtypeUnder]
    cases subtypeShortcut a b with
    | holds => exact growing.pure true
    | fails => exact growing.pure false
    | «open» =>
      intro v hv
      cases hv
  | succ depth ih =>
    rw [subtypeUnder, subtypeUnder]
    cases subtypeShortcut a b with
    | holds => exact growing.pure true
    | fails => exact growing.pure false
    | «open» =>
      simp only
      split
      · exact growing.pure true
      · exact growing.subtypeStep env (ih _) a b

theorem commonOutcome_grows (depth : Nat) (a b : Ty) :
    growing.Rel (env.commonOutcome depth a b) (env.commonOutcome (depth + 1) a b) := by
  induction depth generalizing a b with
  | zero =>
    rw [commonOutcome, commonOutcome]
    cases commonShortcut a b with
    | holds => exact growing.pure true
    | fails => exact growing.pure false
    | «open» => exact fun v hv => nomatch hv
  | succ depth ih =>
    rw [commonOutcome, commonOutcome]
    cases commonShortcut a b with
    | holds => exact growing.pure true
    | fails => exact growing.pure false
    | «open» => exact growing.commonStep env (env.subtypeUnder_grows depth []) ih a b

variable {env}

theorem commonOutcome_mono {depth depth' : Nat} (hdepth : depth ≤ depth') {a b : Ty} {v : Bool}
    (h : env.commonOutcome depth a b = some v) : env.commonOutcome depth' a b = some v := by
  induction hdepth with
  | refl => exact h
  | step _ ih => exact env.commonOutcome_grows _ a b v ih

theorem CommonIs.unique {a b : Ty} {v w : Bool} (hv : env.CommonIs a b v)
    (hw : env.CommonIs a b w) : v = w := by
  obtain ⟨depth, hv⟩ := hv
  obtain ⟨depth', hw⟩ := hw
  have hv' := commonOutcome_mono (Nat.le_max_left depth depth') hv
  have hw' := commonOutcome_mono (Nat.le_max_right depth depth') hw
  exact Option.some.inj (hv'.symm.trans hw')

/-- An answer that does not depend on the depth is found. -/
theorem SettledCommon.commonIs {a b : Ty} (h : env.SettledCommon a b) :
    env.CommonIs a b (env.haveCommonSubtype a b) := by
  have hsome : (env.commonOutcome maxRelationDepth a b).isSome := by
    rw [← (env.commonWith_rel maxRelationDepth a b).1]
    exact h
  obtain ⟨v, hv⟩ := Option.isSome_iff_exists.mp hsome
  refine ⟨maxRelationDepth, ?_⟩
  rw [haveCommonSubtype_eq, env.commonOutcome_agree maxRelationDepth a b v hv, hv]

/-! ## Rules for single answers -/

theorem commonIs_of_holds {a b : Ty} (h : commonShortcut a b = .holds) : env.CommonIs a b true :=
  ⟨0, by rw [commonOutcome, h]⟩

theorem commonIs_of_fails {a b : Ty} (h : commonShortcut a b = .fails) : env.CommonIs a b false :=
  ⟨0, by rw [commonOutcome, h]⟩

/-- Where no shortcut settles a pair, the answer is that of the step. -/
theorem commonIs_iff_step {a b : Ty} {v : Bool} (h : commonShortcut a b = .open) :
    env.CommonIs a b v ↔ ∃ depth, env.commonStep (env.subtypeUnder none depth [])
      (env.commonOutcome depth) a b = some v := by
  constructor
  · rintro ⟨depth, hv⟩
    cases depth with
    | zero =>
      rw [commonOutcome, h] at hv
      exact nomatch hv
    | succ depth =>
      rw [commonOutcome, h] at hv
      exact ⟨depth, hv⟩
  · rintro ⟨depth, hv⟩
    exact ⟨depth + 1, by rw [commonOutcome, h]; exact hv⟩

/-! ## Expansion -/

variable {d : DeclRef} {args : List Ty}

/-- Expansion ends at a type that is no alias. -/
theorem expand_ne_typeAlias (t : Ty) (e : DeclRef) (bs : List Ty) :
    env.expand t ≠ .typeAlias e bs := by
  have hfrom (n : Nat) (seen : List Site) (t : Ty) :
      env.expandFrom? n seen t ≠ some (.typeAlias e bs) := by
    induction n generalizing seen t with
    | zero => cases t <;> simp [expandFrom?]
    | succ n ih =>
      cases t with
      | typeAlias d args =>
        rw [expandFrom?_alias]
        split
        · exact (Option.some_ne_none _).symm
        · exact ih _ _
      | _ => simp [expandFrom?]
  rw [expand_eq]
  cases hx : env.expand? t with
  | none => exact Ty.noConfusion
  | some x =>
    intro h
    exact hfrom _ _ _ (hx.trans (congrArg some h))

theorem expand_of_ne_typeAlias {t : Ty} (h : ∀ e bs, t ≠ .typeAlias e bs) : env.expand t = t := by
  cases t with
  | typeAlias e bs => exact absurd rfl (h e bs)
  | _ => rfl

/-! ## Subtyping -/

theorem subtype_of_holds {a b : Ty} (h : subtypeShortcut a b = .holds) : env.Subtype a b := by
  rw [subtype_iff, Follows, h]
  trivial

theorem subtype_nothing_iff {a : Ty} : env.Subtype a .nothing ↔ a.IsExtreme := by
  constructor
  · intro h
    have hfollows := h.follows
    rw [Follows] at hfollows
    cases hshort : subtypeShortcut a .nothing with
    | holds =>
      rcases subtypeShortcut_holds_iff.mp hshort with h | h | h | h
      · exact .inr h
      · exact .inl h
      · cases h
      · exact .inr h
    | fails => simp [hshort] at hfollows
    | «open» => exact absurd rfl (subtypeShortcut_open_iff.mp hshort).2.2.2.2
  · intro h
    exact subtype_of_holds (subtypeShortcut_holds_iff.mpr (h.elim (fun h => .inr (.inl h)) .inl))

theorem subtype_of_isExtreme {a b : Ty} (h : a.IsExtreme) : env.Subtype a b :=
  subtype_of_holds (subtypeShortcut_holds_iff.mpr
    (h.elim (fun h => .inr (.inl h)) fun h => .inr (.inr (.inr h))))

/-- A type that is no alias is below an alias exactly if it is below what the alias expands to. -/
theorem subtype_typeAlias_right_iff {a : Ty} (ha : ∀ e bs, a ≠ .typeAlias e bs) :
    env.Subtype a (.typeAlias d args) ↔ env.Subtype a (env.expand (.typeAlias d args)) := by
  cases hshort : subtypeShortcut a (.typeAlias d args) with
  | holds =>
    have hextreme : a.IsExtreme := by
      rcases subtypeShortcut_holds_iff.mp hshort with h | h | h | h
      · exact absurd h (ha d args)
      · exact .inl h
      · exact nomatch h
      · exact .inr h
    exact iff_of_true (subtype_of_isExtreme hextreme) (subtype_of_isExtreme hextreme)
  | fails => exact nomatch eq_nothing_of_subtypeShortcut hshort
  | «open» =>
    rw [subtype_iff, Follows, hshort]
    cases a with
    | typeAlias e bs => exact absurd rfl (ha e bs)
    | _ => exact Iff.rfl

/-- An alias is below a type that is not `nothing` exactly if what it expands to is. -/
theorem subtype_typeAlias_left_iff {t : Ty} : env.Subtype (.typeAlias d args) t ↔
    t ≠ .nothing ∧ env.Subtype (env.expand (.typeAlias d args)) t := by
  cases hshort : subtypeShortcut (.typeAlias d args) t with
  | holds =>
    refine iff_of_true (subtype_of_holds hshort) ?_
    rcases subtypeShortcut_holds_iff.mp hshort with rfl | h | h | h
    · exact ⟨nofun, (subtype_typeAlias_right_iff (expand_ne_typeAlias _)).mpr (.refl _)⟩
    · exact nomatch h
    · refine ⟨?_, subtype_of_holds (subtypeShortcut_holds_iff.mpr (.inr (.inr (.inl h))))⟩
      rintro rfl
      exact nomatch h
    · exact nomatch h
  | fails =>
    rw [subtype_iff, Follows, hshort, eq_nothing_of_subtypeShortcut hshort]
    exact iff_of_false id fun h => h.1 rfl
  | «open» =>
    rw [subtype_iff, Follows, hshort, and_iff_right (subtypeShortcut_open_iff.mp hshort).2.2.2.2]
    exact Iff.rfl

/-! ## Common subtypes -/

theorem commonShortcut_nothing (a : Ty) : commonShortcut a .nothing = .fails := by
  cases a <;> rfl

theorem commonStep_typeAlias {sub common : Ty → Ty → Option Bool} {a : Ty}
    (ha : ∀ e bs, a ≠ .typeAlias e bs) : env.commonStep sub common a (.typeAlias d args) =
      common a (env.expand (.typeAlias d args)) := by
  cases a with
  | typeAlias e bs => exact absurd rfl (ha e bs)
  | _ => rfl

/-- A type that is no alias has the same answer about an alias as about what this expands to, unless
the type is free and the alias has no values. -/
theorem CommonIs.expand_right {a : Ty} {v : Bool} (h : env.CommonIs a (.typeAlias d args) v)
    (ha : ∀ e bs, a ≠ .typeAlias e bs)
    (hclash : env.expand (.typeAlias d args) = .nothing → a.isFree = false) :
    env.CommonIs a (env.expand (.typeAlias d args)) v := by
  cases hshort : commonShortcut a (.typeAlias d args) with
  | holds =>
    obtain rfl := h.unique (commonIs_of_holds hshort)
    obtain ⟨hne, -, hfree⟩ := commonShortcut_holds_iff.mp hshort
    have hfree : a.isFree = true := (hfree.resolve_right fun h => h.elim nofun (ha d args))
    refine commonIs_of_holds (commonShortcut_holds_iff.mpr ⟨hne, fun hnothing => ?_, .inl hfree⟩)
    exact Bool.false_ne_true ((hclash hnothing).symm.trans hfree)
  | fails =>
    obtain rfl := h.unique (commonIs_of_fails hshort)
    obtain rfl := (eq_nothing_of_commonShortcut hshort).resolve_right nofun
    exact commonIs_of_fails rfl
  | «open» =>
    obtain ⟨depth, hstep⟩ := (commonIs_iff_step hshort).mp h
    rw [commonStep_typeAlias ha] at hstep
    exact ⟨depth, hstep⟩

/-- What an alias expands to has a subtype in common with the alias, if it has values. -/
theorem commonIs_expand_self (h : env.expand (.typeAlias d args) ≠ .nothing) :
    env.CommonIs (env.expand (.typeAlias d args)) (.typeAlias d args) true := by
  cases hshort : commonShortcut (env.expand (.typeAlias d args)) (.typeAlias d args) with
  | holds => exact commonIs_of_holds hshort
  | fails => exact absurd ((eq_nothing_of_commonShortcut hshort).resolve_right nofun) h
  | «open» =>
    -- the step replaces the alias, and a type with values has itself as a common subtype
    have hself : commonShortcut (env.expand (.typeAlias d args)) (env.expand (.typeAlias d args))
        = .holds := commonShortcut_holds_iff.mpr ⟨h, h, .inr (.inr rfl)⟩
    refine (commonIs_iff_step hshort).mpr ⟨0, ?_⟩
    rw [commonStep_typeAlias (expand_ne_typeAlias _), commonOutcome, hself]

/-- An alias has the same answer about a type as what it expands to, unless the alias has no values
and the type is free or the alias itself. -/
theorem CommonIs.expand_left {t : Ty} {v : Bool} (h : env.CommonIs (.typeAlias d args) t v)
    (hclash : env.expand (.typeAlias d args) = .nothing →
      t.isFree = false ∧ t ≠ .typeAlias d args) :
    env.CommonIs (env.expand (.typeAlias d args)) t v := by
  cases hshort : commonShortcut (.typeAlias d args) t with
  | holds =>
    obtain rfl := h.unique (commonIs_of_holds hshort)
    obtain ⟨-, hne, hfree⟩ := commonShortcut_holds_iff.mp hshort
    rcases hfree with hfree | hfree | rfl
    · exact nomatch hfree
    · refine commonIs_of_holds (commonShortcut_holds_iff.mpr
        ⟨fun hnothing => ?_, hne, .inr (.inl hfree)⟩)
      exact Bool.false_ne_true ((hclash hnothing).1.symm.trans hfree)
    · exact commonIs_expand_self fun hnothing => (hclash hnothing).2 rfl
  | fails =>
    obtain rfl := h.unique (commonIs_of_fails hshort)
    obtain rfl := (eq_nothing_of_commonShortcut hshort).resolve_left nofun
    exact commonIs_of_fails (commonShortcut_nothing _)
  | «open» =>
    obtain ⟨depth, hstep⟩ := (commonIs_iff_step hshort).mp h
    exact ⟨depth, hstep⟩

/-! ## Interchangeable types -/

variable (env) in
/-- Two types have the same answers about a third one. -/
structure Interchangeable (a a' t : Ty) : Prop where
  below : env.isSubtype a t = env.isSubtype a' t
  above : env.isSubtype t a = env.isSubtype t a'
  common : env.haveCommonSubtype a t = env.haveCommonSubtype a' t
  common' : env.haveCommonSubtype t a = env.haveCommonSubtype t a'

variable (env) in
/-- No answer about two types depends on the depth. -/
structure Settles (a t : Ty) : Prop where
  below : env.Settled a t
  above : env.Settled t a
  common : env.SettledCommon a t
  common' : env.SettledCommon t a

/-- One of two types is `nothing` and the other one is extreme. -/
def Clash (a b : Ty) : Prop := a = .nothing ∧ b.IsExtreme ∨ b = .nothing ∧ a.IsExtreme

instance (a b : Ty) : Decidable (Clash a b) := inferInstanceAs (Decidable (_ ∨ _))

theorem isSubtype_iff {a b : Ty} (h : env.Settled a b) :
    env.isSubtype a b = true ↔ env.Subtype a b :=
  ⟨fun hab => subtype_of_isSubtype hab h, isSubtype_of_subtype⟩

section Alias

variable {t : Ty} (halias : env.Settles (.typeAlias d args) t)
variable (hexpand : env.Settles (env.expand (.typeAlias d args)) t)
include halias hexpand

/-- An alias may be replaced in all questions about a type if it does not clash with it. -/
theorem interchangeable_of_not_clash
    (hclash : ¬Clash (env.expand (.typeAlias d args)) (env.expand t)) :
    env.Interchangeable (.typeAlias d args) (env.expand (.typeAlias d args)) t := by
  have hleft : env.expand (.typeAlias d args) = .nothing → ¬(env.expand t).IsExtreme :=
    fun h h' => hclash (.inl ⟨h, h'⟩)
  have hright : env.expand t = .nothing → ¬(env.expand (.typeAlias d args)).IsExtreme :=
    fun h h' => hclash (.inr ⟨h, h'⟩)
  -- what is free or the alias itself expands to something extreme if the alias has no values
  have hfree : env.expand (.typeAlias d args) = .nothing →
      t.isFree = false ∧ t ≠ .typeAlias d args := by
    refine fun hnothing => ⟨eq_false_of_ne_true fun h => hleft hnothing (.inl ?_), ?_⟩
    · rwa [expand_of_ne_typeAlias fun e bs he => by rw [he] at h; exact nomatch h]
    · rintro rfl
      exact hleft hnothing (.inr hnothing)
  refine ⟨?_, ?_, ?_, ?_⟩
  · -- only `nothing` tells the alias from its expansion
    rw [Bool.eq_iff_iff, isSubtype_iff halias.below, isSubtype_iff hexpand.below,
      subtype_typeAlias_left_iff, and_iff_right_iff_imp]
    rintro h rfl
    exact hright rfl (subtype_nothing_iff.mp h)
  · rw [Bool.eq_iff_iff, isSubtype_iff halias.above, isSubtype_iff hexpand.above]
    by_cases ht : ∃ e bs, t = .typeAlias e bs
    · obtain ⟨e, bs, rfl⟩ := ht
      rw [subtype_typeAlias_left_iff, subtype_typeAlias_left_iff,
        subtype_typeAlias_right_iff (expand_ne_typeAlias _), and_iff_right nofun,
        iff_and_self]
      intro h hnothing
      rw [hnothing] at h
      exact hleft hnothing (subtype_nothing_iff.mp h)
    · exact subtype_typeAlias_right_iff fun e bs he => ht ⟨e, bs, he⟩
  · exact (halias.common.commonIs.expand_left hfree).unique hexpand.common.commonIs
  · have hcommon := halias.common'.commonIs
    by_cases ht : ∃ e bs, t = .typeAlias e bs
    · obtain ⟨e, bs, rfl⟩ := ht
      -- both answers are that about the two expansions
      have hexpansions := (hcommon.expand_left fun h => ⟨rfl, fun he => ?_⟩).expand_right
        (expand_ne_typeAlias _) fun h => eq_false_of_ne_true fun h' => hleft h (.inl h')
      · refine hexpansions.unique (hexpand.common'.commonIs.expand_left fun h => ⟨?_, ?_⟩)
        · exact eq_false_of_ne_true fun h' => hright h (.inl h')
        · exact expand_ne_typeAlias _ e bs
      · rw [he] at hright
        exact hright h (.inr h)
    · have ht (e : DeclRef) (bs : List Ty) : t ≠ .typeAlias e bs := fun he => ht ⟨e, bs, he⟩
      exact (hcommon.expand_right ht fun h => (hfree h).1).unique hexpand.common'.commonIs

/-- An alias may not be replaced in all questions about a type that it clashes with. -/
theorem not_interchangeable_of_clash
    (hclash : Clash (env.expand (.typeAlias d args)) (env.expand t)) :
    ¬env.Interchangeable (.typeAlias d args) (env.expand (.typeAlias d args)) t := by
  rintro ⟨hbelow, habove, hcommon, hcommon'⟩
  rw [Bool.eq_iff_iff, isSubtype_iff halias.below, isSubtype_iff hexpand.below] at hbelow
  rw [Bool.eq_iff_iff, isSubtype_iff halias.above, isSubtype_iff hexpand.above] at habove
  by_cases ht : ∃ e bs, t = .typeAlias e bs
  · obtain ⟨e, bs, rfl⟩ := ht
    by_cases hE : env.expand (.typeAlias d args) = .nothing
    · -- the other alias is below this one, but not below `nothing`
      have hextreme : (env.expand (.typeAlias e bs)).IsExtreme :=
        hclash.elim And.right fun h => .inr h.1
      rw [hE] at habove
      have hno := habove.mp (subtype_typeAlias_left_iff.mpr ⟨nofun, subtype_of_isExtreme hextreme⟩)
      exact (subtype_typeAlias_left_iff.mp hno).1 rfl
    · -- the other alias has no subtype in common with this one, but with what this expands to
      obtain ⟨hF, hfree⟩ := hclash.resolve_left fun h => hE h.1
      have hfree := hfree.resolve_right hE
      have hno := halias.common'.commonIs.expand_left fun h =>
        ⟨rfl, fun he => hE (by rw [he, h])⟩
      rw [hF] at hno
      have hyes : env.CommonIs (.typeAlias e bs) (env.expand (.typeAlias d args)) true :=
        commonIs_of_holds (commonShortcut_holds_iff.mpr ⟨nofun, hE, .inr (.inl hfree)⟩)
      rw [hno.unique (commonIs_of_fails rfl), hexpand.common'.commonIs.unique hyes] at hcommon'
      exact nomatch hcommon'
  · have ht (e : DeclRef) (bs : List Ty) : t ≠ .typeAlias e bs := fun he => ht ⟨e, bs, he⟩
    rw [expand_of_ne_typeAlias ht] at hclash
    by_cases hnothing : t = .nothing
    · -- what the alias expands to is below `nothing`, the alias is not
      subst hnothing
      have hextreme : (env.expand (.typeAlias d args)).IsExtreme :=
        hclash.elim (fun h => .inr h.1) And.right
      exact (subtype_typeAlias_left_iff.mp
        (hbelow.mpr (subtype_of_isExtreme hextreme))).1 rfl
    · -- the alias has a subtype in common with a free type, `nothing` has none
      obtain ⟨hE, hfree⟩ := hclash.resolve_right fun h => hnothing h.1
      have hfree := hfree.resolve_right hnothing
      have hyes : env.CommonIs (.typeAlias d args) t true :=
        commonIs_of_holds (commonShortcut_holds_iff.mpr ⟨nofun, hnothing, .inr (.inl hfree)⟩)
      have hno := hexpand.common.commonIs
      rw [hE] at hno
      rw [halias.common.commonIs.unique hyes, hE, hno.unique (commonIs_of_fails rfl)] at hcommon
      exact nomatch hcommon

/-- An alias and what it expands to have the same answers about a type, unless one of the two types
expands to `nothing` and the other one to `nothing`, the unknown type or a type parameter. -/
theorem interchangeable_expand_iff :
    env.Interchangeable (.typeAlias d args) (env.expand (.typeAlias d args)) t ↔
      ¬Clash (env.expand (.typeAlias d args)) (env.expand t) :=
  ⟨fun h hclash => not_interchangeable_of_clash halias hexpand hclash h,
    interchangeable_of_not_clash halias hexpand⟩

end Alias

end TypeEnv

/-! ## Aliases of a union and of `nothing` -/

namespace TypeTable

/-- The base table with an alias for strings and numbers. -/
def withScalar : DeclRef × TypeTable :=
  let t := withBase
  t.addAlias "Scalar" (.union [t.base.stringType, .class t.base.number []])

/-- The base table with an alias for the type without values. -/
def withNever : DeclRef × TypeTable := withBase.addAlias "Never" .nothing

/-- The alias of the union may be replaced in questions about an optional number. -/
theorem interchangeable_scalar :
    let env := withScalar.2.env
    let scalar : Ty := .typeAlias withScalar.1 []
    let number : Ty := .nullable (.class env.base.int [])
    env.Settles scalar number ∧ env.Settles (env.expand scalar) number ∧
      env.Interchangeable scalar (env.expand scalar) number := by
  intro env scalar number
  have halias : env.Settles scalar number :=
    ⟨by decide, by decide, by decide, by decide⟩
  have hexpand : env.Settles (env.expand scalar) number :=
    ⟨by decide, by decide, by decide, by decide⟩
  exact ⟨halias, hexpand,
    (TypeEnv.interchangeable_expand_iff halias hexpand).mpr (by decide)⟩

/-- The alias of `nothing` is not below `nothing`, though `nothing` is. -/
theorem not_forall_interchangeable_expand :
    ¬∀ (env : TypeEnv Id) (d : DeclRef) (args : List Ty) (t : Ty),
      env.Settles (.typeAlias d args) t → env.Settles (env.expand (.typeAlias d args)) t →
      env.Interchangeable (.typeAlias d args) (env.expand (.typeAlias d args)) t := by
  intro h
  have hbelow := (h withNever.2.env withNever.1 [] .nothing
    ⟨by decide, by decide, by decide, by decide⟩
    ⟨by decide, by decide, by decide, by decide⟩).below
  have hnever : ¬withNever.2.env.isSubtype (.typeAlias withNever.1 []) .nothing = true := by
    decide
  have hnothing : withNever.2.env.isSubtype
      (withNever.2.env.expand (.typeAlias withNever.1 [])) .nothing = true := by decide
  exact hnever (hbelow.trans hnothing)

end TypeTable

end PklAnalysis
