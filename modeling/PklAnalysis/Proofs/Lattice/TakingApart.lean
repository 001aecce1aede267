import PklAnalysis.Proofs.Lattice.FirmAnswers

/-!
# Firm pairs taken apart

What a type opens to at the end is below the types that the type is firmly below, or it is one of
the types that these open to: `TypeEnv.below_of_opens`.  The second type can be taken apart as well,
down to a leaf or what an alias stands for, and so can a vaguer type in its place.
-/

namespace PklAnalysis

theorem Ty.SameLeaf.isFree_eq {X : Ty → Ty → Prop} {l' l : Ty} (h : SameLeaf X l' l) :
    l'.isFree = l.isFree := by
  unfold SameLeaf at h
  split at h <;> first | rfl | exact h.elim

namespace TypeEnv

variable (env : TypeEnv Id)

/-- A type is firmly below another one, or is one of the types that this opens to. -/
def Below (u b : Ty) : Prop := env.FirmSubtype u b ∨ env.Opens b u

/-- A type is vaguer than one that something is below. -/
def AboveSome (u b' : Ty) : Prop :=
  ∃ b, b'.Vaguer env.base b ∧ env.Below u b

variable {env}

/-! ## Firm pairs -/

theorem firmSubtype_of_holds {a b : Ty} (h : subtypeShortcut a b = .holds) :
    env.FirmSubtype a b := by
  rw [firmSubtype_iff, FirmlyFollows, h]
  trivial

theorem firmSubtype_of_isFree_left {a b : Ty} (h : a.isFree = true) : env.FirmSubtype a b :=
  firmSubtype_of_holds (subtypeShortcut_holds_iff.mpr (.inr (.inl h)))

theorem firmSubtype_of_isFree_right {a b : Ty} (h : b.isFree = true) : env.FirmSubtype a b :=
  firmSubtype_of_holds (subtypeShortcut_holds_iff.mpr (.inr (.inr (.inl h))))

/-- A firm pair is one that a shortcut lets pass, or the rule for its shapes settles it. -/
theorem FirmSubtype.cases {a b : Ty} (h : env.FirmSubtype a b) :
    a = b ∨ a.isFree = true ∨ b.isFree = true ∨ a = .nothing ∨
      (b ≠ .nothing ∧ env.replaces a b = true ∧ env.ShapesFollow env.FirmSubtype a b) := by
  have hfollows := firmSubtype_iff.mp h
  rw [FirmlyFollows] at hfollows
  cases hshort : subtypeShortcut a b with
  | holds => exact (subtypeShortcut_holds_iff.mp hshort).imp_right (.imp_right (.imp_right .inl))
  | fails => simp [hshort] at hfollows
  | «open» =>
    simp only [hshort] at hfollows
    obtain ⟨-, -, -, -, hb⟩ := subtypeShortcut_open_iff.mp hshort
    exact .inr (.inr (.inr (.inr ⟨hb, hfollows⟩)))

/-- Any pair but one that a shortcut refuses is firm if its rule holds. -/
theorem firmSubtype_of_rule {a b : Ty} (hb : b ≠ .nothing)
    (h : env.replaces a b = true ∧ env.ShapesFollow env.FirmSubtype a b) :
    env.FirmSubtype a b := by
  rw [firmSubtype_iff, FirmlyFollows]
  cases hshort : subtypeShortcut a b with
  | holds => trivial
  | «open» => exact h
  | fails => exact hb (eq_nothing_of_subtypeShortcut hshort)

theorem ne_typeAlias_of_isHead {t : Ty} (h : t.isHead = true) (d : DeclRef) (args : List Ty) :
    t ≠ .typeAlias d args := by
  rintro rfl
  exact Bool.false_ne_true h

/-! ## Aliases -/

theorem expand_of_expand? {t x : Ty} (h : env.expand? t = some x) : env.expand t = x := by
  rw [expand_eq, h, Option.getD_some]

/-- What an alias expands to may be below a type in its place. -/
theorem firmSubtype_of_expand?_left {a x b : Ty} (ha : env.expand? a = some x) (hb : b ≠ .nothing)
    (h : env.FirmSubtype x b) : env.FirmSubtype a b := by
  cases a with
  | typeAlias d args =>
    refine firmSubtype_of_rule hb ⟨by rw [replaces, ha, Option.isSome_some], ?_⟩
    rwa [← expand_of_expand? ha] at h
  | _ => exact Option.some.inj ha ▸ h

/-- A type may be below an alias in the place of what this expands to. -/
theorem firmSubtype_of_expand?_right {a b x : Ty} (ha : ∀ d args, a ≠ .typeAlias d args)
    (hb : env.expand? b = some x) (h : env.FirmSubtype a x) : env.FirmSubtype a b := by
  cases b with
  | typeAlias d args =>
    rw [← expand_of_expand? hb] at h
    cases a with
    | typeAlias e bs => exact absurd rfl (ha e bs)
    | _ =>
      exact firmSubtype_of_rule nofun ⟨by rw [replaces, hb, Option.isSome_some]; exact nofun, h⟩
  | _ => exact Option.some.inj hb ▸ h

/-- If a type that is no alias is firmly below another one, it is so below what that expands to. -/
theorem FirmSubtype.exists_expand? {a b : Ty} (h : env.FirmSubtype a b)
    (ha : ∀ d args, a ≠ .typeAlias d args) (hfree : a.isFree = false) (hnothing : a ≠ .nothing) :
    ∃ x, env.expand? b = some x ∧ env.FirmSubtype a x := by
  cases b with
  | typeAlias d args =>
    rcases h.cases with rfl | hf | hf | hn | ⟨-, hreplaces, hrule⟩
    · exact absurd rfl (ha d args)
    · exact absurd hf (by rw [hfree]; exact nofun)
    · exact absurd hf nofun
    · exact absurd hn hnothing
    · have hsome : (env.expand? (.typeAlias d args)).isSome = true := by
        cases a with
        | typeAlias e bs => exact absurd rfl (ha e bs)
        | _ => exact hreplaces
      obtain ⟨x, hx⟩ := Option.isSome_iff_exists.mp hsome
      refine ⟨x, hx, ?_⟩
      rw [← expand_of_expand? hx]
      cases a with
      | typeAlias e bs => exact absurd rfl (ha e bs)
      | _ => exact hrule
  | _ => exact ⟨_, rfl, h⟩

/-- If an alias is firmly below another type, so is what it stands for. -/
theorem FirmSubtype.unfold_left {d : DeclRef} {args : List Ty} {b : Ty}
    (h : env.FirmSubtype (.typeAlias d args) b) :
    b = .typeAlias d args ∨ env.FirmSubtype (env.unfold d args) b := by
  rcases h.cases with rfl | hf | hf | hn | ⟨hb, hreplaces, hrule⟩
  · exact .inl rfl
  · exact absurd hf nofun
  · exact .inr (firmSubtype_of_isFree_right hf)
  · exact nomatch hn
  · obtain ⟨x, hx⟩ := Option.isSome_iff_exists.mp
      (show (env.expand? (.typeAlias d args)).isSome = true from hreplaces)
    refine .inr (firmSubtype_of_expand?_left (expand?_unfold hx) hb ?_)
    rw [← expand_of_expand? hx]
    exact hrule

/-! ## Taking the first type apart -/

/-- If a union is firmly below a type that is no alias, so are its members, or it is that type. -/
theorem FirmSubtype.members {ms : List Ty} {b : Ty} (h : env.FirmSubtype (.union ms) b)
    (hb : ∀ d args, b ≠ .typeAlias d args) :
    .union ms = b ∨ ∀ m ∈ ms, env.FirmSubtype m b := by
  rcases h.cases with rfl | hf | hf | hn | ⟨-, -, hrule⟩
  · exact .inl rfl
  · exact absurd hf nofun
  · exact .inr fun m _ => firmSubtype_of_isFree_right hf
  · exact nomatch hn
  · refine .inr ?_
    cases b with
    | typeAlias d args => exact absurd rfl (hb d args)
    | _ => exact hrule

/-- If a type with a question mark is firmly below a type that is no alias, so are the type and
`Null`, or it is that type. -/
theorem FirmSubtype.content {t b : Ty} (h : env.FirmSubtype (.nullable t) b)
    (hb : ∀ d args, b ≠ .typeAlias d args) :
    .nullable t = b ∨ (env.FirmSubtype t b ∧ env.FirmSubtype env.base.nullType b) := by
  rcases h.cases with rfl | hf | hf | hn | ⟨-, -, hrule⟩
  · exact .inl rfl
  · exact absurd hf nofun
  · exact .inr ⟨firmSubtype_of_isFree_right hf, firmSubtype_of_isFree_right hf⟩
  · exact nomatch hn
  · refine .inr ?_
    cases b with
    | typeAlias d args => exact absurd rfl (hb d args)
    | _ => exact hrule

/-- What a type opens to at the end is below any type that the type is firmly below, or firmly below
what that expands to. -/
theorem below_of_opens {a b u : Ty} (hu : env.Opens a u) (hhead : u.isHead = true)
    (h : env.FirmSubtype a b ∨ ∃ x, env.expand? b = some x ∧ env.FirmSubtype a x) :
    env.Below u b := by
  induction hu with
  | refl u =>
    rcases h with h | ⟨x, hx, h⟩
    · exact .inl h
    · exact .inl (firmSubtype_of_expand?_right (ne_typeAlias_of_isHead hhead) hx h)
  | unfold hu ih =>
    rcases h with h | ⟨x, hx, h⟩
    · rcases h.unfold_left with rfl | h
      · exact .inr (.unfold hu)
      · exact ih hhead (.inl h)
    · rcases h.unfold_left with rfl | h
      · exact absurd rfl ((unfolds_of_expandFrom? hx).ne_typeAlias _ _)
      · exact ih hhead (.inr ⟨x, hx, h⟩)
  | member hm hu ih =>
    obtain ⟨x, hx, h⟩ : ∃ x, env.expand? b = some x ∧ env.FirmSubtype (.union _) x :=
      h.elim (fun h => h.exists_expand? nofun rfl nofun) id
    have hx' := unfolds_of_expandFrom? hx
    rcases h.members hx'.ne_typeAlias with rfl | h
    · exact .inr (hx'.opens.trans (.member hm hu))
    · exact ih hhead (.inr ⟨x, hx, h _ hm⟩)
  | content hu ih =>
    obtain ⟨x, hx, h⟩ : ∃ x, env.expand? b = some x ∧ env.FirmSubtype (.nullable _) x :=
      h.elim (fun h => h.exists_expand? nofun rfl nofun) id
    have hx' := unfolds_of_expandFrom? hx
    rcases h.content hx'.ne_typeAlias with rfl | h
    · exact .inr (hx'.opens.trans (.content hu))
    · exact ih hhead (.inr ⟨x, hx, h.1⟩)
  | null t =>
    obtain ⟨x, hx, h⟩ : ∃ x, env.expand? b = some x ∧ env.FirmSubtype (.nullable _) x :=
      h.elim (fun h => h.exists_expand? nofun rfl nofun) id
    have hx' := unfolds_of_expandFrom? hx
    rcases h.content hx'.ne_typeAlias with rfl | h
    · exact .inr (hx'.opens.trans (.null t))
    · exact .inl (firmSubtype_of_expand?_right nofun hx h.2)

/-! ## Taking the second type apart -/

section Head

variable {u : Ty} (hu : u.isHead = true)
include hu

theorem Below.nullable {t : Ty} (h : env.Below u (.nullable t)) :
    env.base.isNull u = true ∨ env.Below u t := by
  rcases h with h | h
  · rcases h.cases with rfl | hf | hf | rfl | ⟨-, -, hrule⟩
    · exact (Bool.false_ne_true hu).elim
    · exact .inr (.inl (firmSubtype_of_isFree_left hf))
    · exact (Bool.false_ne_true hf).elim
    · exact (Bool.false_ne_true hu).elim
    · cases u <;> first | exact (Bool.false_ne_true hu).elim | exact hrule.imp_right .inl
  · cases h with
    | refl => exact (Bool.false_ne_true hu).elim
    | content h => exact .inr (.inr h)
    | null => exact .inl (decide_eq_true rfl)

theorem Below.union {ms : List Ty} (hne : ms ≠ []) (h : env.Below u (.union ms)) :
    ∃ m ∈ ms, env.Below u m := by
  rcases h with h | h
  · rcases h.cases with rfl | hf | hf | rfl | ⟨-, -, hrule⟩
    · exact (Bool.false_ne_true hu).elim
    · obtain ⟨m, hm⟩ := List.exists_mem_of_ne_nil ms hne
      exact ⟨m, hm, .inl (firmSubtype_of_isFree_left hf)⟩
    · exact (Bool.false_ne_true hf).elim
    · exact (Bool.false_ne_true hu).elim
    · obtain ⟨m, hm, h⟩ : ∃ m ∈ ms, env.FirmSubtype u m := by
        cases u <;> first | exact (Bool.false_ne_true hu).elim | exact hrule
      exact ⟨m, hm, .inl h⟩
  · cases h with
    | refl => exact (Bool.false_ne_true hu).elim
    | member hm h => exact ⟨_, hm, .inr h⟩

theorem Below.unfold {d : DeclRef} {args : List Ty} (h : env.Below u (.typeAlias d args)) :
    env.Below u (env.unfold d args) := by
  rcases h with h | h
  · cases hfree : u.isFree with
    | true => exact .inl (firmSubtype_of_isFree_left hfree)
    | false =>
      have hnothing : u ≠ .nothing := by
        rintro rfl
        exact Bool.false_ne_true hu
      obtain ⟨x, hx, h⟩ := h.exists_expand? (ne_typeAlias_of_isHead hu) hfree hnothing
      exact .inl (firmSubtype_of_expand?_right (ne_typeAlias_of_isHead hu) (expand?_unfold hx) h)
  · cases h with
    | refl => exact (Bool.false_ne_true hu).elim
    | unfold h => exact .inr h

omit hu in
theorem Below.firmSubtype {b : Ty} (hb : b.isHead = true) (h : env.Below u b) :
    env.FirmSubtype u b := by
  rcases h with h | h
  · exact h
  · rw [h.eq_of_isHead hb]
    exact .refl b

/-- What is below a type in normal form is below a leaf of it, or it is `Null`, which a question
mark lets in. -/
theorem Below.exists_leaf {b : Ty} (hb : b.isNormal env.base = true) (h : env.Below u b) :
    (∃ l ∈ b.leaves env.base, env.Below u l) ∨
      (∃ t, b = .nullable t) ∧ env.base.isNull u = true := by
  have hunion : ∀ {ms : List Ty}, (Ty.union ms).isNormal env.base = true →
      env.Below u (.union ms) → ∃ l ∈ (Ty.union ms).leaves env.base, env.Below u l := by
    intro ms hms h
    rw [Ty.leaves_union hms]
    exact h.union hu (Ty.isNormal_union hms).1
  cases b with
  | nothing => exact (Bool.false_ne_true hb).elim
  | union ms => exact .inl (hunion hb h)
  | nullable t =>
    rcases h.nullable hu with hnull | h
    · exact .inr ⟨⟨t, rfl⟩, hnull⟩
    · obtain ⟨ht, hcontent⟩ := Ty.isNormal_nullable.mp hb
      refine .inl ?_
      cases t with
      | union ms =>
        obtain ⟨l, hl, h⟩ := hunion ht h
        exact ⟨l, List.mem_cons_of_mem _ hl, h⟩
      | nothing | nullable => exact (Bool.false_ne_true hcontent).elim
      | _ => exact ⟨_, List.mem_cons_of_mem _ (List.mem_singleton_self _), h⟩
  | _ => exact .inl ⟨_, List.mem_singleton_self _, h⟩

end Head

/-! ## Below something vaguer -/

section Vaguer

variable {u : Ty} (hu : u.isHead = true)
include hu

/-- A type that is vaguer than one above `u` has a leaf that is, if it has no question mark. -/
theorem AboveSome.exists_leaf {b' : Ty} (h : env.AboveSome u b') (hunknown : b' ≠ .unknown)
    (hnullable : ∀ t, b' ≠ .nullable t) : ∃ l' ∈ b'.leaves env.base, ∃ l,
      Ty.SameLeaf (Ty.Vaguer env.base) l' l ∧ env.Below u l := by
  obtain ⟨b, hvague, h⟩ := h
  rcases h.exists_leaf hu hvague.isNormal_right with ⟨l, hl, h⟩ | ⟨⟨t, rfl⟩, -⟩
  · obtain ⟨l', hl', hsame⟩ := (hvague.exists_vaguer_leaf hl).resolve_left hunknown
    exact ⟨l', hl', l, hsame, h⟩
  · obtain ⟨t', rfl, -⟩ := hvague.exists_nullable_left.resolve_left hunknown
    exact absurd rfl (hnullable t')

theorem AboveSome.union {ms : List Ty} (h : env.AboveSome u (.union ms)) :
    ∃ m ∈ ms, env.AboveSome u m := by
  obtain ⟨l', hl', l, hsame, hbelow⟩ := h.exists_leaf hu nofun nofun
  obtain ⟨b, hvague, -⟩ := h
  rw [Ty.leaves_union hvague.isNormal_left] at hl'
  exact ⟨l', hl', l, hsame.vaguer, hbelow⟩

/-- A type with a question mark is vaguer than one above `u` only by way of a question mark. -/
theorem AboveSome.nullable {t' : Ty} (h : env.AboveSome u (.nullable t')) :
    env.base.isNull u = true ∨ env.AboveSome u t' := by
  obtain ⟨b, hvague, h⟩ := h
  obtain ⟨t, rfl, hcontent⟩ := hvague.exists_nullable_right
  exact (h.nullable hu).imp_right fun h => ⟨t, hcontent, h⟩

theorem AboveSome.head {b' : Ty} (h : env.AboveSome u b') (hhead : b'.isHead = true)
    (hunknown : b' ≠ .unknown) :
    ∃ l, Ty.SameLeaf (Ty.Vaguer env.base) b' l ∧ env.FirmSubtype u l := by
  have hnullable : ∀ t, b' ≠ .nullable t := by
    rintro t rfl
    exact Bool.false_ne_true hhead
  obtain ⟨l', hl', l, hsame, hbelow⟩ := h.exists_leaf hu hunknown hnullable
  rw [Ty.leaves_of_isLeaf (Ty.isLeaf_of_isHead hhead), List.mem_singleton] at hl'
  rw [hl'] at hsame
  exact ⟨l, hsame, hbelow.firmSubtype (hsame.isHead_eq.symm.trans hhead)⟩

theorem AboveSome.unfold (henv : env.IsRegular) {d : DeclRef} {args : List Ty}
    (h : env.AboveSome u (.typeAlias d args)) : env.AboveSome u (env.unfold d args) := by
  obtain ⟨l', hl', l, hsame, h⟩ := h.exists_leaf hu nofun nofun
  rw [List.mem_singleton.mp hl'] at hsame
  obtain ⟨bs, rfl, hbs⟩ := hsame.of_typeAlias
  exact ⟨_, henv.vaguer_unfold hbs d, h.unfold hu⟩

theorem AboveSome.unfolds (henv : env.IsRegular) {b' x : Ty} (hx : env.Unfolds b' x)
    (h : env.AboveSome u b') : env.AboveSome u x := by
  induction hx with
  | done => exact h
  | step _ ih => exact ih (h.unfold hu henv)

end Vaguer

end TypeEnv

end PklAnalysis
