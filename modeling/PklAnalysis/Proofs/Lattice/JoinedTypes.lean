import PklAnalysis.Proofs.Lattice.TakingApart

/-!
# Joined types

Two types are joined if the steps of the evaluation of common subtypes, taken in any order, lead to
types that touch or to ends that have a common subtype: `TypeEnv.Joined`.  The steps can be
exchanged, so whichever of them the evaluation takes next leads to types that are joined again.
-/

namespace PklAnalysis

namespace TypeEnv

variable (env : TypeEnv Id)

/-- What an alias stands for, or the members of a union. -/
def choices : Ty → List Ty
  | .typeAlias d args => [env.unfold d args]
  | .union ms => ms
  | _ => []

/-- Two types have a common subtype whichever comes first, if `Null` is below the types of `N`. -/
inductive Touches (N : Ty → Prop) : Ty → Ty → Prop
  | freeLeft {x : Ty} (h : x.isFree = true) (y : Ty) : Touches N x y
  | freeRight (x : Ty) {y : Ty} (h : y.isFree = true) : Touches N x y
  | nullables (s t : Ty) : Touches N (.nullable s) (.nullable t)
  | nullLeft (s : Ty) {y : Ty} (hy : y.isHead = true) (h : N y) : Touches N (.nullable s) y
  | nullRight {x : Ty} (hx : x.isHead = true) (h : N x) (t : Ty) : Touches N x (.nullable t)
  | alike {x y z : Ty} (hx : x.Vaguer env.base z) (hy : y.Vaguer env.base z) : Touches N x y

/-- Two types lead to a common subtype by the steps of the evaluation, if the ends of `E` have one.
As in the evaluation, a question mark behind the second type makes the types change places. -/
inductive Joined (N : Ty → Prop) (E : Ty → Ty → Prop) : Ty → Ty → Prop
  | touch {x y : Ty} (h : env.Touches N x y) : Joined N E x y
  | ends {x y : Ty} (hx : x.isHead = true) (hy : y.isHead = true) (h : E x y) : Joined N E x y
  | choiceLeft {x y w : Ty} (hw : w ∈ env.choices x) (h : Joined N E w y) : Joined N E x y
  | choiceRight {x y w : Ty} (hw : w ∈ env.choices y) (h : Joined N E x w) : Joined N E x y
  | contentLeft {t y : Ty} (h : Joined N E t y) : Joined N E (.nullable t) y
  | contentRight {t x : Ty} (h : Joined N E t x) : Joined N E x (.nullable t)

variable {env} {N : Ty → Prop} {E : Ty → Ty → Prop}

/-! ## Types that touch -/

theorem choices_of_isHead {t : Ty} (h : t.isHead = true) : env.choices t = [] := by
  cases t <;> first | rfl | exact (Bool.false_ne_true h).elim

theorem Touches.symm {x y : Ty} (h : env.Touches N x y) : env.Touches N y x := by
  cases h with
  | freeLeft h => exact .freeRight y h
  | freeRight _ h => exact .freeLeft h x
  | nullables s t => exact .nullables t s
  | nullLeft s hy h => exact .nullRight hy h s
  | nullRight hx h t => exact .nullLeft t hx h
  | alike hx hy => exact .alike hy hx

/-- Two types are joined whichever comes first. -/
def JoinedBoth (env : TypeEnv Id) (N : Ty → Prop) (E : Ty → Ty → Prop) (x y : Ty) : Prop :=
  env.Joined N E x y ∧ env.Joined N E y x

theorem Touches.joinedBoth {x y : Ty} (h : env.Touches N x y) : env.JoinedBoth N E x y :=
  ⟨.touch h, .touch h.symm⟩

theorem JoinedBoth.symm {x y : Ty} (h : env.JoinedBoth N E x y) : env.JoinedBoth N E y x :=
  And.symm h

theorem JoinedBoth.choice {x y w : Ty} (hw : w ∈ env.choices x) (h : env.JoinedBoth N E w y) :
    env.JoinedBoth N E x y :=
  ⟨.choiceLeft hw h.1, .choiceRight hw h.2⟩

/-- What is joined to a leaf of a type is joined to the type. -/
theorem JoinedBoth.of_leaf {x y k : Ty} (hk : k ∈ x.leaves env.base)
    (hkNull : env.base.isNull k = false) (h : env.JoinedBoth N E k y) :
    env.JoinedBoth N E x y := by
  induction x using Ty.byParts with
  | nothing => exact (List.not_mem_nil hk).elim
  | nullable t ih =>
    rcases List.mem_cons.mp hk with rfl | hk
    · exact absurd Ty.isNull_nullType (by rw [hkNull]; exact nofun)
    · exact ⟨.contentLeft (ih hk).1, .contentRight (ih hk).1⟩
  | union ms ih =>
    rw [Ty.leaves, Ty.mem_leavesOfAll] at hk
    obtain ⟨m, hm, hk⟩ := hk
    exact (ih m hm hk).choice hm
  | unknown | class_ | typeAlias | function | literal | param =>
    rw [Ty.leaves_of_isLeaf rfl, List.mem_singleton] at hk
    exact hk ▸ h

/-- Of two types that are vaguer than a third, the one has a leaf like any leaf of the other. -/
theorem exists_alike_leaf {x y z k : Ty} (hx : x.Vaguer env.base z) (hy : y.Vaguer env.base z)
    (hk : k ∈ x.leaves env.base) (hkNull : env.base.isNull k = false) (hkUnknown : k ≠ .unknown) :
    y = .unknown ∨ ∃ k' ∈ y.leaves env.base, env.base.isNull k' = false ∧
      ∃ l, Ty.SameLeaf (Ty.Vaguer env.base) k l ∧ Ty.SameLeaf (Ty.Vaguer env.base) k' l := by
  obtain ⟨l, hl, hsame⟩ := (hx.exists_leaf hk).resolve_left hkUnknown
  refine (hy.exists_vaguer_leaf hl).imp_right fun ⟨k', hk', hsame'⟩ =>
    ⟨k', hk', ?_, l, hsame, hsame'⟩
  exact hsame'.isNull_eq.trans (hsame.isNull_eq.symm.trans hkNull)

/-- What is vaguer than the same type as `x` is joined to the members of `x`. -/
theorem joinedBoth_of_alike {x y z k : Ty} (hx : x.Vaguer env.base z) (hy : y.Vaguer env.base z)
    (hk : k ∈ x.leaves env.base) (hmember : k.isMember env.base = true) :
    env.JoinedBoth N E k y := by
  obtain ⟨-, hkUnknown, hkNull⟩ := Ty.isMember_iff.mp hmember
  rcases exists_alike_leaf hx hy hk hkNull hkUnknown with
    rfl | ⟨k', hk', hk'Null, l, hsame, hsame'⟩
  · exact Touches.joinedBoth (.freeRight k rfl)
  · have htouch : env.JoinedBoth N E k' k :=
      Touches.joinedBoth (.alike hsame'.vaguer hsame.vaguer)
    exact (htouch.of_leaf hk' hk'Null).symm

/-- Of a type that touches another one and has choices, one is joined to the other type. -/
theorem Touches.choice (henv : env.IsRegular) {x y : Ty} (h : env.Touches N x y)
    (hx : x.isNormal env.base = true) (hne : env.choices x ≠ []) :
    ∃ w ∈ env.choices x, env.JoinedBoth N E w y := by
  obtain ⟨w, hw⟩ := List.exists_mem_of_ne_nil _ hne
  cases h with
  | freeLeft h => cases x <;> first | exact absurd rfl hne | exact (Bool.false_ne_true h).elim
  | freeRight _ h => exact ⟨w, hw, Touches.joinedBoth (.freeRight w h)⟩
  | nullables | nullLeft => exact absurd rfl hne
  | nullRight hhead => exact absurd (choices_of_isHead hhead) hne
  | @alike x y z hxz hyz =>
    cases x with
    | union ms =>
      refine ⟨w, hw, joinedBoth_of_alike hxz hyz ?_ ((Ty.isNormal_union hx).2 w hw).1⟩
      rwa [Ty.leaves_union hx]
    | typeAlias d args =>
      refine ⟨_, List.mem_singleton_self _, ?_⟩
      rcases exists_alike_leaf hxz hyz (List.mem_singleton_self _) rfl nofun with
        rfl | ⟨k', hk', hk'Null, l, hsame, hsame'⟩
      · exact Touches.joinedBoth (.freeRight _ rfl)
      -- both types are the alias that the third one has, with vaguer arguments
      obtain ⟨bs, rfl, hargs⟩ := hsame.of_typeAlias
      obtain ⟨as, rfl, hargs'⟩ := hsame'.to_typeAlias
      have htouch : env.JoinedBoth N E (env.unfold d as) (env.unfold d args) :=
        Touches.joinedBoth (.alike (henv.vaguer_unfold hargs' d) (henv.vaguer_unfold hargs d))
      exact ((htouch.choice (List.mem_singleton_self _)).of_leaf hk' hk'Null).symm
    | _ => exact absurd rfl hne

/-! ## Exchanging steps -/

theorem isNormal_of_mem_choices (henv : env.IsRegular) {t w : Ty}
    (ht : t.isNormal env.base = true) (hw : w ∈ env.choices t) : w.isNormal env.base = true := by
  cases t with
  | union ms => exact ((Ty.isNormal_union ht).2 w hw).2
  | typeAlias d args =>
    rw [List.mem_singleton.mp hw]
    exact henv.isNormal_unfold (Ty.areNormal_iff.mp ht) d
  | _ => exact (List.not_mem_nil hw).elim

/-- Whichever of two joined types has choices, one of them is joined in its place. -/
theorem Joined.choice (henv : env.IsRegular) {x y : Ty} (h : env.Joined N E x y)
    (hx : x.isNormal env.base = true) (hy : y.isNormal env.base = true) :
    (env.choices x ≠ [] → ∃ w ∈ env.choices x, env.Joined N E w y) ∧
      (env.choices y ≠ [] → ∃ w ∈ env.choices y, env.Joined N E x w) := by
  induction h with
  | touch h =>
    refine ⟨fun hne => ?_, fun hne => ?_⟩
    · obtain ⟨w, hw, h⟩ := h.choice henv hx hne
      exact ⟨w, hw, h.1⟩
    · obtain ⟨w, hw, h⟩ := h.symm.choice henv hy hne
      exact ⟨w, hw, h.2⟩
  | ends hxHead hyHead =>
    exact ⟨fun hne => absurd (choices_of_isHead hxHead) hne,
      fun hne => absurd (choices_of_isHead hyHead) hne⟩
  | choiceLeft hw h ih =>
    refine ⟨fun _ => ⟨_, hw, h⟩, fun hne => ?_⟩
    obtain ⟨v, hv, hjoined⟩ := (ih (isNormal_of_mem_choices henv hx hw) hy).2 hne
    exact ⟨v, hv, .choiceLeft hw hjoined⟩
  | choiceRight hw h ih =>
    refine ⟨fun hne => ?_, fun _ => ⟨_, hw, h⟩⟩
    obtain ⟨v, hv, hjoined⟩ := (ih hx (isNormal_of_mem_choices henv hy hw)).1 hne
    exact ⟨v, hv, .choiceRight hw hjoined⟩
  | contentLeft _ ih =>
    refine ⟨fun hne => absurd rfl hne, fun hne => ?_⟩
    obtain ⟨v, hv, hjoined⟩ := (ih (Ty.isNormal_nullable.mp hx).1 hy).2 hne
    exact ⟨v, hv, .contentLeft hjoined⟩
  | contentRight _ ih =>
    refine ⟨fun hne => ?_, fun hne => absurd rfl hne⟩
    obtain ⟨v, hv, hjoined⟩ := (ih (Ty.isNormal_nullable.mp hy).1 hx).2 hne
    exact ⟨v, hv, .contentRight hjoined⟩

theorem Joined.expand_left (henv : env.IsRegular) {x y : Ty} (h : env.Joined N E x y)
    (hx : x.isNormal env.base = true) (hy : y.isNormal env.base = true) :
    env.Joined N E (env.expand x) y := by
  rw [expand_eq]
  cases hz : env.expand? x with
  | none => exact .touch (.freeLeft rfl y)
  | some z =>
    have hunfolds := unfolds_of_expandFrom? hz
    clear hz
    induction hunfolds with
    | done => exact h
    | @step d args _ _ ih =>
      obtain ⟨w, hw, h⟩ := (h.choice henv hx hy).1 (List.cons_ne_nil _ _)
      cases List.mem_singleton.mp hw
      exact ih h (henv.isNormal_unfold (Ty.areNormal_iff.mp hx) d)

theorem Joined.expand_right (henv : env.IsRegular) {x y : Ty} (h : env.Joined N E x y)
    (hx : x.isNormal env.base = true) (hy : y.isNormal env.base = true) :
    env.Joined N E x (env.expand y) := by
  rw [expand_eq]
  cases hz : env.expand? y with
  | none => exact .touch (.freeRight x rfl)
  | some z =>
    have hunfolds := unfolds_of_expandFrom? hz
    clear hz
    induction hunfolds with
    | done => exact h
    | @step d args _ _ ih =>
      obtain ⟨w, hw, h⟩ := (h.choice henv hx hy).2 (List.cons_ne_nil _ _)
      cases List.mem_singleton.mp hw
      exact ih h (henv.isNormal_unfold (Ty.areNormal_iff.mp hy) d)

/-- What stands before a question mark is joined to an end that the type is joined to, or `Null` is
below that end. -/
theorem Joined.content_left {t y : Ty} (h : env.Joined N E (.nullable t) y)
    (ht : (Ty.nullable t).isNormal env.base = true) (hy : y.isHead = true) :
    env.Joined N E t y ∨ N y := by
  cases h with
  | ends hx => exact (Bool.false_ne_true hx).elim
  | choiceLeft hw => exact (List.not_mem_nil hw).elim
  | choiceRight hw =>
    rw [choices_of_isHead hy] at hw
    exact (List.not_mem_nil hw).elim
  | contentLeft h => exact .inl h
  | contentRight => exact (Bool.false_ne_true hy).elim
  | touch h =>
    cases h with
    | freeLeft h => exact (Bool.false_ne_true h).elim
    | freeRight _ h => exact .inl (.touch (.freeRight t h))
    | nullables => exact (Bool.false_ne_true hy).elim
    | nullLeft _ _ h => exact .inr h
    | nullRight hx => exact (Bool.false_ne_true hx).elim
    | alike htz hyz =>
      obtain ⟨k, hk, hmember⟩ := Ty.exists_member ht
      have hjoined : env.JoinedBoth N E k y :=
        joinedBoth_of_alike htz hyz (List.mem_cons_of_mem _ hk) hmember
      exact .inl (hjoined.of_leaf hk (Ty.isMember_iff.mp hmember).2.2).1

/-- The same if the question mark is behind the second type, which changes places. -/
theorem Joined.content_right {t x : Ty} (h : env.Joined N E x (.nullable t))
    (ht : (Ty.nullable t).isNormal env.base = true) (hx : x.isHead = true) :
    env.Joined N E t x ∨ N x := by
  cases h with
  | ends _ ht => exact (Bool.false_ne_true ht).elim
  | choiceLeft hw =>
    rw [choices_of_isHead hx] at hw
    exact (List.not_mem_nil hw).elim
  | choiceRight hw => exact (List.not_mem_nil hw).elim
  | contentLeft => exact (Bool.false_ne_true hx).elim
  | contentRight h => exact .inl h
  | touch h => exact (Joined.touch h.symm).content_left ht hx

end TypeEnv

end PklAnalysis
