import PklAnalysis.Proofs.Lattice.JoinedTypes
import PklAnalysis.Proofs.Lattice.VaguerSubtypes

/-!
# Common subtypes of types that say less

If two types have a common subtype by firm rules, vaguer types are joined, at their ends by types
that are vaguer than some that have one again.  Such pairs, `TypeEnv.VaguelyMeet`, follow from each
other by the rules, so they have a common subtype.
-/

namespace PklAnalysis

namespace TypeEnv

variable (env : TypeEnv Id)

/-- Two types are vaguer than two that have a common subtype by firm rules. -/
def VaguerMeeting (x y : Ty) : Prop :=
  ∃ depth a b, env.MeetsWithin depth a b ∧ x.Vaguer env.base a ∧ y.Vaguer env.base b

/-- Two joined types in normal form, whose ends are vaguer than types that meet. -/
structure VaguelyMeet (x y : Ty) : Prop where
  left : x.isNormal env.base = true
  right : y.isNormal env.base = true
  joined : env.Joined (env.Subtype env.base.nullType)
    (env.ShapesMeet env.Subtype env.VaguerMeeting) x y

/-- A property of types passes to free types, and from choices to the types that leave them. -/
structure Unravels (P : Ty → Prop) : Prop where
  free : ∀ {t}, t.isFree = true → P t
  choice : ∀ {t w}, w ∈ env.choices t → P w → P t

variable {env} {N : Ty → Prop} {E : Ty → Ty → Prop}

/-! ## Firm meetings -/

theorem ne_nothing_of_isNormal {t : Ty} (h : t.isNormal env.base = true) : t ≠ .nothing := by
  rintro rfl
  exact Bool.false_ne_true h

theorem MeetsWithin.refl (depth : Nat) {a : Ty} (h : a.isNormal env.base = true) :
    env.MeetsWithin depth a a := by
  have hholds : commonShortcut a a = .holds := commonShortcut_holds_iff.mpr
    ⟨ne_nothing_of_isNormal h, ne_nothing_of_isNormal h, .inr (.inr rfl)⟩
  unfold MeetsWithin
  simp only [hholds]

/-- A firm meeting is settled by a shortcut, or by the rule for its shapes. -/
theorem MeetsWithin.cases {depth : Nat} {a b : Ty} (h : env.MeetsWithin depth a b) :
    commonShortcut a b = .holds ∨ commonShortcut a b = .open ∧ ∃ n, depth = n + 1 ∧
      env.replaces a b = true ∧ env.ShapesMeet env.FirmSubtype (env.MeetsWithin n) a b := by
  unfold MeetsWithin at h
  cases hshort : commonShortcut a b with
  | holds => exact .inl rfl
  | fails => simp [hshort] at h
  | «open» =>
    simp only [hshort] at h
    cases depth with
    | zero => exact h.elim
    | succ n => exact .inr ⟨rfl, n, rfl, h⟩

/-- An end meets itself by the rule for its shape. -/
theorem shapesMeet_refl {l : Ty} (hl : l.isHead = true) (hfree : l.isFree = false)
    (hnormal : l.isNormal env.base = true) :
    env.ShapesMeet env.FirmSubtype (env.MeetsWithin 0) l l := by
  cases l with
  | nothing | nullable | union | typeAlias => exact (Bool.false_ne_true hl).elim
  | unknown | param => exact (Bool.false_ne_true hfree.symm).elim
  | literal s => exact .refl _
  | function ps r =>
    rw [Ty.isNormal, Bool.and_eq_true] at hnormal
    exact ⟨rfl, .refl 0 hnormal.2⟩
  | «class» c as =>
    refine .inl ⟨as, asSupertype?_self c as, fun i _ => ?_⟩
    cases varianceIn (env.classDef c) i with
    | covariant => exact .refl 0 (Ty.isNormal_argAt (Ty.areNormal_iff.mp hnormal) i)
    | contravariant => trivial
    | invariant => exact ⟨.refl _, .refl _⟩

/-! ## Ends that meet -/

section Regular

variable (henv : env.IsRegular)
include henv

/-- Arguments that are vaguer than some that can be refined to the same arguments. -/
theorem argsMeet_of_vaguer {depth : Nat} {c : Option ClassDef} {as' as bs' bs : List Ty}
    (has : Ty.Pointwise (Ty.Vaguer env.base) as' as)
    (hbs : Ty.Pointwise (Ty.Vaguer env.base) bs' bs)
    (h : ArgsMeet env.FirmSubtype (env.MeetsWithin depth) c as bs) :
    ArgsMeet env.Subtype env.VaguerMeeting c as' bs' := by
  intro i hi
  have hX := h i (by rwa [← has.1, ← hbs.1])
  revert hX
  cases varianceIn c i with
  | covariant => exact fun h => ⟨depth, _, _, h, has.argAt i, hbs.argAt i⟩
  | contravariant => exact id
  | invariant =>
    exact And.imp (·.subtype_of_vaguer henv (has.argAt i) (hbs.argAt i))
      (·.subtype_of_vaguer henv (hbs.argAt i) (has.argAt i))

/-- Two ends that are vaguer than two that meet by the rule for their shapes. -/
theorem shapesMeet_of_sameLeaf {depth : Nat} {x a y b : Ty}
    (ha : Ty.SameLeaf (Ty.Vaguer env.base) x a) (hb : Ty.SameLeaf (Ty.Vaguer env.base) y b)
    (hx : x.isHead = true) (hy : y.isHead = true) (hxFree : x.isFree = false)
    (hyFree : y.isFree = false)
    (h : env.ShapesMeet env.FirmSubtype (env.MeetsWithin depth) a b) :
    env.ShapesMeet env.Subtype env.VaguerMeeting x y := by
  have hforth (h : env.FirmSubtype a b) : env.Subtype x y :=
    h.subtype_of_vaguer henv ha.vaguer hb.vaguer
  have hback (h : env.FirmSubtype b a) : env.Subtype y x :=
    h.subtype_of_vaguer henv hb.vaguer ha.vaguer
  cases x with
  | nothing | nullable | union | typeAlias => exact (Bool.false_ne_true hx).elim
  | unknown | param => exact (Bool.false_ne_true hxFree.symm).elim
  | literal s =>
    obtain rfl := ha.of_literal
    cases y with
    | nothing | nullable | union | typeAlias => exact (Bool.false_ne_true hy).elim
    | unknown | param => exact (Bool.false_ne_true hyFree.symm).elim
    | literal t =>
      obtain rfl := hb.of_literal
      exact hforth h
    | function qs' s' =>
      obtain ⟨qs, s, rfl, -⟩ := hb.of_function
      exact hforth h
    | «class» d bs' =>
      obtain ⟨bs, rfl, -⟩ := hb.of_class
      exact hforth h
  | function ps' r' =>
    obtain ⟨ps, r, rfl, hps, hr⟩ := ha.of_function
    cases y with
    | nothing | nullable | union | typeAlias => exact (Bool.false_ne_true hy).elim
    | unknown | param => exact (Bool.false_ne_true hyFree.symm).elim
    | literal t =>
      obtain rfl := hb.of_literal
      exact hback h
    | function qs' s' =>
      obtain ⟨qs, s, rfl, hqs, hs⟩ := hb.of_function
      exact ⟨by rw [hps.1, hqs.1, h.1], depth, r, s, h.2, hr, hs⟩
    | «class» d bs' =>
      obtain ⟨bs, rfl, -⟩ := hb.of_class
      exact ⟨depth, _, _, h, vaguer_functionView hps hr, hb.vaguer⟩
  | «class» c as' =>
    obtain ⟨as, rfl, has⟩ := ha.of_class
    cases y with
    | nothing | nullable | union | typeAlias => exact (Bool.false_ne_true hy).elim
    | unknown | param => exact (Bool.false_ne_true hyFree.symm).elim
    | literal t =>
      obtain rfl := hb.of_literal
      exact hback h
    | function qs' s' =>
      obtain ⟨qs, s, rfl, hqs, hs⟩ := hb.of_function
      exact ⟨depth, _, _, h, ha.vaguer, vaguer_functionView hqs hs⟩
    | «class» d bs' =>
      obtain ⟨bs, rfl, hbs⟩ := hb.of_class
      rcases h with ⟨view, hview, h⟩ | ⟨hnone, view, hview, h⟩
      · obtain ⟨view', hview', hvague⟩ := henv.exists_vaguer_view has hview
        exact .inl ⟨view', hview', argsMeet_of_vaguer henv hvague hbs h⟩
      · obtain ⟨view', hview', hvague⟩ := henv.exists_vaguer_view hbs hview
        exact .inr ⟨henv.no_vaguer_view has hnone, view', hview',
          argsMeet_of_vaguer henv has hvague h⟩

omit henv in
/-- A property passes to what is vaguer than a type without a question mark, from what is so than a
leaf of it. -/
theorem Unravels.of_leaf {P : Ty → Prop} (hP : env.Unravels P) {x a l : Ty}
    (hx : x.Vaguer env.base a) (ha : ∀ t, a ≠ .nullable t) (hl : l ∈ a.leaves env.base)
    (h : ∀ l', Ty.SameLeaf (Ty.Vaguer env.base) l' l → P l') : P x := by
  rcases hx.exists_vaguer_leaf hl with rfl | ⟨l', hl', hsame⟩
  · exact hP.free rfl
  cases x with
  | nothing => exact (List.not_mem_nil hl').elim
  | nullable t =>
    obtain ⟨u, rfl, -⟩ := hx.exists_nullable_right
    exact absurd rfl (ha u)
  | union ms =>
    rw [Ty.leaves_union hx.isNormal_left] at hl'
    exact hP.choice hl' (h l' hsame)
  | _ => exact h _ (List.mem_singleton.mp hl' ▸ hsame)

/-- A property passes to what is vaguer than a type, from what is so than its expansion. -/
theorem Unravels.of_unfolds {P : Ty → Prop} (hP : env.Unravels P) {x a z : Ty}
    (hx : x.Vaguer env.base a) (hz : env.Unfolds a z)
    (h : ∀ x', x'.Vaguer env.base z → P x') : P x := by
  induction hz generalizing x with
  | done => exact h x hx
  | step _ ih =>
    refine hP.of_leaf hx nofun (List.mem_singleton_self _) fun l' hsame => ?_
    obtain ⟨args', rfl, hargs⟩ := hsame.to_typeAlias
    exact hP.choice (List.mem_singleton_self _) (ih (henv.vaguer_unfold hargs _) h)

omit henv in
theorem Unravels.of_member {P : Ty → Prop} (hP : env.Unravels P) {x m : Ty} {ms : List Ty}
    (hx : x.Vaguer env.base (.union ms)) (hm : m ∈ ms)
    (h : ∀ x', x'.Vaguer env.base m → P x') : P x := by
  refine hP.of_leaf hx nofun ?_ fun l' hsame => h l' hsame.vaguer
  rwa [Ty.leaves_union hx.isNormal_right]

omit henv in
theorem Unravels.of_head {P : Ty → Prop} (hP : env.Unravels P) {x l : Ty}
    (hx : x.Vaguer env.base l) (hl : l.isHead = true)
    (h : ∀ l', Ty.SameLeaf (Ty.Vaguer env.base) l' l → P l') : P x := by
  refine hP.of_leaf hx ?_ ?_ h
  · rintro t rfl
    exact Bool.false_ne_true hl
  · rw [Ty.leaves_of_isLeaf (Ty.isLeaf_of_isHead hl)]
    exact List.mem_singleton_self l

omit henv in
theorem isHead_of_isFree {t : Ty} (h : t.isFree = true) : t.isHead = true := by
  cases t <;> first | rfl | exact (Bool.false_ne_true h).elim

omit henv in
theorem unravels_left (N : Ty → Prop) (E : Ty → Ty → Prop) (y : Ty) :
    env.Unravels fun x => env.Joined N E x y :=
  ⟨fun h => .touch (.freeLeft h y), fun hw h => .choiceLeft hw h⟩

omit henv in
theorem unravels_right (N : Ty → Prop) (E : Ty → Ty → Prop) (x : Ty) :
    env.Unravels fun y => env.Joined N E x y :=
  ⟨fun h => .touch (.freeRight x h), fun hw h => .choiceRight hw h⟩

/-! ## What meets is joined -/

/-- Types that are vaguer than two ends that meet by the rule for their shapes are joined. -/
theorem joined_of_shapesMeet {depth : Nat} {x a y b : Ty} (hx : x.Vaguer env.base a)
    (hy : y.Vaguer env.base b) (ha : a.isHead = true) (hb : b.isHead = true)
    (haFree : a.isFree = false) (hbFree : b.isFree = false)
    (h : env.ShapesMeet env.FirmSubtype (env.MeetsWithin depth) a b) :
    env.Joined N (env.ShapesMeet env.Subtype env.VaguerMeeting) x y := by
  refine (unravels_left N _ y).of_head hx ha fun x' hx' => ?_
  refine (unravels_right N _ x').of_head hy hb fun y' hy' => ?_
  have hxHead : x'.isHead = true := hx'.isHead_eq.trans ha
  have hyHead : y'.isHead = true := hy'.isHead_eq.trans hb
  exact .ends hxHead hyHead (shapesMeet_of_sameLeaf henv hx' hy' hxHead hyHead
    (hx'.isFree_eq.trans haFree) (hy'.isFree_eq.trans hbFree) h)

/-- Types that are vaguer than one with a question mark and an end above `Null` are joined. -/
theorem joinedBoth_of_null {x t y b : Ty} (hx : x.Vaguer env.base (.nullable t))
    (hy : y.Vaguer env.base b) (hb : b.isHead = true) (h : env.FirmSubtype env.base.nullType b) :
    env.JoinedBoth (env.Subtype env.base.nullType) E y x := by
  have hP : env.Unravels fun y => env.JoinedBoth (env.Subtype env.base.nullType) E y x :=
    ⟨fun h => Touches.joinedBoth (.freeLeft h x), fun hw h => h.choice hw⟩
  refine hP.of_head hy hb fun y' hy' => ?_
  rcases hx.exists_nullable_left with rfl | ⟨s, rfl, -⟩
  · exact Touches.joinedBoth (.freeRight y' rfl)
  · exact Touches.joinedBoth (.nullRight (hy'.isHead_eq.trans hb)
      (h.subtype_of_vaguer henv .nullType hy'.vaguer) s)

/-- Types that are vaguer than two that meet are joined. -/
theorem joined_of_meetsWithin {depth : Nat} {x a y b : Ty} (h : env.MeetsWithin depth a b)
    (hx : x.Vaguer env.base a) (hy : y.Vaguer env.base b) :
    env.Joined (env.Subtype env.base.nullType)
      (env.ShapesMeet env.Subtype env.VaguerMeeting) x y := by
  induction depth using Nat.strongRecOn generalizing x a y b with
  | ind depth ih =>
  have hleft (y : Ty) : env.Unravels fun x => env.Joined (env.Subtype env.base.nullType)
      (env.ShapesMeet env.Subtype env.VaguerMeeting) x y := unravels_left _ _ y
  have hright : env.Unravels fun y => env.Joined (env.Subtype env.base.nullType)
      (env.ShapesMeet env.Subtype env.VaguerMeeting) x y := unravels_right _ _ x
  rcases h.cases with hholds | ⟨hopen, n, rfl, hreplaces, h⟩
  · obtain ⟨-, -, hfree | hfree | rfl⟩ := commonShortcut_holds_iff.mp hholds
    · exact (hleft y).of_head hx (isHead_of_isFree hfree) fun x' hx' =>
        .touch (.freeLeft (hx'.isFree_eq.trans hfree) y)
    · exact hright.of_head hy (isHead_of_isFree hfree) fun y' hy' =>
        .touch (.freeRight x (hy'.isFree_eq.trans hfree))
    · exact .touch (.alike hx hy)
  obtain ⟨ha, hb, haFree, hbFree, -⟩ := commonShortcut_open_iff.mp hopen
  have ih {x a y b : Ty} (h : env.MeetsWithin n a b) (hx : x.Vaguer env.base a)
      (hy : y.Vaguer env.base b) := ih n n.lt_succ_self h hx hy
  have hexpand (hsome : (env.expand? b).isSome = true) (h : env.MeetsWithin n a (env.expand b)) :
      env.Joined (env.Subtype env.base.nullType)
        (env.ShapesMeet env.Subtype env.VaguerMeeting) x y := by
    obtain ⟨z, hz⟩ := Option.isSome_iff_exists.mp hsome
    rw [expand_of_expand? hz] at h
    exact hright.of_unfolds henv hy (unfolds_of_expandFrom? hz) fun y' hy' => ih h hx hy'
  cases a with
  | nothing => exact absurd rfl ha
  | unknown | param => exact (Bool.false_ne_true haFree.symm).elim
  | typeAlias d args =>
    obtain ⟨z, hz⟩ := Option.isSome_iff_exists.mp hreplaces
    refine (hleft y).of_unfolds henv hx (unfolds_of_expandFrom? hz) fun x' hx' => ih ?_ hx' hy
    rw [← expand_of_expand? hz]
    exact h
  | union ms =>
    cases b with
    | typeAlias e bs => exact hexpand hreplaces h
    | _ =>
      obtain ⟨m, hm, h⟩ := h
      exact (hleft y).of_member hx hm fun x' hx' => ih h hx' hy
  | nullable t =>
    rcases hx.exists_nullable_left with rfl | ⟨u, rfl, hu⟩
    · exact .touch (.freeLeft rfl y)
    cases b with
    | nothing => exact absurd rfl hb
    | unknown | param => exact (Bool.false_ne_true hbFree.symm).elim
    | typeAlias e bs => exact hexpand hreplaces h
    | union ms =>
      obtain ⟨m, hm, h⟩ := h
      exact hright.of_member hy hm fun y' hy' => ih h hx hy'
    | nullable s =>
      rcases hy.exists_nullable_left with rfl | ⟨v, rfl, -⟩
      · exact .touch (.freeRight _ rfl)
      · exact .touch (.nullables u v)
    | literal | function | «class» =>
      rcases h with h | h
      · exact .contentLeft (ih h hu hy)
      · exact (joinedBoth_of_null henv hx hy rfl h).2
  | literal | function | «class» =>
    cases b with
    | nothing => exact absurd rfl hb
    | unknown | param => exact (Bool.false_ne_true hbFree.symm).elim
    | typeAlias e bs => exact hexpand hreplaces h
    | union ms =>
      obtain ⟨m, hm, h⟩ := h
      exact hright.of_member hy hm fun y' hy' => ih h hx hy'
    | nullable s =>
      rcases hy.exists_nullable_left with rfl | ⟨v, rfl, hv⟩
      · exact .touch (.freeRight _ rfl)
      rcases h with h | h
      · exact .contentRight (ih h hv hx)
      · exact (joinedBoth_of_null henv hy hx rfl h).1
    | literal | function | «class» => exact joined_of_shapesMeet henv hx hy rfl rfl haFree hbFree h

/-! ## What is joined meets -/

theorem VaguerMeeting.vaguelyMeet {x y : Ty} (h : env.VaguerMeeting x y) :
    env.VaguelyMeet x y := by
  obtain ⟨depth, a, b, h, hx, hy⟩ := h
  exact ⟨hx.isNormal_left, hy.isNormal_left, joined_of_meetsWithin henv h hx hy⟩

/-- Two joined ends meet by the rule for their shapes. -/
theorem VaguelyMeet.shapesMeet_of_isHead {x y : Ty} (h : env.VaguelyMeet x y)
    (hx : x.isHead = true) (hy : y.isHead = true) (hxFree : x.isFree = false)
    (hyFree : y.isFree = false) : env.ShapesMeet env.Subtype env.VaguelyMeet x y := by
  have hmono : env.ShapesMeet env.Subtype env.VaguerMeeting x y →
      env.ShapesMeet env.Subtype env.VaguelyMeet x y :=
    ShapesMeet.mono (fun _ _ => id) fun _ _ h => h.vaguelyMeet henv
  cases h.joined with
  | ends _ _ h => exact hmono h
  | choiceLeft hw =>
    rw [choices_of_isHead hx] at hw
    exact (List.not_mem_nil hw).elim
  | choiceRight hw =>
    rw [choices_of_isHead hy] at hw
    exact (List.not_mem_nil hw).elim
  | contentLeft => exact (Bool.false_ne_true hx).elim
  | contentRight => exact (Bool.false_ne_true hy).elim
  | touch h =>
    cases h with
    | freeLeft h => exact (Bool.false_ne_true (hxFree.symm.trans h)).elim
    | freeRight _ h => exact (Bool.false_ne_true (hyFree.symm.trans h)).elim
    | nullables | nullLeft => exact (Bool.false_ne_true hx).elim
    | nullRight => exact (Bool.false_ne_true hy).elim
    | alike hxz hyz =>
      -- the third type has a leaf that both ends match, which meets itself
      have hxMem : x ∈ x.leaves env.base := by
        rw [Ty.leaves_of_isLeaf (Ty.isLeaf_of_isHead hx)]
        exact List.mem_singleton_self x
      obtain ⟨l, hl, hxl⟩ := (hxz.exists_leaf hxMem).resolve_left (by
        rintro rfl
        exact Bool.false_ne_true hxFree.symm)
      obtain ⟨k, hk, hkl⟩ := (hyz.exists_vaguer_leaf hl).resolve_left (by
        rintro rfl
        exact Bool.false_ne_true hyFree.symm)
      rw [Ty.leaves_of_isLeaf (Ty.isLeaf_of_isHead hy), List.mem_singleton] at hk
      rw [hk] at hkl
      exact hmono (shapesMeet_of_sameLeaf henv hxl hkl hx hy hxFree hyFree
        (shapesMeet_refl (hxl.isHead_eq.symm.trans hx) (hxl.isFree_eq.symm.trans hxFree)
          hxl.isNormal.2))

/-- Two joined types meet by the rule for their shapes. -/
theorem VaguelyMeet.shapesMeet {x y : Ty} (h : env.VaguelyMeet x y)
    (hopen : commonShortcut x y = .open) : env.ShapesMeet env.Subtype env.VaguelyMeet x y := by
  obtain ⟨hx, hy, hxFree, hyFree, -⟩ := commonShortcut_open_iff.mp hopen
  obtain ⟨hxNormal, hyNormal, hjoined⟩ := h
  have hexpand : env.VaguelyMeet x (env.expand y) :=
    ⟨hxNormal, henv.isNormal_expand hyNormal, hjoined.expand_right henv hxNormal hyNormal⟩
  have hright {ms : List Ty} (he : y = .union ms) : ∃ m ∈ ms, env.VaguelyMeet x m := by
    subst he
    obtain ⟨hne, hms⟩ := Ty.isNormal_union hyNormal
    obtain ⟨m, hm, h⟩ := (hjoined.choice henv hxNormal hyNormal).2 hne
    exact ⟨m, hm, hxNormal, (hms m hm).2, h⟩
  cases x with
  | nothing => exact absurd rfl hx
  | unknown | param => exact (Bool.false_ne_true hxFree.symm).elim
  | typeAlias d args =>
    exact ⟨henv.isNormal_expand hxNormal, hyNormal, hjoined.expand_left henv hxNormal hyNormal⟩
  | union ms =>
    cases y with
    | typeAlias e bs => exact hexpand
    | _ =>
      obtain ⟨hne, hms⟩ := Ty.isNormal_union hxNormal
      obtain ⟨m, hm, h⟩ := (hjoined.choice henv hxNormal hyNormal).1 hne
      exact ⟨m, hm, (hms m hm).2, hyNormal, h⟩
  | nullable t =>
    cases y with
    | nothing => exact absurd rfl hy
    | unknown | param => exact (Bool.false_ne_true hyFree.symm).elim
    | typeAlias e bs => exact hexpand
    | union ms => exact hright rfl
    | nullable s => trivial
    | literal | function | «class» =>
      refine (hjoined.content_left hxNormal rfl).imp_left fun h => ?_
      exact ⟨(Ty.isNormal_nullable.mp hxNormal).1, hyNormal, h⟩
  | literal | function | «class» =>
    cases y with
    | nothing => exact absurd rfl hy
    | unknown | param => exact (Bool.false_ne_true hyFree.symm).elim
    | typeAlias e bs => exact hexpand
    | union ms => exact hright rfl
    | nullable s =>
      refine (hjoined.content_right hyNormal rfl).imp_left fun h => ?_
      exact ⟨(Ty.isNormal_nullable.mp hyNormal).1, hxNormal, h⟩
    | literal | function | «class» =>
      exact VaguelyMeet.shapesMeet_of_isHead henv ⟨hxNormal, hyNormal, hjoined⟩ rfl rfl rfl rfl

/-- Such pairs follow from each other. -/
theorem VaguelyMeet.meetsBy {x y : Ty} (h : env.VaguelyMeet x y) :
    env.MeetsBy env.VaguelyMeet x y := by
  rw [MeetsBy]
  cases hshort : commonShortcut x y with
  | holds => trivial
  | «open» => exact h.shapesMeet henv hshort
  | fails =>
    rcases eq_nothing_of_commonShortcut hshort with rfl | rfl
    · exact Bool.false_ne_true h.left
    · exact Bool.false_ne_true h.right

/-- Types that are vaguer than two that meet have a common subtype. -/
theorem MeetsWithin.meets_of_vaguer {depth : Nat} {x a y b : Ty} (h : env.MeetsWithin depth a b)
    (hx : x.Vaguer env.base a) (hy : y.Vaguer env.base b) : env.Meets x y :=
  ⟨env.VaguelyMeet, fun _ _ hxy => hxy.meetsBy henv,
    hx.isNormal_left, hy.isNormal_left, joined_of_meetsWithin henv h hx hy⟩

end Regular

end TypeEnv

end PklAnalysis
