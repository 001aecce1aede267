import PklAnalysis.Proofs.Lattice.NearNormal

/-!
# Laws of unions

The union of some types can be found by one pass over a stack: what stands in a union or before a
question mark is put back, what has been seen is dropped, and that something was `null` is noted on
the side.  `Ty.gather` is that pass.  `Ty.Alike` lists the laws by which two rows of types mean the
same union.  No step of the pass leaves the row that its state stands for, so a row is alike to its
union (`Ty.alike_unionOf`), and two rows are alike exactly if they have the same union.
-/

namespace PklAnalysis

namespace Ty

variable (base : BaseTypes)

/-! ## The laws -/

/-- Two rows of types mean the same union. -/
inductive Alike : List Ty → List Ty → Prop
  | refl (ts : List Ty) : Alike ts ts
  | symm {ts us : List Ty} (h : Alike ts us) : Alike us ts
  | trans {ts us vs : List Ty} (h : Alike ts us) (h' : Alike us vs) : Alike ts vs
  | append {ts us ts' us' : List Ty} (h : Alike ts us) (h' : Alike ts' us') :
      Alike (ts ++ ts') (us ++ us')
  | union (ms : List Ty) : Alike [.union ms] ms
  | nullable (t : Ty) : Alike [.nullable t] [t, base.nullType]
  | nothing : Alike [.nothing] []
  /-- The unknown type takes the place of all others. -/
  | unknown {ts : List Ty} (h : .unknown ∈ ts) : Alike ts [.unknown]
  | null {t : Ty} (h : base.isNull t = true) : Alike [t] [base.nullType]
  /-- It does not matter where `Null` stands. -/
  | moveNull (t : Ty) : Alike [base.nullType, t] [t, base.nullType]
  /-- What stands in a row need not be repeated. -/
  | again {ts : List Ty} {t : Ty} (h : t ∈ ts) : Alike (ts ++ [t]) ts

/-! ## The forms -/

/-- A type that may be a member of a union, or a union of several of them. -/
inductive Alternatives : Ty → Prop
  | single {t : Ty} (h : t.isMember base = true) : Alternatives t
  | several {ms : List Ty} (hlength : 2 ≤ ms.length) (hnodup : ms.Nodup)
      (h : ∀ m ∈ ms, m.isMember base = true) : Alternatives (.union ms)

/-- The forms that the union of some types can have. -/
inductive UnionForm : Ty → Prop
  | unknown : UnionForm .unknown
  | nothing : UnionForm .nothing
  | null : UnionForm base.nullType
  | alternatives {t : Ty} (h : Alternatives base t) : UnionForm t
  | nullable {t : Ty} (h : Alternatives base t) : UnionForm (.nullable t)

/-! ## The pass -/

theorem subtermsOfAll_append (ts us : List Ty) :
    subtermsOfAll (ts ++ us) = subtermsOfAll ts ++ subtermsOfAll us := by
  induction ts with
  | nil => rfl
  | cons t ts ih => rw [List.cons_append, subtermsOfAll, subtermsOfAll, ih, List.append_assoc]

theorem length_subtermsOfAll_cons (t : Ty) (ts : List Ty) :
    (subtermsOfAll ts).length < (subtermsOfAll (t :: ts)).length := by
  have hpos : 0 < t.subterms.length := List.length_pos_of_mem (self_mem_subterms t)
  rw [subtermsOfAll, List.length_append]
  omega

/-- The type with some members, and with a question mark if it may be null. -/
def closeUnion (flat : List Ty) (hasNull : Bool) : Ty :=
  if hasNull then
    if flat.isEmpty then base.nullType else .nullable (ofMembers flat)
  else ofMembers flat

/-- The union of the types on a stack and of those that were found before, in the order of their
first occurrence; whether one of these was `null` is kept apart. -/
def gather (flat : List Ty) (hasNull : Bool) : List Ty → Ty
  | [] => closeUnion base flat hasNull
  | .unknown :: _ => .unknown
  | .nothing :: stack => gather flat hasNull stack
  | .union inner :: stack => gather flat hasNull (inner ++ stack)
  | .nullable inner :: stack => gather flat true (inner :: stack)
  | t :: stack =>
    if base.isNull t then gather flat true stack
    else if t ∈ flat then gather flat hasNull stack
    else gather (flat ++ [t]) hasNull stack
termination_by stack => (subtermsOfAll stack).length
decreasing_by
  · exact length_subtermsOfAll_cons _ _
  · rw [subtermsOfAll_append, subtermsOfAll, subterms]
    exact Nat.lt_succ_self _
  · rw [subtermsOfAll, subtermsOfAll, subterms]
    exact Nat.lt_succ_self _
  all_goals exact length_subtermsOfAll_cons _ _

/-- What the note that something was `null` stands for. -/
def noted (hasNull : Bool) : List Ty := if hasNull then [base.nullType] else []

/-- The row of types that a state of the pass stands for. -/
def gathered (flat : List Ty) (hasNull : Bool) (stack : List Ty) : List Ty :=
  flat ++ (noted base hasNull ++ stack)

variable {base}

/-! ## The laws hold -/

/-- Repetitions of what stands before them are dropped. -/
theorem eraseDups_append_of_subset {as bs : List Ty} (h : bs ⊆ as) (cs : List Ty) :
    (as ++ bs ++ cs).eraseDups = (as ++ cs).eraseDups := by
  have hbs : bs.removeAll as = [] := by
    rw [List.removeAll, List.filter_eq_nil_iff]
    intro b hb
    simpa using h hb
  have hcs : cs.removeAll (as ++ bs) = cs.removeAll as := by
    refine List.filter_congr fun c _ => ?_
    simpa using fun hcas hc => hcas (h hc)
  rw [List.eraseDups_append, List.eraseDups_append, hbs, hcs, List.eraseDups_append]
  simp

theorem ofLeaves_congr {ls ls' : List Ty} (hmembers : membersOf base ls = membersOf base ls')
    (hnull : ls.any base.isNull = ls'.any base.isNull) : ofLeaves base ls = ofLeaves base ls' := by
  have hunknown : ls.any isUnknown = ls'.any isUnknown := by
    have hmem (ls : List Ty) : ls.any isUnknown = true ↔ .unknown ∈ membersOf base ls := by
      rw [any_isUnknown, mem_membersOf]
      exact (and_iff_left rfl).symm
    rw [Bool.eq_iff_iff, hmem, hmem, hmembers]
  rw [ofLeaves, ofLeaves, hunknown, hnull, hmembers]

theorem leavesOfAll_append (ts us : List Ty) :
    leavesOfAll base (ts ++ us) = leavesOfAll base ts ++ leavesOfAll base us := by
  simp only [leavesOfAll_eq_flatMap, List.flatMap_append]

theorem leavesOfAll_singleton (t : Ty) : leavesOfAll base [t] = leaves base t :=
  List.append_nil _

theorem leaves_of_isNull {t : Ty} (h : base.isNull t = true) : leaves base t = [t] := by
  cases t <;> first | rfl | exact (Bool.false_ne_true h).elim

/-- Rows that are alike have the same union, wherever they stand in a longer row. -/
theorem Alike.ofLeaves_eq {ts us : List Ty} (h : Alike base ts us) (before after : List Ty) :
    ofLeaves base (before ++ leavesOfAll base ts ++ after) =
      ofLeaves base (before ++ leavesOfAll base us ++ after) := by
  have hnull : base.isNull base.nullType = true := decide_eq_true rfl
  have hleaf : leaves base base.nullType = [base.nullType] := rfl
  induction h generalizing before after with
  | refl => rfl
  | symm _ ih => exact (ih before after).symm
  | trans _ _ ih ih' => exact (ih before after).trans (ih' before after)
  | @append ts us ts' us' _ _ ih ih' =>
    have hleft := ih before (leavesOfAll base ts' ++ after)
    have hright := ih' (before ++ leavesOfAll base us) after
    simp only [List.append_assoc] at hleft hright
    simp only [leavesOfAll_append, List.append_assoc, hleft, hright]
  | union ms => rw [leavesOfAll_singleton, leaves]
  | nullable t =>
    apply ofLeaves_congr <;>
      simp [membersOf, leavesOfAll, leaves_nullable, hleaf, hnull]
  | nothing => rfl
  | unknown h =>
    rw [ofLeaves_unknown, ofLeaves_unknown]
    · simp [leavesOfAll, leaves]
    · have hmem : .unknown ∈ leavesOfAll base _ :=
        mem_leavesOfAll.mpr ⟨_, h, List.mem_singleton_self _⟩
      exact List.mem_append_left _ (List.mem_append_right _ hmem)
  | @null t h =>
    rw [leavesOfAll_singleton, leavesOfAll_singleton, leaves_of_isNull h, leaves_of_isNull hnull]
    apply ofLeaves_congr <;> simp [membersOf, h, hnull]
  | moveNull t =>
    apply ofLeaves_congr <;> simp [membersOf, leavesOfAll, hleaf, hnull]
  | @again ts t h =>
    have hsubset : leaves base t ⊆ leavesOfAll base ts := fun l hl => mem_leavesOfAll.mpr ⟨t, h, hl⟩
    rw [leavesOfAll_append, leavesOfAll_singleton]
    apply ofLeaves_congr
    · simp only [membersOf, List.filter_append, ← List.append_assoc]
      apply eraseDups_append_of_subset
      intro l hl
      obtain ⟨hl, hmember⟩ := List.mem_filter.mp hl
      exact List.mem_append_right _ (List.mem_filter.mpr ⟨hsubset hl, hmember⟩)
    · rw [Bool.eq_iff_iff]
      simp only [List.any_append, Bool.or_eq_true, List.any_eq_true]
      grind

theorem Alike.unionOf_eq {ts us : List Ty} (h : Alike base ts us) :
    unionOf base ts = unionOf base us := by
  have heq := h.ofLeaves_eq [] []
  rw [List.nil_append, List.append_nil, List.append_nil] at heq
  exact heq

/-! ## The pass keeps to the laws -/

theorem Alike.within {ts us : List Ty} (h : Alike base ts us) (before after : List Ty) :
    Alike base (before ++ (ts ++ after)) (before ++ (us ++ after)) :=
  .append (.refl before) (.append h (.refl after))

theorem alike_ofMembers (ms : List Ty) : Alike base [ofMembers ms] ms := by
  match ms with
  | [] => exact .nothing
  | [m] => exact .refl [m]
  | _ :: _ :: _ => exact .union _

variable (base) in
/-- Whatever stands after the note may as well stand before it. -/
theorem alike_noted (hasNull : Bool) (t : Ty) :
    Alike base (noted base hasNull ++ [t]) ([t] ++ noted base hasNull) := by
  cases hasNull with
  | false => exact .refl [t]
  | true => exact .moveNull t

variable (base) in
/-- A `null` after the note makes the note, if it is not made yet. -/
theorem alike_note (hasNull : Bool) :
    Alike base (noted base hasNull ++ [base.nullType]) (noted base true) := by
  cases hasNull with
  | false => exact .refl [base.nullType]
  | true => exact .again (List.mem_singleton_self _)

theorem alike_closeUnion (flat : List Ty) (hasNull : Bool) :
    Alike base (gathered base flat hasNull []) [closeUnion base flat hasNull] := by
  rw [gathered, List.append_nil]
  cases hasNull with
  | false =>
    show Alike base (flat ++ []) [ofMembers flat]
    rw [List.append_nil]
    exact (alike_ofMembers flat).symm
  | true =>
    match flat with
    | [] => exact .refl [base.nullType]
    | m :: ms =>
      show Alike base (m :: ms ++ [base.nullType]) [.nullable (ofMembers (m :: ms))]
      have hmembers :
          Alike base [ofMembers (m :: ms), base.nullType] (m :: ms ++ [base.nullType]) :=
        .append (alike_ofMembers (m :: ms)) (.refl [base.nullType])
      exact ((Alike.nullable _).trans hmembers).symm

/-- What the pass makes of a row is alike to the row that its state stands for: no step of it
leaves that row. -/
theorem alike_gather (flat : List Ty) (hasNull : Bool) (stack : List Ty) :
    Alike base (gathered base flat hasNull stack) [gather base flat hasNull stack] := by
  fun_induction gather base flat hasNull stack with
  | case1 flat hasNull => exact alike_closeUnion flat hasNull
  | case2 flat hasNull stack =>
    apply Alike.unknown
    exact List.mem_append_right _ (List.mem_append_right _ List.mem_cons_self)
  | case3 flat hasNull stack ih =>
    refine .trans ?_ ih
    have hstep : Alike base (.nothing :: stack) stack := .append .nothing (.refl stack)
    exact .append (.refl flat) (.append (.refl _) hstep)
  | case4 flat hasNull inner stack ih =>
    refine .trans ?_ ih
    have hstep : Alike base (.union inner :: stack) (inner ++ stack) :=
      .append (.union inner) (.refl stack)
    exact .append (.refl flat) (.append (.refl _) hstep)
  | case5 flat hasNull inner stack ih =>
    refine .trans ?_ ih
    -- the question mark becomes a `null`, which moves to the note
    have hmark : Alike base [.nullable inner] ([base.nullType] ++ [inner]) :=
      (Alike.nullable inner).trans (Alike.moveNull inner).symm
    have hnote :
        Alike base (noted base hasNull ++ [.nullable inner]) (noted base true ++ [inner]) := by
      have hstep := Alike.append (alike_note base hasNull) (.refl [inner])
      rw [List.append_assoc] at hstep
      exact .trans (.append (.refl _) hmark) hstep
    simpa [gathered] using hnote.within flat stack
  | case6 flat hasNull t stack _ _ _ _ hnull ih =>
    refine .trans ?_ ih
    have hnote : Alike base (noted base hasNull ++ [t]) (noted base true) :=
      .trans (.append (.refl _) (.null hnull)) (alike_note base hasNull)
    simpa [gathered] using hnote.within flat stack
  | case7 flat hasNull t stack _ _ _ _ _ hseen ih =>
    refine .trans ?_ ih
    have hmove := (alike_noted base hasNull t).within flat stack
    have hagain : Alike base (flat ++ [t] ++ (noted base hasNull ++ stack)) _ :=
      .append (.again hseen) (.refl (noted base hasNull ++ stack))
    simp only [List.append_assoc] at hmove hagain
    exact hmove.trans hagain
  | case8 flat hasNull t stack _ _ _ _ _ _ ih =>
    refine .trans ?_ ih
    simpa [gathered] using (alike_noted base hasNull t).within flat stack

theorem unionForm_closeUnion {flat : List Ty} (hnodup : flat.Nodup)
    (hflat : ∀ m ∈ flat, m.isMember base = true) (hasNull : Bool) :
    UnionForm base (closeUnion base flat hasNull) := by
  match flat with
  | [] =>
    cases hasNull with
    | false => exact .nothing
    | true => exact .null
  | [m] =>
    have hm : Alternatives base m := .single (hflat m (List.mem_singleton_self m))
    cases hasNull with
    | false => exact .alternatives hm
    | true => exact .nullable hm
  | m :: n :: ms =>
    have hms : Alternatives base (.union (m :: n :: ms)) :=
      .several (Nat.le_add_left 2 ms.length) hnodup hflat
    cases hasNull with
    | false => exact .alternatives hms
    | true => exact .nullable hms

/-- The pass ends with one of the forms, as long as what it has seen may be members of a union. -/
theorem unionForm_gather {flat : List Ty} (hnodup : flat.Nodup)
    (hflat : ∀ m ∈ flat, m.isMember base = true) (hasNull : Bool) (stack : List Ty) :
    UnionForm base (gather base flat hasNull stack) := by
  fun_induction gather base flat hasNull stack with
  | case1 flat hasNull => exact unionForm_closeUnion hnodup hflat hasNull
  | case2 flat hasNull stack => exact .unknown
  | case3 _ _ _ ih | case4 _ _ _ _ ih | case5 _ _ _ _ ih | case6 _ _ _ _ _ _ _ _ _ ih
  | case7 _ _ _ _ _ _ _ _ _ _ ih =>
    exact ih hnodup hflat
  | case8 flat hasNull t stack hunknown hnothing hunion hnullable hnull hseen ih =>
    have ht : t.isMember base = true := by
      cases t <;> simp_all [isMember, isLeaf, isUnknown]
    apply ih
    · exact List.nodup_append.mpr ⟨hnodup, List.pairwise_singleton _ t, fun a ha b hb hab =>
        hseen (List.mem_singleton.mp hb ▸ hab ▸ ha)⟩
    · intro m hm
      rcases List.mem_append.mp hm with hm | hm
      · exact hflat m hm
      · exact List.mem_singleton.mp hm ▸ ht

/-! ## The forms are their own unions -/

theorem eraseDups_of_nodup {ts : List Ty} (h : ts.Nodup) : ts.eraseDups = ts := by
  induction ts using List.reverseRecOn with
  | nil => rfl
  | append_singleton ts t ih =>
    obtain ⟨hts, -, hdisjoint⟩ := List.nodup_append.mp h
    have ht : t ∉ ts := fun ht => hdisjoint t ht t (List.mem_singleton_self t) rfl
    rw [eraseDups_append_singleton, if_neg ht, ih hts]

theorem Alternatives.eq_ofMembers {t : Ty} (h : Alternatives base t) :
    ∃ ms, ms ≠ [] ∧ ms.Nodup ∧ (∀ m ∈ ms, m.isMember base = true) ∧ t = ofMembers ms := by
  cases h with
  | single h =>
    exact ⟨[t], List.cons_ne_nil _ _, List.pairwise_singleton _ t, by simpa using h, rfl⟩
  | @several ms hlength hnodup h =>
    match ms with
    | m :: n :: ms => exact ⟨m :: n :: ms, List.cons_ne_nil _ _, hnodup, h, rfl⟩

/-- The leaves of alternatives may be members of a union, and there is one. -/
theorem Alternatives.isMember {t : Ty} (h : Alternatives base t) :
    (∃ l, l ∈ leaves base t) ∧ ∀ l ∈ leaves base t, l.isMember base = true := by
  obtain ⟨ms, hne, -, hms, rfl⟩ := h.eq_ofMembers
  rw [leaves_ofMembers fun m hm => (isMember_iff.mp (hms m hm)).1]
  exact ⟨List.exists_mem_of_ne_nil ms hne, hms⟩

/-- Only `null` itself stands for it in a type of one of the forms. -/
theorem UnionForm.eq_nullType {t l : Ty} (h : UnionForm base t) (hl : l ∈ leaves base t)
    (hnull : base.isNull l = true) : l = base.nullType := by
  have hmember (ht : l.isMember base = true) : l = base.nullType :=
    (Bool.false_ne_true ((isMember_iff.mp ht).2.2.symm.trans hnull)).elim
  cases h with
  | unknown =>
    rw [List.mem_singleton.mp hl] at hnull
    exact nomatch hnull
  | nothing => exact (List.not_mem_nil hl).elim
  | null => exact List.mem_singleton.mp hl
  | alternatives h => exact hmember (h.isMember.2 l hl)
  | nullable h =>
    rcases List.mem_cons.mp hl with hl | hl
    · exact hl
    · exact hmember (h.isMember.2 l hl)

/-- A type of one of the forms has no leaves, is one, or has two different ones. -/
theorem UnionForm.leaves_cases {t : Ty} (h : UnionForm base t) :
    t = .nothing ∨ t ∈ leaves base t ∨ ∃ k ∈ leaves base t, ∃ l ∈ leaves base t, k ≠ l := by
  cases h with
  | unknown => exact .inr (.inl (List.mem_singleton_self _))
  | nothing => exact .inl rfl
  | null => exact .inr (.inl (List.mem_singleton_self _))
  | alternatives h =>
    cases h with
    | single h =>
      rw [leaves_of_isMember h]
      exact .inr (.inl (List.mem_singleton_self t))
    | @several ms hlength hnodup h =>
      match ms with
      | m :: n :: ms =>
        have hleaves : leaves base (.union (m :: n :: ms)) = m :: n :: ms :=
          leavesOfAll_of_isLeaf fun m hm => (isMember_iff.mp (h m hm)).1
        rw [hleaves]
        refine .inr (.inr ⟨m, List.mem_cons_self, n, List.mem_cons_of_mem _ List.mem_cons_self, ?_⟩)
        rintro rfl
        exact (List.nodup_cons.mp hnodup).1 List.mem_cons_self
  | nullable h =>
    obtain ⟨l, hl⟩ := h.isMember.1
    refine .inr (.inr ⟨base.nullType, List.mem_cons_self, l, List.mem_cons_of_mem _ hl, ?_⟩)
    rintro rfl
    exact Bool.false_ne_true ((isMember_iff.mp (h.isMember.2 _ hl)).2.2.symm.trans
      (decide_eq_true rfl))

theorem UnionForm.eq_closeUnion {t : Ty} (h : UnionForm base t) : t = .unknown ∨
    ∃ ms hasNull, ms.Nodup ∧ (∀ m ∈ ms, m.isMember base = true) ∧
      t = closeUnion base ms hasNull := by
  cases h with
  | unknown => exact .inl rfl
  | nothing => exact .inr ⟨[], false, List.nodup_nil, List.forall_mem_nil _, rfl⟩
  | null => exact .inr ⟨[], true, List.nodup_nil, List.forall_mem_nil _, rfl⟩
  | alternatives h =>
    obtain ⟨ms, -, hnodup, hms, rfl⟩ := h.eq_ofMembers
    exact .inr ⟨ms, false, hnodup, hms, rfl⟩
  | nullable h =>
    obtain ⟨ms, hne, hnodup, hms, rfl⟩ := h.eq_ofMembers
    refine .inr ⟨ms, true, hnodup, hms, ?_⟩
    rw [closeUnion, if_pos rfl, if_neg fun hempty => hne (List.isEmpty_iff.mp hempty)]

/-- When the stack is empty, what has been seen and the note are the union. -/
theorem unionOf_gathered_nil {ms : List Ty} (hnodup : ms.Nodup)
    (h : ∀ m ∈ ms, m.isMember base = true) (hasNull : Bool) :
    unionOf base (gathered base ms hasNull []) = closeUnion base ms hasNull := by
  have hnull : base.isNull base.nullType = true := decide_eq_true rfl
  have hfilter : ms.filter (fun m => !base.isNull m) = ms := by
    rw [List.filter_eq_self]
    intro m hm
    rw [(isMember_iff.mp (h m hm)).2.2, Bool.not_false]
  have hany : ms.any base.isNull = false := by
    rw [List.any_eq_false]
    intro m hm
    rw [(isMember_iff.mp (h m hm)).2.2]
    exact Bool.false_ne_true
  have hleaves : leavesOfAll base (ms ++ noted base hasNull) = ms ++ noted base hasNull := by
    rw [leavesOfAll_append, leavesOfAll_of_isLeaf fun m hm => (isMember_iff.mp (h m hm)).1]
    cases hasNull <;> rfl
  have hunknown : .unknown ∉ ms ++ noted base hasNull := by
    intro hmem
    rcases List.mem_append.mp hmem with hmem | hmem
    · exact (isMember_iff.mp (h _ hmem)).2.1 rfl
    · cases hasNull <;> simp [noted, BaseTypes.nullType, BaseTypes.plain] at hmem
  have hmembers : membersOf base (ms ++ noted base hasNull) = ms := by
    have hnoted : (noted base hasNull).filter (fun m => !base.isNull m) = [] := by
      cases hasNull <;> simp [noted, hnull]
    rw [membersOf, List.filter_append, hfilter, hnoted, List.append_nil, eraseDups_of_nodup hnodup]
  have hanyNull : (ms ++ noted base hasNull).any base.isNull = hasNull := by
    cases hasNull <;> simp [noted, hany, hnull]
  rw [gathered, List.append_nil, unionOf_eq, hleaves, ofLeaves_known hunknown, hmembers, hanyNull,
    closeUnion]

/-- A type of one of the forms is the union of itself. -/
theorem UnionForm.unionOf_eq {t : Ty} (h : UnionForm base t) : unionOf base [t] = t := by
  obtain rfl | ⟨ms, hasNull, hnodup, hms, rfl⟩ := h.eq_closeUnion
  · rfl
  · rw [← (alike_closeUnion ms hasNull).unionOf_eq, unionOf_gathered_nil hnodup hms]

/-- The union of some types is found in one pass. -/
theorem unionOf_eq_gather (ts : List Ty) : unionOf base ts = gather base [] false ts := by
  have hform : UnionForm base (gather base [] false ts) :=
    unionForm_gather List.nodup_nil (List.forall_mem_nil _) false ts
  have halike : unionOf base ts = unionOf base [gather base [] false ts] :=
    (alike_gather [] false ts).unionOf_eq
  rw [halike, hform.unionOf_eq]

/-- The union of some types has one of the forms. -/
theorem unionForm_unionOf (ts : List Ty) : UnionForm base (unionOf base ts) := by
  rw [unionOf_eq_gather]
  exact unionForm_gather List.nodup_nil (List.forall_mem_nil _) false ts

theorem alike_unionOf (ts : List Ty) : Alike base ts [unionOf base ts] := by
  rw [unionOf_eq_gather]
  exact alike_gather [] false ts

/-- Two rows are alike exactly if they have the same union. -/
theorem alike_iff {ts us : List Ty} : Alike base ts us ↔ unionOf base ts = unionOf base us := by
  constructor
  · exact Alike.unionOf_eq
  · intro h
    exact (h ▸ alike_unionOf ts).trans (alike_unionOf us).symm

/-- The types that are the unions of themselves are those of the forms. -/
theorem unionForm_iff {t : Ty} : UnionForm base t ↔ unionOf base [t] = t := by
  constructor
  · exact UnionForm.unionOf_eq
  · intro h
    exact h ▸ unionForm_unionOf [t]

instance (base : BaseTypes) (t : Ty) : Decidable (UnionForm base t) :=
  decidable_of_iff _ unionForm_iff.symm

/-! ## Unions are normal forms -/

variable (base) in
/-- Finding the union of some of the alternatives first makes no difference. -/
theorem unionOf_within (xs ys zs : List Ty) :
    unionOf base (xs ++ ([unionOf base ys] ++ zs)) = unionOf base (xs ++ (ys ++ zs)) :=
  ((alike_unionOf ys).symm.within xs zs).unionOf_eq

theorem unionOf_append_self (xs : List Ty) : unionOf base (xs ++ xs) = unionOf base xs := by
  have hx : Alike base (xs ++ xs) [unionOf base xs] :=
    .trans (.append (alike_unionOf xs) (alike_unionOf xs)) (.again (List.mem_singleton_self _))
  exact (hx.trans (alike_unionOf xs).symm).unionOf_eq

theorem orNull_orNull (t : Ty) : (t.orNull base).orNull base = t.orNull base := by
  have hnull : Alike base ([t] ++ [base.nullType] ++ [base.nullType]) ([t] ++ [base.nullType]) :=
    .again (List.mem_append_right _ (List.mem_singleton_self _))
  have hinner := unionOf_within base [] [t, base.nullType] [base.nullType]
  exact hinner.trans hnull.unionOf_eq

/-- Of any types, whatever their shape, the union has one of the forms, and it does not matter
whether some of them were united before.  So a union is the same when it is formed again, when its
alternatives are repeated and however they are grouped, and a question mark may stand behind any of
them. -/
theorem unionOf_normalizes (base : BaseTypes) (xs ys zs : List Ty) (a b c : Ty) :
    UnionForm base (unionOf base xs) ∧
      unionOf base (xs ++ [unionOf base ys] ++ zs) = unionOf base (xs ++ ys ++ zs) ∧
      (unionOf base [unionOf base xs] = unionOf base xs ∧
        unionOf base (xs ++ xs) = unionOf base xs ∧
        unionOf base [unionOf base [a, b], c] = unionOf base [a, unionOf base [b, c]]) ∧
      (a.orNull base).orNull base = a.orNull base ∧
      unionOf base [a.orNull base, b] = (unionOf base [a, b]).orNull base ∧
      unionOf base [a, b.orNull base] = (unionOf base [a, b]).orNull base := by
  have hgroup : unionOf base [unionOf base [a, b], c] = unionOf base [a, unionOf base [b, c]] := by
    have hleft := unionOf_within base [] [a, b] [c]
    have hright := unionOf_within base [a] [b, c] []
    exact hleft.trans hright.symm
  have hmark : unionOf base [a.orNull base, b] = unionOf base [a, base.nullType, b] :=
    unionOf_within base [] [a, base.nullType] [b]
  have hlast : unionOf base [a, b.orNull base] = unionOf base [a, b, base.nullType] :=
    unionOf_within base [a] [b, base.nullType] []
  have hall : (unionOf base [a, b]).orNull base = unionOf base [a, b, base.nullType] :=
    unionOf_within base [] [a, b] [base.nullType]
  -- the question mark behind the first stands before the second
  have hmove : unionOf base [a, base.nullType, b] = unionOf base [a, b, base.nullType] :=
    ((Alike.moveNull b).within [a] []).unionOf_eq
  refine ⟨unionForm_unionOf xs, ?_, ⟨?_, unionOf_append_self xs, hgroup⟩, orNull_orNull a, ?_, ?_⟩
  · simpa using unionOf_within base xs ys zs
  · exact (unionForm_unionOf xs).unionOf_eq
  · rw [hmark, hmove, hall]
  · rw [hlast, hall]

end Ty

end PklAnalysis
