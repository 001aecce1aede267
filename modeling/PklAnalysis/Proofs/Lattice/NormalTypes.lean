import Mathlib.Data.List.Induction
import PklAnalysis.Lattice.Subtyping

/-!
# Types in normal form

`Ty.isNormal` says of a type that it is in normal form at every depth and that `nothing` does not
occur in it, as the normalizing constructors build it from such types.  A union in normal form is
flat, so its members are its leaves, and what is known of normal forms is known from their leaves:
`Ty.mem_leaves_unionOf` says which leaves a union of types has.
-/

namespace PklAnalysis

/-! ## Repetitions -/

section Repetitions

variable {α : Type} [BEq α] [LawfulBEq α]

theorem eraseDups_append_singleton (ts : List α) (t : α) :
    (ts ++ [t]).eraseDups = if t ∈ ts then ts.eraseDups else ts.eraseDups ++ [t] := by
  rw [List.eraseDups_append]
  by_cases h : t ∈ ts
  · simp [List.removeAll, h]
  · simp [List.removeAll, h, List.eraseDups_cons]

theorem nodup_eraseDups (ts : List α) : ts.eraseDups.Nodup := by
  induction ts using List.reverseRecOn with
  | nil => exact List.nodup_nil
  | append_singleton ts t ih =>
    rw [eraseDups_append_singleton]
    split
    · exact ih
    · next h =>
      exact List.nodup_append.mpr ⟨ih, List.pairwise_singleton _ t, fun a ha b hb hab =>
        h (List.mem_eraseDups.mp (List.mem_singleton.mp hb ▸ hab ▸ ha))⟩

end Repetitions

namespace Ty

/-- Whether a type is its own only leaf. -/
def isLeaf : Ty → Bool
  | .nothing | .nullable _ | .union _ => false
  | _ => true

/-- Whether a type may be a member of a union in normal form. -/
def isMember (base : BaseTypes) (t : Ty) : Bool := t.isLeaf && !t.isUnknown && !base.isNull t

/-- Whether a type may stand before a question mark in normal form. -/
def isContent (base : BaseTypes) : Ty → Bool
  | .union _ => true
  | t => t.isMember base

mutual

/-- Whether a type is in normal form at every depth, and without the type without values. -/
def isNormal (base : BaseTypes) : Ty → Bool
  | .nothing => false
  | .unknown => true
  | .literal _ => true
  | .param _ => true
  | .nullable t => isNormal base t && t.isContent base
  | .union ms => decide (2 ≤ ms.length ∧ ms.Nodup) && ms.all (isMember base) && areNormal base ms
  | .class _ args => areNormal base args
  | .typeAlias _ args => areNormal base args
  | .function ps r => areNormal base ps && isNormal base r

def areNormal (base : BaseTypes) : List Ty → Bool
  | [] => true
  | t :: ts => isNormal base t && areNormal base ts

end

mutual

/-- Whether neither the type without values nor a union without members occurs in a type. -/
def isNothingFree : Ty → Bool
  | .nothing => false
  | .unknown => true
  | .literal _ => true
  | .param _ => true
  | .nullable t => isNothingFree t
  | .union ms => !ms.isEmpty && areNothingFree ms
  | .class _ args => areNothingFree args
  | .typeAlias _ args => areNothingFree args
  | .function ps r => areNothingFree ps && isNothingFree r

def areNothingFree : List Ty → Bool
  | [] => true
  | t :: ts => isNothingFree t && areNothingFree ts

end

mutual

/-- Whether all type parameters in a type are those of one declaration. -/
def mentionsOnly (owner : Site) : Ty → Bool
  | .nothing => true
  | .unknown => true
  | .literal _ => true
  | .param p => decide (p.owner = owner)
  | .nullable t => mentionsOnly owner t
  | .union ms => allMentionOnly owner ms
  | .class _ args => allMentionOnly owner args
  | .typeAlias _ args => allMentionOnly owner args
  | .function ps r => allMentionOnly owner ps && mentionsOnly owner r

def allMentionOnly (owner : Site) : List Ty → Bool
  | [] => true
  | t :: ts => mentionsOnly owner t && allMentionOnly owner ts

end

/-! ## Induction on types -/

/-- What passes from the parts of a type to the type holds of all types. -/
@[elab_as_elim]
theorem byParts {motive : Ty → Prop} (unknown : motive .unknown) (nothing : motive .nothing)
    (nullable : ∀ t, motive t → motive (.nullable t))
    (class_ : ∀ d args, (∀ a ∈ args, motive a) → motive (.class d args))
    (typeAlias : ∀ d args, (∀ a ∈ args, motive a) → motive (.typeAlias d args))
    (union : ∀ ms, (∀ m ∈ ms, motive m) → motive (.union ms))
    (function : ∀ ps r, (∀ p ∈ ps, motive p) → motive r → motive (.function ps r))
    (literal : ∀ s, motive (.literal s)) (param : ∀ p, motive (.param p)) (t : Ty) : motive t :=
  @Ty.rec motive (fun ts => ∀ t ∈ ts, motive t) unknown nothing nullable class_ typeAlias union
    function literal param (List.forall_mem_nil _)
    (fun _ _ ht hts => List.forall_mem_cons.mpr ⟨ht, hts⟩) t

variable {base : BaseTypes}

/-- A function that asks of all types in a list what another one asks of a type. -/
theorem forall_mem_iff {p : Ty → Bool} {all : List Ty → Bool} (hnil : all [] = true)
    (hcons : ∀ t ts, all (t :: ts) = (p t && all ts)) {ts : List Ty} :
    all ts = true ↔ ∀ t ∈ ts, p t = true := by
  induction ts with
  | nil => exact iff_of_true hnil (List.forall_mem_nil _)
  | cons t ts ih => rw [hcons, Bool.and_eq_true, ih, List.forall_mem_cons]

@[simp] theorem areNormal_iff {ts : List Ty} :
    areNormal base ts = true ↔ ∀ t ∈ ts, isNormal base t = true :=
  forall_mem_iff rfl fun _ _ => rfl

@[simp] theorem areNothingFree_iff {ts : List Ty} :
    areNothingFree ts = true ↔ ∀ t ∈ ts, isNothingFree t = true :=
  forall_mem_iff rfl fun _ _ => rfl

@[simp] theorem allMentionOnly_iff {owner : Site} {ts : List Ty} :
    allMentionOnly owner ts = true ↔ ∀ t ∈ ts, mentionsOnly owner t = true :=
  forall_mem_iff rfl fun _ _ => rfl

theorem isNormal_union_iff {ms : List Ty} : isNormal base (.union ms) = true ↔
    (2 ≤ ms.length ∧ ms.Nodup) ∧ ∀ m ∈ ms, isMember base m = true ∧ isNormal base m = true := by
  refine Bool.and_eq_true_iff.trans ((and_congr_left' Bool.and_eq_true_iff).trans ?_)
  rw [decide_eq_true_iff, List.all_eq_true, areNormal_iff, and_assoc, ← forall₂_and]

theorem isNormal_union {ms : List Ty} (h : isNormal base (.union ms) = true) :
    ms ≠ [] ∧ ∀ m ∈ ms, isMember base m = true ∧ isNormal base m = true := by
  obtain ⟨⟨hlength, -⟩, h⟩ := isNormal_union_iff.mp h
  exact ⟨List.ne_nil_of_length_pos (by omega), h⟩

theorem isNormal_nullable {t : Ty} : isNormal base (.nullable t) = true ↔
    isNormal base t = true ∧ isContent base t = true :=
  Bool.and_eq_true_iff

theorem isNormal_argAt {args : List Ty} (h : ∀ a ∈ args, isNormal base a = true) (i : Nat) :
    isNormal base (argAt args i) = true := by
  rw [argAt]
  cases hi : args[i]? with
  | none => rfl
  | some a => exact h a (List.mem_of_getElem? hi)

/-! ## Leaves -/

theorem leaves_of_isLeaf {t : Ty} (h : t.isLeaf = true) : leaves base t = [t] := by
  cases t <;> first | rfl | exact (Bool.false_ne_true h).elim

theorem isLeaf_of_mem_leaves {t l : Ty} (h : l ∈ leaves base t) : l.isLeaf = true := by
  induction t using byParts with
  | nothing => exact (List.not_mem_nil h).elim
  | nullable t ih =>
    rcases List.mem_cons.mp h with rfl | h
    · rfl
    · exact ih h
  | union ms ih =>
    rw [leaves, leavesOfAll_eq_flatMap] at h
    obtain ⟨m, hm, h⟩ := List.mem_flatMap.mp h
    exact ih m hm h
  | unknown | class_ | typeAlias | function | literal | param =>
    rw [leaves_of_isLeaf rfl, List.mem_singleton] at h
    exact h ▸ rfl

theorem leavesOfAll_of_isLeaf {ms : List Ty} (h : ∀ m ∈ ms, m.isLeaf = true) :
    leavesOfAll base ms = ms := by
  induction ms with
  | nil => rfl
  | cons m ms ih =>
    obtain ⟨hm, hms⟩ := List.forall_mem_cons.mp h
    rw [leavesOfAll, leaves_of_isLeaf hm, ih hms, List.singleton_append]

theorem isMember_iff {t : Ty} :
    isMember base t = true ↔ t.isLeaf = true ∧ t ≠ .unknown ∧ base.isNull t = false := by
  cases t <;> simp [isMember, isUnknown, isLeaf]

theorem leaves_of_isMember {t : Ty} (h : isMember base t = true) : leaves base t = [t] :=
  leaves_of_isLeaf (isMember_iff.mp h).1

/-- The leaves of a union in normal form are its members. -/
theorem leaves_union {ms : List Ty} (h : isNormal base (.union ms) = true) :
    leaves base (.union ms) = ms := by
  exact leavesOfAll_of_isLeaf fun m hm =>
    (isMember_iff.mp ((isNormal_union h).2 m hm).1).1

theorem leaves_nullable (t : Ty) : leaves base (.nullable t) = base.nullType :: leaves base t :=
  rfl

/-- The leaves of what stands before a question mark in normal form. -/
theorem isMember_of_isContent {t l : Ty} (h : isNormal base t = true)
    (ht : isContent base t = true) (hl : l ∈ leaves base t) : isMember base l = true := by
  cases t with
  | union ms =>
    rw [leaves_union h] at hl
    exact ((isNormal_union h).2 l hl).1
  | _ =>
    rw [leaves_of_isMember ht, List.mem_singleton] at hl
    exact hl ▸ ht

/-- A type in normal form has leaves. -/
theorem leaves_ne_nil {t : Ty} (h : isNormal base t = true) : leaves base t ≠ [] := by
  cases t with
  | nothing => exact (Bool.false_ne_true h).elim
  | nullable t => exact List.cons_ne_nil _ _
  | union ms =>
    rw [leaves_union h]
    exact (isNormal_union h).1
  | _ => exact List.cons_ne_nil _ _

theorem isNormal_of_mem_leaves {t l : Ty} (h : isNormal base t = true)
    (hl : l ∈ leaves base t) : isNormal base l = true := by
  induction t using byParts with
  | nothing => exact (Bool.false_ne_true h).elim
  | nullable t ih =>
    rcases List.mem_cons.mp hl with rfl | hl
    · rfl
    · exact ih (isNormal_nullable.mp h).1 hl
  | union ms =>
    rw [leaves_union h] at hl
    exact ((isNormal_union h).2 l hl).2
  | unknown | class_ | typeAlias | function | literal | param =>
    rw [leaves_of_isLeaf rfl, List.mem_singleton] at hl
    exact hl ▸ h

/-- A type with a question mark in normal form has a leaf besides that for `null`. -/
theorem exists_member {t : Ty} (h : isNormal base (.nullable t) = true) :
    ∃ l ∈ leaves base t, isMember base l = true := by
  obtain ⟨ht, hcontent⟩ := isNormal_nullable.mp h
  obtain ⟨l, hl⟩ := List.exists_mem_of_ne_nil _ (leaves_ne_nil ht)
  exact ⟨l, hl, isMember_of_isContent ht hcontent hl⟩

/-- With a leaf for `null` and another one a type in normal form has a question mark. -/
theorem exists_eq_nullable {t k l : Ty} (h : isNormal base t = true) (hk : k ∈ leaves base t)
    (hkNull : base.isNull k = true) (hl : l ∈ leaves base t) (hlNull : base.isNull l = false) :
    ∃ u, t = .nullable u := by
  cases t with
  | nothing => exact (List.not_mem_nil hk).elim
  | nullable u => exact ⟨u, rfl⟩
  | union ms =>
    rw [leaves_union h] at hk
    have hmember := isMember_iff.mp ((isNormal_union h).2 k hk).1
    exact (Bool.false_ne_true (hmember.2.2.symm.trans hkNull)).elim
  | _ =>
    rw [List.mem_singleton.mp hk] at hkNull
    rw [List.mem_singleton.mp hl] at hlNull
    exact (Bool.false_ne_true (hlNull.symm.trans hkNull)).elim

/-! ## Unions -/

theorem leaves_ofMembers {ms : List Ty} (h : ∀ m ∈ ms, m.isLeaf = true) :
    leaves base (ofMembers ms) = ms := by
  match ms with
  | [] => rfl
  | [m] => exact leaves_of_isLeaf (h m (List.mem_singleton_self m))
  | _ :: _ :: _ => exact leavesOfAll_of_isLeaf h

theorem mem_leavesOfAll {ts : List Ty} {l : Ty} :
    l ∈ leavesOfAll base ts ↔ ∃ t ∈ ts, l ∈ leaves base t := by
  rw [leavesOfAll_eq_flatMap, List.mem_flatMap]

/-- The members that leaves have in a union in normal form. -/
def membersOf (base : BaseTypes) (ls : List Ty) : List Ty :=
  (ls.filter fun t => !base.isNull t).eraseDups

/-- The type in normal form with given leaves. -/
def ofLeaves (base : BaseTypes) (ls : List Ty) : Ty :=
  if ls.any isUnknown then .unknown
  else if ls.any base.isNull then
    if (membersOf base ls).isEmpty then base.nullType else .nullable (ofMembers (membersOf base ls))
  else ofMembers (membersOf base ls)

theorem unionOf_eq (ts : List Ty) : unionOf base ts = ofLeaves base (leavesOfAll base ts) := rfl

theorem mem_membersOf {ls : List Ty} {l : Ty} :
    l ∈ membersOf base ls ↔ l ∈ ls ∧ base.isNull l = false := by
  simp [membersOf]

theorem any_isUnknown {ls : List Ty} : ls.any isUnknown = true ↔ .unknown ∈ ls := by
  rw [List.any_eq_true]
  constructor
  · rintro ⟨l, hl, hunknown⟩
    cases l with
    | unknown => exact hl
    | _ => exact (Bool.false_ne_true hunknown).elim
  · exact fun h => ⟨_, h, rfl⟩

/-- With an unknown leaf a type is unknown. -/
theorem ofLeaves_unknown {ls : List Ty} (h : .unknown ∈ ls) : ofLeaves base ls = .unknown := by
  rw [ofLeaves, if_pos (any_isUnknown.mpr h)]

theorem ofLeaves_known {ls : List Ty} (h : .unknown ∉ ls) : ofLeaves base ls =
    if ls.any base.isNull then
      if (membersOf base ls).isEmpty then base.nullType
      else .nullable (ofMembers (membersOf base ls))
    else ofMembers (membersOf base ls) := by
  rw [ofLeaves, if_neg fun hany => h (any_isUnknown.mp hany)]

/-- The leaves of the type with given leaves: its members, and before them one for `null` in the
place of all that stand for it. -/
theorem leaves_ofLeaves {ls : List Ty} (h : .unknown ∉ ls) (hls : ∀ l ∈ ls, l.isLeaf = true) :
    leaves base (ofLeaves base ls) =
      (if ls.any base.isNull then [base.nullType] else []) ++ membersOf base ls := by
  have hmembers : leaves base (ofMembers (membersOf base ls)) = membersOf base ls :=
    leaves_ofMembers fun m hm => hls m (mem_membersOf.mp hm).1
  rw [ofLeaves_known h]
  split
  · split
    · next hempty =>
      rw [List.isEmpty_iff.mp hempty]
      rfl
    · rw [leaves_nullable, hmembers, List.singleton_append]
  · rw [hmembers, List.nil_append]

theorem isLeaf_of_mem_leavesOfAll {ts : List Ty} {l : Ty} (h : l ∈ leavesOfAll base ts) :
    l.isLeaf = true := by
  obtain ⟨t, -, hl⟩ := mem_leavesOfAll.mp h
  exact isLeaf_of_mem_leaves hl

theorem mem_leaves_unionOf {ts : List Ty} (h : .unknown ∉ leavesOfAll base ts) {l : Ty} :
    l ∈ leaves base (unionOf base ts) ↔
      (l ∈ leavesOfAll base ts ∧ base.isNull l = false) ∨
        (l = base.nullType ∧ ∃ k ∈ leavesOfAll base ts, base.isNull k = true) := by
  rw [unionOf_eq, leaves_ofLeaves h fun l hl => isLeaf_of_mem_leavesOfAll hl, List.mem_append,
    mem_membersOf, ← List.any_eq_true, or_comm]
  refine or_congr_right ?_
  split
  · next hnull => rw [List.mem_singleton, and_iff_left hnull]
  · next hnull => exact iff_of_false List.not_mem_nil fun h => hnull h.2

/-- Several members in normal form, or one, are in normal form, and may stand before a question
mark. -/
theorem isNormal_ofMembers {ms : List Ty} (hne : ms ≠ []) (hnodup : ms.Nodup)
    (h : ∀ m ∈ ms, isMember base m = true ∧ isNormal base m = true) :
    isNormal base (ofMembers ms) = true ∧ isContent base (ofMembers ms) = true := by
  match ms with
  | [] => exact absurd rfl hne
  | [m] =>
    obtain ⟨hm, hnormal⟩ := h m (List.mem_singleton_self m)
    refine ⟨hnormal, ?_⟩
    cases m <;> first | exact hm | rfl
  | m :: n :: ms =>
    exact ⟨isNormal_union_iff.mpr ⟨⟨Nat.le_add_left 2 ms.length, hnodup⟩, h⟩, rfl⟩

/-- Unions of types in normal form are in normal form. -/
theorem isNormal_unionOf {ts : List Ty} (hne : ts ≠ []) (h : ∀ t ∈ ts, isNormal base t = true) :
    isNormal base (unionOf base ts) = true := by
  rw [unionOf_eq]
  by_cases hunknown : .unknown ∈ leavesOfAll base ts
  · rw [ofLeaves_unknown hunknown, isNormal]
  have hmembers : ∀ m ∈ membersOf base (leavesOfAll base ts),
      isMember base m = true ∧ isNormal base m = true := by
    intro m hm
    obtain ⟨hmem, hnull⟩ := mem_membersOf.mp hm
    obtain ⟨t, ht, hl⟩ := mem_leavesOfAll.mp hmem
    refine ⟨isMember_iff.mpr ⟨isLeaf_of_mem_leaves hl, ?_, hnull⟩,
      isNormal_of_mem_leaves (h t ht) hl⟩
    exact fun he => hunknown (he ▸ hmem)
  have hcontent (hne : membersOf base (leavesOfAll base ts) ≠ []) :=
    isNormal_ofMembers hne (nodup_eraseDups _) hmembers
  rw [ofLeaves_known hunknown]
  split
  · split
    · rfl
    · next hempty =>
      exact isNormal_nullable.mpr (hcontent fun hnil => hempty (by rw [hnil]; rfl))
  · next hnull =>
    refine (hcontent fun hnil => ?_).1
    -- a leaf of the first type is not for `null`, so it is a member
    obtain ⟨t, ht⟩ := List.exists_mem_of_ne_nil ts hne
    obtain ⟨l, hl⟩ := List.exists_mem_of_ne_nil _ (leaves_ne_nil (h t ht))
    have hmem := mem_leavesOfAll.mpr ⟨t, ht, hl⟩
    have hl' : l ∈ membersOf base (leavesOfAll base ts) := mem_membersOf.mpr
      ⟨hmem, by simpa using fun hl' => hnull (List.any_eq_true.mpr ⟨l, hmem, hl'⟩)⟩
    exact List.not_mem_nil (hnil ▸ hl')

theorem isNormal_orNull {t : Ty} (h : isNormal base t = true) :
    isNormal base (t.orNull base) = true := by
  refine isNormal_unionOf (List.cons_ne_nil _ _) fun u hu => ?_
  rcases List.mem_cons.mp hu with rfl | hu
  · exact h
  · exact List.mem_singleton.mp hu ▸ rfl

/-- Types in normal form for the parameters of a type give one in normal form. -/
theorem isNormal_substitute {owner : Site} {args : List Ty} {t : Ty}
    (ht : t.isNothingFree = true) (hargs : ∀ a ∈ args, isNormal base a = true) :
    isNormal base (t.substitute base owner args) = true := by
  induction t using byParts with
  | nothing => exact (Bool.false_ne_true ht).elim
  | unknown => rfl
  | literal s => rfl
  | param p =>
    rw [substitute]
    split
    · exact isNormal_argAt hargs p.index
    · rfl
  | nullable t ih => exact isNormal_orNull (ih ht)
  | union ms ih =>
    obtain ⟨hne, hms⟩ : ms ≠ [] ∧ ∀ m ∈ ms, m.isNothingFree = true := by
      simpa [isNothingFree] using ht
    rw [substitute, substituteAll_eq_map]
    exact isNormal_unionOf (by simpa using hne)
      (List.forall_mem_map.mpr fun m hm => ih m hm (hms m hm))
  | class_ d as ih | typeAlias d as ih =>
    rw [isNothingFree, areNothingFree_iff] at ht
    rw [substitute, substituteAll_eq_map, isNormal, areNormal_iff]
    exact List.forall_mem_map.mpr fun a ha => ih a ha (ht a ha)
  | function ps r ihps ihr =>
    rw [isNothingFree, Bool.and_eq_true, areNothingFree_iff] at ht
    rw [substitute, substituteAll_eq_map, isNormal, Bool.and_eq_true, areNormal_iff]
    exact ⟨List.forall_mem_map.mpr fun p hp => ihps p hp (ht.1 p hp), ihr ht.2⟩

end Ty

end PklAnalysis
