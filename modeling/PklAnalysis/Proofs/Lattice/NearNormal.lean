import PklAnalysis.Proofs.Lattice.NormalTypes

/-!
# Types nearly in normal form

Erasure puts the unknown type in the place of type parameters and leaves the rest of a type as it
is, so unions may have the unknown type among their members afterwards, and question marks may stand
behind it.  Apart from that types stay in normal form: `Ty.NearNormal` says so of every subterm, and
passes from types to all that the analysis makes of them.  What is nearly in normal form is in
normal form exactly if it is not blurred, as it never is where the unknown type does not occur.
-/

namespace PklAnalysis

namespace Ty

/-! ## Subterms -/

mutual

/-- A type and all types that it is made of. -/
def subterms : Ty → List Ty
  | .nullable t => .nullable t :: subterms t
  | .union ms => .union ms :: subtermsOfAll ms
  | .class d args => .class d args :: subtermsOfAll args
  | .typeAlias d args => .typeAlias d args :: subtermsOfAll args
  | .function ps r => .function ps r :: (subtermsOfAll ps ++ subterms r)
  | t => [t]

def subtermsOfAll : List Ty → List Ty
  | [] => []
  | t :: ts => subterms t ++ subtermsOfAll ts

end

/-- The unknown type does not occur in a type. -/
def IsDetermined (t : Ty) : Prop := .unknown ∉ t.subterms

instance (t : Ty) : Decidable t.IsDetermined := inferInstanceAs (Decidable (_ ∉ _))

/-- The unknown type is among the members of a union or stands before a question mark, or members of
a union are equal. -/
def IsBlurred : Ty → Prop
  | .union ms => .unknown ∈ ms ∨ ¬ms.Nodup
  | .nullable t => t = .unknown
  | _ => False

instance : ∀ t : Ty, Decidable t.IsBlurred
  | .union ms => inferInstanceAs (Decidable (.unknown ∈ ms ∨ ¬ms.Nodup))
  | .nullable t => inferInstanceAs (Decidable (t = .unknown))
  | .unknown | .nothing | .class .. | .typeAlias .. | .function .. | .literal _ | .param _ =>
    inferInstanceAs (Decidable False)

section Forms

variable (base : BaseTypes)

/-- Whether a type is in normal form as far as its own constructor goes: a union has several
members, all different, none of which is unknown, `nothing`, `Null`, a union or has a question mark,
and none of these but a union stands before a question mark. -/
def isNormalAt : Ty → Bool
  | .union ms => decide (2 ≤ ms.length ∧ ms.Nodup) && ms.all (isMember base)
  | .nullable t => t.isContent base
  | _ => true

/-- Whether a type may be a member of a union that is nearly in normal form. -/
def isNearMember (t : Ty) : Bool := t.isLeaf && !base.isNull t

/-- Whether a type may stand before a question mark if it is nearly in normal form. -/
def isNearContent : Ty → Bool
  | .union _ => true
  | t => t.isNearMember base

/-- Whether a type is in normal form as far as its own constructor goes, but for the unknown type,
which may be a member or stand before a question mark.  Members in which it occurs may be equal. -/
def isNearNormalAt : Ty → Bool
  | .union ms =>
    decide (2 ≤ ms.length ∧ (ms.filter (decide ·.IsDetermined)).Nodup) && ms.all (isNearMember base)
  | .nullable t => t.isNearContent base
  | _ => true

/-- A type is nearly in normal form at every depth. -/
def NearNormal (t : Ty) : Prop := ∀ u ∈ t.subterms, u.isNearNormalAt base = true

end Forms

theorem mem_subtermsOfAll {ts : List Ty} {u : Ty} :
    u ∈ subtermsOfAll ts ↔ ∃ t ∈ ts, u ∈ t.subterms := by
  induction ts with
  | nil =>
    refine iff_of_false List.not_mem_nil ?_
    rintro ⟨t, ht, -⟩
    exact List.not_mem_nil ht
  | cons t ts ih =>
    simp only [List.mem_cons, exists_eq_or_imp, ← ih]
    exact List.mem_append

theorem forall_mem_subtermsOfAll {p : Ty → Prop} {ts : List Ty} :
    (∀ u ∈ subtermsOfAll ts, p u) ↔ ∀ t ∈ ts, ∀ u ∈ t.subterms, p u := by
  simp only [mem_subtermsOfAll]
  exact ⟨fun h t ht u hu => h u ⟨t, ht, hu⟩, fun h u ⟨t, ht, hu⟩ => h t ht u hu⟩

theorem self_mem_subterms (t : Ty) : t ∈ t.subterms := by
  cases t <;> exact List.mem_cons_self

variable {base : BaseTypes}

/-! ## Where types are in normal form -/

theorem isMember_iff_ne_unknown {t : Ty} (h : t.isNearMember base = true) :
    t.isMember base = true ↔ t ≠ .unknown := by
  rw [isNearMember, Bool.and_eq_true, Bool.not_eq_true'] at h
  exact isMember_iff.trans ⟨fun hm => hm.2.1, fun hunknown => ⟨h.1, hunknown, h.2⟩⟩

theorem isContent_iff_ne_unknown {t : Ty} (h : t.isNearContent base = true) :
    t.isContent base = true ↔ t ≠ .unknown := by
  cases t with
  | union ms => exact iff_of_true rfl fun h => nomatch h
  | _ => exact isMember_iff_ne_unknown h

/-- What is nearly in normal form is in normal form exactly if it is not blurred. -/
theorem isNormalAt_iff_not_isBlurred {t : Ty} (h : t.isNearNormalAt base = true) :
    t.isNormalAt base = true ↔ ¬t.IsBlurred := by
  cases t with
  | union ms =>
    simp only [isNearNormalAt, Bool.and_eq_true, decide_eq_true_iff, List.all_eq_true] at h
    obtain ⟨⟨hlength, -⟩, hmembers⟩ := h
    have hknown : (∀ m ∈ ms, m.isMember base = true) ↔ .unknown ∉ ms := by
      refine (forall₂_congr fun m hm => isMember_iff_ne_unknown (hmembers m hm)).trans ?_
      exact ⟨fun h hmem => h _ hmem rfl, fun h m hm heq => h (heq ▸ hm)⟩
    simp only [isNormalAt, IsBlurred, Bool.and_eq_true, decide_eq_true_iff, List.all_eq_true,
      hknown, not_or, not_not]
    exact ⟨fun h => ⟨h.2, h.1.2⟩, fun h => ⟨⟨hlength, h.2⟩, h.1⟩⟩
  | nullable t => exact isContent_iff_ne_unknown h
  | _ => exact iff_of_true rfl id

/-- The unknown type occurs in what is blurred. -/
theorem unknown_mem_subterms {t : Ty} (h : t.isNearNormalAt base = true) (ht : t.IsBlurred) :
    .unknown ∈ t.subterms := by
  cases t with
  | union ms =>
    rcases ht with hmem | hrepeated
    · exact List.mem_cons_of_mem _ (mem_subtermsOfAll.mpr ⟨_, hmem, self_mem_subterms _⟩)
    · -- otherwise all members would be determined, and those are different
      by_contra hunknown
      have hms (m : Ty) (hm : m ∈ ms) : m.IsDetermined := fun h =>
        hunknown (List.mem_cons_of_mem _ (mem_subtermsOfAll.mpr ⟨m, hm, h⟩))
      simp only [isNearNormalAt, Bool.and_eq_true, decide_eq_true_iff] at h
      rw [List.filter_eq_self.mpr fun m hm => decide_eq_true (hms m hm)] at h
      exact hrepeated h.1.2
  | nullable t =>
    obtain rfl : t = .unknown := ht
    exact List.mem_cons_of_mem _ (self_mem_subterms _)
  | _ => exact ht.elim

namespace NearNormal

/-! ## Parts -/

theorem nullable_iff {t : Ty} :
    NearNormal base (.nullable t) ↔ t.isNearContent base = true ∧ NearNormal base t :=
  List.forall_mem_cons

theorem union_iff {ms : List Ty} : NearNormal base (.union ms) ↔
    (2 ≤ ms.length ∧ (ms.filter (decide ·.IsDetermined)).Nodup) ∧
      ∀ m ∈ ms, m.isNearMember base = true ∧ NearNormal base m := by
  refine (List.forall_mem_cons.trans (and_congr_right' forall_mem_subtermsOfAll)).trans ?_
  rw [isNearNormalAt, Bool.and_eq_true, decide_eq_true_iff, List.all_eq_true, and_assoc,
    ← forall₂_and]
  exact Iff.rfl

theorem class_iff {d : DeclRef} {args : List Ty} :
    NearNormal base (.class d args) ↔ ∀ a ∈ args, NearNormal base a :=
  List.forall_mem_cons.trans (.trans (and_iff_right rfl) forall_mem_subtermsOfAll)

theorem typeAlias_iff {d : DeclRef} {args : List Ty} :
    NearNormal base (.typeAlias d args) ↔ ∀ a ∈ args, NearNormal base a :=
  List.forall_mem_cons.trans (.trans (and_iff_right rfl) forall_mem_subtermsOfAll)

theorem function_iff {ps : List Ty} {r : Ty} : NearNormal base (.function ps r) ↔
    (∀ p ∈ ps, NearNormal base p) ∧ NearNormal base r := by
  refine List.forall_mem_cons.trans (.trans (and_iff_right rfl) ?_)
  rw [List.forall_mem_append, forall_mem_subtermsOfAll]
  exact Iff.rfl

theorem unknown : NearNormal base .unknown := List.forall_mem_singleton.mpr rfl

theorem nothing : NearNormal base .nothing := List.forall_mem_singleton.mpr rfl

theorem literal (s : String) : NearNormal base (.literal s) := List.forall_mem_singleton.mpr rfl

theorem param (p : ParamRef) : NearNormal base (.param p) := List.forall_mem_singleton.mpr rfl

theorem plain (d : DeclRef) : NearNormal base (BaseTypes.plain d) :=
  class_iff.mpr (List.forall_mem_nil _)

theorem argAt {args : List Ty} (h : ∀ a ∈ args, NearNormal base a) (i : Nat) :
    NearNormal base (PklAnalysis.argAt args i) := by
  rw [PklAnalysis.argAt]
  cases hi : args[i]? with
  | none => exact unknown
  | some a => exact h a (List.mem_of_getElem? hi)

theorem functionView {ps : List Ty} {r : Ty} (hps : ∀ p ∈ ps, NearNormal base p)
    (hr : NearNormal base r) : NearNormal base (base.functionView ps r) := by
  rw [BaseTypes.functionView]
  split
  · exact class_iff.mpr (List.forall_mem_append.mpr ⟨hps, List.forall_mem_singleton.mpr hr⟩)
  · exact plain _

/-! ## Unions -/

theorem of_mem_leaves {t l : Ty} (h : NearNormal base t) (hl : l ∈ leaves base t) :
    NearNormal base l := by
  induction t using byParts with
  | nothing => exact (List.not_mem_nil hl).elim
  | nullable t ih =>
    rcases List.mem_cons.mp hl with rfl | hl
    · exact plain _
    · exact ih (nullable_iff.mp h).2 hl
  | union ms ih =>
    rw [leaves, leavesOfAll_eq_flatMap] at hl
    obtain ⟨m, hm, hl⟩ := List.mem_flatMap.mp hl
    exact ih m hm ((union_iff.mp h).2 m hm).2 hl
  | unknown | class_ | typeAlias | function | literal | param =>
    rw [leaves_of_isLeaf rfl, List.mem_singleton] at hl
    exact hl ▸ h

theorem ofMembers {ms : List Ty} (hnodup : ms.Nodup)
    (h : ∀ m ∈ ms, m.isNearMember base = true ∧ NearNormal base m) :
    NearNormal base (Ty.ofMembers ms) ∧
      (ms ≠ [] → (Ty.ofMembers ms).isNearContent base = true) := by
  match ms with
  | [] => exact ⟨nothing, fun h => absurd rfl h⟩
  | [m] =>
    obtain ⟨hm, hnear⟩ := h m (List.mem_singleton_self m)
    refine ⟨hnear, fun _ => ?_⟩
    cases m <;> first | exact hm | rfl
  | m :: n :: ms =>
    refine ⟨union_iff.mpr ⟨⟨Nat.le_add_left 2 ms.length, ?_⟩, h⟩, fun _ => rfl⟩
    exact hnodup.filter _

/-- Unions of types nearly in normal form are so too. -/
theorem unionOf {ts : List Ty} (h : ∀ t ∈ ts, NearNormal base t) :
    NearNormal base (Ty.unionOf base ts) := by
  rw [unionOf_eq]
  by_cases hunknown : .unknown ∈ leavesOfAll base ts
  · rw [ofLeaves_unknown hunknown]
    exact unknown
  have hmembers : ∀ m ∈ membersOf base (leavesOfAll base ts),
      m.isNearMember base = true ∧ NearNormal base m := by
    intro m hm
    obtain ⟨hmem, hnull⟩ := mem_membersOf.mp hm
    obtain ⟨t, ht, hl⟩ := mem_leavesOfAll.mp hmem
    refine ⟨?_, (h t ht).of_mem_leaves hl⟩
    rw [isNearMember, isLeaf_of_mem_leaves hl, hnull]
    rfl
  obtain ⟨hnear, hcontent⟩ := ofMembers (nodup_eraseDups _) hmembers
  rw [ofLeaves_known hunknown]
  split
  · split
    · exact plain _
    · next hempty =>
      refine nullable_iff.mpr ⟨hcontent fun hnil => hempty ?_, hnear⟩
      rw [← membersOf] at hnil
      rw [hnil]
      rfl
  · exact hnear

theorem orNull {t : Ty} (h : NearNormal base t) : NearNormal base (t.orNull base) := by
  refine unionOf fun u hu => ?_
  rcases List.mem_cons.mp hu with rfl | hu
  · exact h
  · exact List.mem_singleton.mp hu ▸ plain _

/-- Types nearly in normal form for the parameters of any type, since all of it that is not a class,
a type alias or a function is brought to normal form. -/
theorem substitute (t : Ty) (owner : Site) {args : List Ty}
    (hargs : ∀ a ∈ args, NearNormal base a) : NearNormal base (t.substitute base owner args) := by
  induction t using byParts with
  | unknown => exact unknown
  | nothing => exact nothing
  | literal s => exact literal s
  | param p =>
    rw [Ty.substitute]
    split
    · exact argAt hargs p.index
    · exact param p
  | nullable t ih => exact ih.orNull
  | union ms ih =>
    rw [Ty.substitute, substituteAll_eq_map]
    exact unionOf (List.forall_mem_map.mpr ih)
  | class_ d as ih =>
    rw [Ty.substitute, substituteAll_eq_map]
    exact class_iff.mpr (List.forall_mem_map.mpr ih)
  | typeAlias d as ih =>
    rw [Ty.substitute, substituteAll_eq_map]
    exact typeAlias_iff.mpr (List.forall_mem_map.mpr ih)
  | function ps r ihps ihr =>
    rw [Ty.substitute, substituteAll_eq_map]
    exact function_iff.mpr ⟨List.forall_mem_map.mpr ihps, ihr⟩

end NearNormal

/-! ## Erasure -/

theorem isNearMember_erase {t : Ty} (h : t.isNearMember base = true) :
    t.erase.isNearMember base = true := by
  cases t <;> exact h

theorem isNearContent_erase {t : Ty} (h : t.isNearContent base = true) :
    t.erase.isNearContent base = true := by
  cases t <;> exact h

/-- A type in which nothing is unknown after erasure has no parameters. -/
theorem erase_of_isDetermined {t : Ty} (h : t.erase.IsDetermined) : t.erase = t := by
  have hmap {ts : List Ty} (hts : ∀ t ∈ ts, t.erase.IsDetermined → t.erase = t)
      (h : Ty.unknown ∉ subtermsOfAll (ts.map erase)) : ts.map erase = ts := by
    have hid : ts.map erase = ts.map id := List.map_congr_left fun t ht => hts t ht fun hu =>
      h (mem_subtermsOfAll.mpr ⟨t.erase, List.mem_map_of_mem ht, hu⟩)
    rw [hid, List.map_id]
  induction t using byParts with
  | unknown | nothing | literal => rfl
  | param p => exact absurd (self_mem_subterms _) h
  | nullable t ih => exact congrArg Ty.nullable (ih fun hu => h (List.mem_cons_of_mem _ hu))
  | class_ d args ih | typeAlias d args ih | union ms ih =>
    rw [erase, eraseAll_eq_map] at h ⊢
    rw [hmap ih fun hu => h (List.mem_cons_of_mem _ hu)]
  | function ps r ihps ihr =>
    rw [erase, eraseAll_eq_map] at h ⊢
    rw [hmap ihps fun hu => h (List.mem_cons_of_mem _ (List.mem_append_left _ hu)),
      ihr fun hu => h (List.mem_cons_of_mem _ (List.mem_append_right _ hu))]

/-- The determined types among erased ones are among the determined types before. -/
theorem filter_map_erase_sublist (ts : List Ty) :
    ((ts.map erase).filter (decide ·.IsDetermined)).Sublist
      (ts.filter (decide ·.IsDetermined)) := by
  induction ts with
  | nil => exact .slnil
  | cons t ts ih =>
    rw [List.map_cons]
    by_cases h : t.erase.IsDetermined
    · have herase := erase_of_isDetermined h
      rw [herase] at h ⊢
      rw [List.filter_cons_of_pos (by simpa using h), List.filter_cons_of_pos (by simpa using h)]
      exact ih.cons_cons t
    · rw [List.filter_cons_of_neg (by simpa using h)]
      exact ih.trans ((List.sublist_cons_self t ts).filter _)

theorem NearNormal.erase {t : Ty} (h : NearNormal base t) : NearNormal base t.erase := by
  induction t using byParts with
  | unknown | nothing | literal => exact h
  | param p => exact .unknown
  | nullable t ih =>
    obtain ⟨hcontent, ht⟩ := nullable_iff.mp h
    exact nullable_iff.mpr ⟨isNearContent_erase hcontent, ih ht⟩
  | union ms ih =>
    obtain ⟨⟨hlength, hnodup⟩, hms⟩ := union_iff.mp h
    rw [Ty.erase, eraseAll_eq_map]
    refine union_iff.mpr ⟨⟨by rwa [List.length_map], ?_⟩, List.forall_mem_map.mpr fun m hm => ?_⟩
    · exact hnodup.sublist (filter_map_erase_sublist ms)
    · exact ⟨isNearMember_erase (hms m hm).1, ih m hm (hms m hm).2⟩
  | class_ d as ih =>
    rw [Ty.erase, eraseAll_eq_map]
    exact class_iff.mpr (List.forall_mem_map.mpr fun a ha => ih a ha (class_iff.mp h a ha))
  | typeAlias d as ih =>
    rw [Ty.erase, eraseAll_eq_map]
    exact typeAlias_iff.mpr (List.forall_mem_map.mpr fun a ha => ih a ha (typeAlias_iff.mp h a ha))
  | function ps r ihps ihr =>
    obtain ⟨hps, hr⟩ := function_iff.mp h
    rw [Ty.erase, eraseAll_eq_map]
    exact function_iff.mpr ⟨List.forall_mem_map.mpr fun p hp => ihps p hp (hps p hp), ihr hr⟩

end Ty

end PklAnalysis
