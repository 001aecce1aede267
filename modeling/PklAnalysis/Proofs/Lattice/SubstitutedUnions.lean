import PklAnalysis.Lattice.Table
import PklAnalysis.Proofs.Lattice.UnionLaws

/-!
# Substitution in unions

Substitution keeps the laws of unions, so rows that are alike stay alike, and it does not matter for
the union of some types whether the parameters are replaced before it is found or afterwards.  Only
arguments tell the two apart: they are put in as they are, so one that is not in normal form stays
so where a parameter stands alone, and is brought to normal form where it stands in a union.  Two
substitutions can change places under the same condition.
-/

namespace PklAnalysis

namespace Ty

/-- Whether a type is a type parameter of a declaration. -/
def isParamOf (owner : Site) : Ty → Bool
  | .param p => p.owner = owner
  | _ => false

variable {base : BaseTypes}

/-! ## Rows stay alike -/

theorem isNull_substitute {t : Ty} (h : base.isNull t = true) (owner : Site) (args : List Ty) :
    base.isNull (t.substitute base owner args) = true := by
  cases t with
  | «class» d as => exact h
  | _ => exact (Bool.false_ne_true h).elim

/-- Substitution keeps the laws. -/
theorem Alike.map_substitute {ts us : List Ty} (h : Alike base ts us) (owner : Site)
    (args : List Ty) :
    Alike base (ts.map (substitute base owner args)) (us.map (substitute base owner args)) := by
  induction h with
  | refl ts => exact .refl _
  | symm _ ih => exact ih.symm
  | trans _ _ ih ih' => exact ih.trans ih'
  | append _ _ ih ih' =>
    rw [List.map_append, List.map_append]
    exact ih.append ih'
  | union ms =>
    -- the substituted union is the union of the substituted members
    rw [List.map_singleton, substitute, substituteAll_eq_map]
    exact (alike_unionOf _).symm
  | nullable t =>
    rw [List.map_singleton, substitute, orNull]
    exact (alike_unionOf _).symm
  | nothing => exact .nothing
  | unknown h => exact .unknown (List.mem_map.mpr ⟨_, h, rfl⟩)
  | null h => exact .null (isNull_substitute h owner args)
  | moveNull t => exact .moveNull _
  | again h =>
    rw [List.map_append, List.map_singleton]
    exact .again (List.mem_map_of_mem h)

/-- Normal form aside, the union of some types may be found before a substitution. -/
theorem unionOf_substitute_unionOf (owner : Site) (args xs : List Ty) :
    unionOf base [(unionOf base xs).substitute base owner args] =
      unionOf base (xs.map (substitute base owner args)) :=
  ((alike_unionOf xs).map_substitute owner args).unionOf_eq.symm

section Arguments

variable {owner : Site} {args : List Ty} (hargs : ∀ a ∈ args, unionOf base [a] = a)
include hargs

/-- With arguments of the forms that unions have a type of one of these forms keeps to them. -/
theorem UnionForm.substitute {t : Ty} (h : UnionForm base t) :
    UnionForm base (t.substitute base owner args) := by
  cases h with
  | unknown => exact .unknown
  | nothing => exact .nothing
  | null => exact .null
  | nullable h => exact unionForm_unionOf _
  | alternatives h =>
    cases h with
    | several _ _ _ => exact unionForm_unionOf _
    | single h =>
      cases t with
      | param p =>
        rw [Ty.substitute]
        split
        · cases hi : args[p.index]? with
          | none => exact .unknown
          | some a => exact unionForm_iff.mpr (hargs a (List.mem_of_getElem? hi))
        · exact .alternatives (.single h)
      | unknown | nothing | nullable | union => exact (Bool.false_ne_true h).elim
      | «class» | typeAlias | function | literal => exact .alternatives (.single h)

/-- The union of some types may be found before a substitution. -/
theorem substitute_unionOf (xs : List Ty) : (unionOf base xs).substitute base owner args =
    unionOf base (xs.map (substitute base owner args)) := by
  have hform : UnionForm base ((unionOf base xs).substitute base owner args) :=
    (unionForm_unionOf xs).substitute hargs
  rw [← unionOf_substitute_unionOf, hform.unionOf_eq]

/-- A question mark may be put behind a type before a substitution, which leaves `null` as it is. -/
theorem substitute_orNull (t : Ty) : (t.orNull base).substitute base owner args =
    (t.substitute base owner args).orNull base :=
  substitute_unionOf hargs [t, base.nullType]

/-- A substitution in what a substitution gives can be made in what the first one puts in, if the
type mentions no parameters but those that the first one replaces. -/
theorem substitute_of_mentionsOnly {o : Site} (as : List Ty) {t : Ty}
    (ht : t.mentionsOnly o = true) :
    (t.substitute base o as).substitute base owner args =
      t.substitute base o (as.map (Ty.substitute base owner args)) := by
  have hall {ts : List Ty} (ih : ∀ t ∈ ts, t.mentionsOnly o = true →
      (t.substitute base o as).substitute base owner args =
        t.substitute base o (as.map (Ty.substitute base owner args)))
      (hts : allMentionOnly o ts = true) :
      (ts.map (Ty.substitute base o as)).map (Ty.substitute base owner args) =
        ts.map (Ty.substitute base o (as.map (Ty.substitute base owner args))) := by
    rw [List.map_map]
    exact List.map_congr_left fun t ht => ih t ht (allMentionOnly_iff.mp hts t ht)
  induction t using byParts with
  | unknown => rfl
  | nothing => rfl
  | literal s => rfl
  | nullable t ih =>
    rw [Ty.substitute, substitute_orNull hargs, ih ht]
    rfl
  | union ms ih =>
    rw [Ty.substitute, substituteAll_eq_map, substitute_unionOf hargs, hall ih ht, Ty.substitute,
      substituteAll_eq_map]
  | class_ d cs ih =>
    simp only [Ty.substitute, substituteAll_eq_map, hall ih ht]
  | typeAlias d cs ih =>
    simp only [Ty.substitute, substituteAll_eq_map, hall ih ht]
  | function ps r ihps ihr =>
    obtain ⟨hps, hr⟩ := Bool.and_eq_true_iff.mp ht
    simp only [Ty.substitute, substituteAll_eq_map, hall ihps hps, ihr hr]
  | param p =>
    have hp : p.owner = o := of_decide_eq_true ht
    rw [Ty.substitute, if_pos hp, Ty.substitute, if_pos hp, List.getElem?_map]
    cases as[p.index]? <;> rfl

end Arguments

/-- The union of any types may be found before a substitution exactly if the arguments are unions of
themselves. -/
theorem substitute_unionOf_iff (owner : Site) (args : List Ty) :
    (∀ xs, (unionOf base xs).substitute base owner args =
      unionOf base (xs.map (substitute base owner args))) ↔ ∀ a ∈ args, unionOf base [a] = a := by
  constructor
  · intro h a ha
    -- a parameter is its own union, and stands for the argument
    obtain ⟨i, hi⟩ := List.mem_iff_getElem?.mp ha
    have hparam : (Ty.param ⟨owner, i, ""⟩).substitute base owner args = a := by
      rw [substitute, if_pos rfl, hi, Option.getD_some]
    have hunion := h [.param ⟨owner, i, ""⟩]
    rw [List.map_singleton, hparam] at hunion
    exact hunion.symm.trans hparam
  · exact fun hargs => substitute_unionOf hargs

/-! ## Two substitutions -/

theorem alternatives_union {ms : List Ty} (h : (union ms).isNormalAt base = true) :
    Alternatives base (.union ms) := by
  rw [isNormalAt, Bool.and_eq_true, decide_eq_true_iff, List.all_eq_true] at h
  exact .several h.1.1 h.1.2 h.2

theorem unionForm_nullable {t : Ty} (h : (nullable t).isNormalAt base = true)
    (ht : t.isNormalAt base = true) : UnionForm base (.nullable t) := by
  cases t with
  | union ms => exact .nullable (alternatives_union ht)
  | _ => exact .nullable (.single h)

theorem unionForm_of_isNormalAt {t : Ty} (ht : ∀ u ∈ t.subterms, u.isNormalAt base = true)
    (hnull : base.isNull t = false) : UnionForm base t := by
  have hself := ht t (self_mem_subterms t)
  cases t with
  | unknown => exact .unknown
  | nothing => exact .nothing
  | nullable t =>
    exact unionForm_nullable hself (ht t (List.mem_cons_of_mem _ (self_mem_subterms t)))
  | union ms => exact .alternatives (alternatives_union hself)
  | _ => exact .alternatives (.single (isMember_iff.mpr ⟨rfl, nofun, hnull⟩))

/-- A parameter in a union by itself is replaced by the union of its argument. -/
theorem substitute_union_param (p : ParamRef) (owner : Site) (args : List Ty) :
    (union [.param p]).substitute base owner args =
      if p.owner = owner then unionOf base [args[p.index]?.getD .unknown] else .param p := by
  rw [substitute, substituteAll, substituteAll, substitute]
  split
  · rfl
  · exact (UnionForm.alternatives (.single rfl)).unionOf_eq

theorem map_eq_self {f : Ty → Ty} {ts : List Ty} (h : ∀ t ∈ ts, f t = t) : ts.map f = ts :=
  (List.map_congr_left h).trans (List.map_id ts)

/-- A type in normal form in which no parameter of a declaration occurs stays as it is when these
are replaced. -/
theorem substitute_eq_self {owner : Site} {t : Ty} (args : List Ty)
    (ht : ∀ u ∈ t.subterms, u.isNormalAt base = true ∧ u.isParamOf owner = false) :
    t.substitute base owner args = t := by
  have hall {ts : List Ty} (ih : ∀ t ∈ ts, (∀ u ∈ t.subterms, u.isNormalAt base = true ∧
      u.isParamOf owner = false) → t.substitute base owner args = t)
      (hts : ∀ u ∈ subtermsOfAll ts, u.isNormalAt base = true ∧ u.isParamOf owner = false) :
      substituteAll base owner args ts = ts := by
    rw [substituteAll_eq_map]
    exact map_eq_self fun t ht => ih t ht fun u hu => hts u (mem_subtermsOfAll.mpr ⟨t, ht, hu⟩)
  induction t using byParts with
  | unknown => rfl
  | nothing => rfl
  | literal s => rfl
  | nullable t ih =>
    obtain ⟨hself, hinner⟩ := List.forall_mem_cons.mp ht
    have hform : UnionForm base (.nullable t) :=
      unionForm_nullable hself.1 (hinner t (self_mem_subterms t)).1
    rw [substitute, ih hinner, orNull, ← (Alike.nullable t).unionOf_eq, hform.unionOf_eq]
  | union ms ih =>
    obtain ⟨hself, hinner⟩ := List.forall_mem_cons.mp ht
    have hform : UnionForm base (.union ms) := .alternatives (alternatives_union hself.1)
    rw [substitute, hall ih hinner, ← (Alike.union ms).unionOf_eq, hform.unionOf_eq]
  | class_ d as ih => rw [substitute, hall ih (List.forall_mem_cons.mp ht).2]
  | typeAlias d as ih => rw [substitute, hall ih (List.forall_mem_cons.mp ht).2]
  | function ps r ihps ihr =>
    obtain ⟨-, hinner⟩ := List.forall_mem_cons.mp ht
    rw [substitute, hall ihps fun u hu => hinner u (List.mem_append_left _ hu),
      ihr fun u hu => hinner u (List.mem_append_right _ hu)]
  | param p =>
    have hp : ¬p.owner = owner := of_decide_eq_false (ht _ (self_mem_subterms _)).2
    rw [substitute, if_neg hp]

section Exchange

variable {o p : Site} {as bs : List Ty} (hne : o ≠ p)
variable (hbs : ∀ b ∈ bs, ∀ u ∈ b.subterms, u.isNormalAt base = true ∧ u.isParamOf o = false)
include hne hbs

/-- Two substitutions can change places if the types that they put in are unions of themselves. -/
theorem substitute_substitute
    (has : ∀ a ∈ as, unionOf base [a.substitute base p bs] = a.substitute base p bs)
    (hbs' : ∀ b ∈ bs, unionOf base [b] = b) (t : Ty) :
    (t.substitute base o as).substitute base p bs =
      (t.substitute base p bs).substitute base o (as.map (substitute base p bs)) := by
  have has' : ∀ a ∈ as.map (substitute base p bs), unionOf base [a] = a :=
    List.forall_mem_map.mpr has
  have hall {ts : List Ty} (ih : ∀ t ∈ ts, (t.substitute base o as).substitute base p bs =
      (t.substitute base p bs).substitute base o (as.map (substitute base p bs))) :
      (ts.map (substitute base o as)).map (substitute base p bs) =
        (ts.map (substitute base p bs)).map
          (substitute base o (as.map (substitute base p bs))) := by
    rw [List.map_map, List.map_map]
    exact List.map_congr_left ih
  induction t using byParts with
  | unknown => rfl
  | nothing => rfl
  | literal s => rfl
  | nullable t ih =>
    rw [substitute, substitute, substitute_orNull hbs', substitute_orNull has', ih]
  | union ms ih =>
    rw [substitute, substitute, substituteAll_eq_map, substituteAll_eq_map,
      substitute_unionOf hbs', substitute_unionOf has', hall ih]
  | class_ d cs ih =>
    simp only [substitute, substituteAll_eq_map, hall ih]
  | typeAlias d cs ih =>
    simp only [substitute, substituteAll_eq_map, hall ih]
  | function qs r ihqs ihr =>
    simp only [substitute, substituteAll_eq_map, hall ihqs, ihr]
  | param q =>
    by_cases ho : q.owner = o
    · have hp : ¬q.owner = p := fun hp => hne (ho.symm.trans hp)
      rw [substitute, if_pos ho, substitute, if_neg hp, substitute, if_pos ho, List.getElem?_map]
      cases as[q.index]? <;> rfl
    by_cases hp : q.owner = p
    · rw [substitute, if_neg ho, substitute, if_pos hp]
      cases hi : bs[q.index]? with
      | none => rfl
      | some b => exact (substitute_eq_self _ (hbs b (List.mem_of_getElem? hi))).symm
    · rw [substitute, if_neg ho, substitute, if_neg hp, substitute, if_neg ho]

/-- Two substitutions can change places in all types exactly if the types that they put in are
unions of themselves. -/
theorem substitute_substitute_iff :
    (∀ t : Ty, (t.substitute base o as).substitute base p bs =
      (t.substitute base p bs).substitute base o (as.map (substitute base p bs))) ↔
    (∀ a ∈ as, unionOf base [a.substitute base p bs] = a.substitute base p bs) ∧
      ∀ b ∈ bs, unionOf base [b] = b := by
  constructor
  · intro h
    -- a union of one parameter shows what is put in for it, as it is or in normal form
    have hbs' : ∀ b ∈ bs, unionOf base [b] = b := by
      intro b hb
      cases hnull : base.isNull b with
      | false => exact (unionForm_of_isNormalAt (fun u hu => (hbs b hb u hu).1) hnull).unionOf_eq
      | true =>
        -- the union is `null`, in which the other substitution finds nothing to replace
        have hunion : unionOf base [b] = base.nullType :=
          (Alike.null hnull).unionOf_eq.trans UnionForm.null.unionOf_eq
        obtain ⟨i, hi⟩ := List.mem_iff_getElem?.mp hb
        have hone := h (.union [.param ⟨p, i, ""⟩])
        rw [substitute_union_param, if_neg hne.symm, substitute_union_param, if_pos rfl, hi,
          Option.getD_some, hunion, substitute, if_pos rfl, hi, Option.getD_some] at hone
        exact hunion.trans hone.symm
    refine ⟨fun a ha => ?_, hbs'⟩
    obtain ⟨i, hi⟩ := List.mem_iff_getElem?.mp ha
    have hone := h (.union [.param ⟨o, i, ""⟩])
    rw [substitute_union_param, if_pos rfl, hi, Option.getD_some, substitute_unionOf hbs',
      List.map_singleton, substitute_union_param, if_neg hne, substitute, if_pos rfl,
      List.getElem?_map, hi, Option.map_some, Option.getD_some] at hone
    exact hone
  · exact fun h => substitute_substitute hne hbs h.1 h.2

end Exchange

/-- Substitution can be made in the alternatives of a union or in the union exactly if the arguments
are unions of themselves, and two substitutions, of which the second one puts in types in normal
form without parameters of the first, can change places exactly if what they put in are unions of
themselves. -/
theorem substitute_commutes_iff (base : BaseTypes) (o : Site) (as : List Ty) :
    ((∀ xs, (unionOf base xs).substitute base o as = unionOf base (xs.map (substitute base o as))) ↔
      ∀ a ∈ as, unionOf base [a] = a) ∧
    ∀ (p : Site) (bs : List Ty), o ≠ p →
      (∀ b ∈ bs, ∀ u ∈ b.subterms, u.isNormalAt base = true ∧ u.isParamOf o = false) →
      ((∀ t : Ty, (t.substitute base o as).substitute base p bs =
          (t.substitute base p bs).substitute base o (as.map (substitute base p bs))) ↔
        (∀ a ∈ as, unionOf base [a.substitute base p bs] = a.substitute base p bs) ∧
          ∀ b ∈ bs, unionOf base [b] = b) :=
  ⟨substitute_unionOf_iff o as, fun _ _ hne hbs => substitute_substitute_iff hne hbs⟩

end Ty

namespace TypeTable

/-- An optional parameter and a text for it: both are in normal form after the substitutions. -/
theorem substitute_commutes_optional :
    let o : Site := ⟨baseModule, 40⟩
    let p : Site := ⟨baseModule, 41⟩
    let element : Ty := .param ⟨p, 0, "Element"⟩
    let string : Ty := baseTypes.stringType
    ∀ t : Ty, (t.substitute baseTypes o [.nullable element]).substitute baseTypes p [string] =
      (t.substitute baseTypes p [string]).substitute baseTypes o [.nullable string] := by
  intro o p element string
  have hcommutes := (Ty.substitute_commutes_iff baseTypes o [.nullable element]).2 p [string]
    (by decide) (by decide)
  have hargs : [Ty.nullable element].map (Ty.substitute baseTypes p [string]) =
      [.nullable string] := by decide
  rw [hargs] at hcommutes
  exact hcommutes.mpr (by decide)

/-- An argument that is not a union of itself is brought to normal form in a union only, which a
parameter alone and the union of this parameter tell apart. -/
theorem not_forall_substitute_commutes :
    (¬∀ (base : BaseTypes) (o : Site) (as xs : List Ty), (Ty.unionOf base xs).substitute base o as =
      Ty.unionOf base (xs.map (Ty.substitute base o as))) ∧
    ¬∀ (base : BaseTypes) (o p : Site) (as bs : List Ty) (t : Ty), o ≠ p →
      (∀ b ∈ bs, Ty.unionOf base [b] = b ∧
        ∀ u ∈ b.subterms, u.isNormalAt base = true ∧ u.isParamOf o = false) →
      (t.substitute base o as).substitute base p bs =
        (t.substitute base p bs).substitute base o (as.map (Ty.substitute base p bs)) := by
  let o : Site := ⟨baseModule, 40⟩
  let p : Site := ⟨baseModule, 41⟩
  let value : Ty := .param ⟨o, 0, "Value"⟩
  let int : Ty := .class baseTypes.int []
  constructor
  · -- a bare union of one type
    intro h
    exact absurd (h baseTypes o [.union [int]] [value]) (by decide)
  · -- the class of `null` with an argument
    intro h
    exact absurd (h baseTypes o p [.class baseTypes.null [int]] [] (.union [value]) (by decide)
      (List.forall_mem_nil _)) (by decide)

end TypeTable

end PklAnalysis
