import PklAnalysis.Proofs.Lattice.NormalTypes

/-!
# Precision

A type becomes less precise when parts of it are replaced by the unknown type and its unions and
question marks are brought to normal form again; `Ty.LessPrecise` says so.  Normal forms hide which
parts have been replaced: members become equal and unions collapse.  What stays visible is that the
type is unknown or that its leaves and those of the more precise type match each other, up to their
parts.  `Ty.Vaguer` is this relation, which normal forms and replaced parameters respect.
-/

namespace PklAnalysis

namespace Ty

/-- Lists of types of one length that are related place by place. -/
def Pointwise (X : Ty → Ty → Prop) (as bs : List Ty) : Prop :=
  as.length = bs.length ∧ ∀ i < bs.length, X (argAt as i) (argAt bs i)

/-- A type with parts replaced by the unknown type, and with its unions and question marks brought
to normal form again. -/
inductive LessPrecise (base : BaseTypes) : Ty → Ty → Prop
  | unknown (t : Ty) : LessPrecise base .unknown t
  | nothing : LessPrecise base .nothing .nothing
  | literal (text : String) : LessPrecise base (.literal text) (.literal text)
  | param (p : ParamRef) : LessPrecise base (.param p) (.param p)
  | nullable {t' t : Ty} (h : LessPrecise base t' t) :
      LessPrecise base (t'.orNull base) (.nullable t)
  | union {ms' ms : List Ty} (hlength : ms'.length = ms.length)
      (h : ∀ i < ms.length, LessPrecise base (argAt ms' i) (argAt ms i)) :
      LessPrecise base (unionOf base ms') (.union ms)
  | class (d : DeclRef) {args' args : List Ty} (hlength : args'.length = args.length)
      (h : ∀ i < args.length, LessPrecise base (argAt args' i) (argAt args i)) :
      LessPrecise base (.class d args') (.class d args)
  | typeAlias (d : DeclRef) {args' args : List Ty} (hlength : args'.length = args.length)
      (h : ∀ i < args.length, LessPrecise base (argAt args' i) (argAt args i)) :
      LessPrecise base (.typeAlias d args') (.typeAlias d args)
  | function {ps' ps : List Ty} {r' r : Ty} (hlength : ps'.length = ps.length)
      (h : ∀ i < ps.length, LessPrecise base (argAt ps' i) (argAt ps i))
      (hr : LessPrecise base r' r) : LessPrecise base (.function ps' r') (.function ps r)

/-! ## Leaves that match -/

/-- Two leaves are the same but for their parts, which are related. -/
def SameLeaf (X : Ty → Ty → Prop) : Ty → Ty → Prop
  | .class d as, .class e bs => d = e ∧ Pointwise X as bs
  | .typeAlias d as, .typeAlias e bs => d = e ∧ Pointwise X as bs
  | .function ps r, .function qs s => Pointwise X ps qs ∧ X r s
  | .literal s, .literal t => s = t
  | .param p, .param q => p = q
  | _, _ => False

/-- A type is unknown, or its leaves and those of another type match each other. -/
def Matches (base : BaseTypes) (X : Ty → Ty → Prop) (t' t : Ty) : Prop :=
  t' = .unknown ∨
    (∀ l' ∈ leaves base t', ∃ l ∈ leaves base t, SameLeaf X l' l) ∧
      ∀ l ∈ leaves base t, ∃ l' ∈ leaves base t', SameLeaf X l' l

/-- A type in normal form says less than another one: at every depth it is unknown or its leaves
match. -/
def Vaguer (base : BaseTypes) (t' t : Ty) : Prop :=
  ∃ R : Ty → Ty → Prop, (∀ x y, R x y → isNormal base x = true ∧ isNormal base y = true ∧
    Matches base R x y) ∧ R t' t

variable {base : BaseTypes}

section Mono

variable {X Y : Ty → Ty → Prop} (h : ∀ a b, X a b → Y a b)
include h

theorem Pointwise.mono {as bs : List Ty} (hX : Pointwise X as bs) : Pointwise Y as bs :=
  ⟨hX.1, fun i hi => h _ _ (hX.2 i hi)⟩

theorem SameLeaf.mono {l' l : Ty} (hX : SameLeaf X l' l) : SameLeaf Y l' l := by
  unfold SameLeaf at hX ⊢
  split at hX
  · exact ⟨hX.1, hX.2.mono h⟩
  · exact ⟨hX.1, hX.2.mono h⟩
  · exact ⟨hX.1.mono h, h _ _ hX.2⟩
  · exact hX
  · exact hX
  · exact hX.elim

theorem Matches.mono {t' t : Ty} (hX : Matches base X t' t) : Matches base Y t' t := by
  refine hX.imp_right fun hX => ⟨fun l' hl' => ?_, fun l hl => ?_⟩
  · obtain ⟨l, hl, hsame⟩ := hX.1 l' hl'
    exact ⟨l, hl, hsame.mono h⟩
  · obtain ⟨l', hl', hsame⟩ := hX.2 l hl
    exact ⟨l', hl', hsame.mono h⟩

end Mono

theorem Pointwise.exists_right {X : Ty → Ty → Prop} {as bs : List Ty} (h : Pointwise X as bs)
    {a : Ty} (ha : a ∈ as) : ∃ b ∈ bs, X a b := by
  obtain ⟨i, hi, rfl⟩ := List.mem_iff_getElem.mp ha
  have hi' : i < bs.length := h.1 ▸ hi
  have hX := h.2 i hi'
  simp only [PklAnalysis.argAt, List.getElem?_eq_getElem hi, List.getElem?_eq_getElem hi'] at hX
  exact ⟨bs[i], List.getElem_mem hi', hX⟩

theorem Pointwise.exists_left {X : Ty → Ty → Prop} {as bs : List Ty} (h : Pointwise X as bs)
    {b : Ty} (hb : b ∈ bs) : ∃ a ∈ as, X a b := by
  obtain ⟨i, hi, rfl⟩ := List.mem_iff_getElem.mp hb
  have hi' : i < as.length := h.1.symm ▸ hi
  have hX := h.2 i hi
  simp only [PklAnalysis.argAt, List.getElem?_eq_getElem hi, List.getElem?_eq_getElem hi'] at hX
  exact ⟨as[i], List.getElem_mem hi', hX⟩

theorem vaguer_iff {t' t : Ty} : Vaguer base t' t ↔
    isNormal base t' = true ∧ isNormal base t = true ∧ Matches base (Vaguer base) t' t := by
  constructor
  · rintro ⟨R, hR, h⟩
    obtain ⟨ht', ht, hmatches⟩ := hR t' t h
    exact ⟨ht', ht, hmatches.mono fun x y hxy => ⟨R, hR, hxy⟩⟩
  · intro h
    refine ⟨fun x y => isNormal base x = true ∧ isNormal base y = true ∧
      Matches base (Vaguer base) x y, fun x y hxy => ?_, h⟩
    refine ⟨hxy.1, hxy.2.1, hxy.2.2.mono fun u v huv => ?_⟩
    obtain ⟨R, hR, huv⟩ := huv
    obtain ⟨hu, hv, hmatches⟩ := hR u v huv
    exact ⟨hu, hv, hmatches.mono fun x y hxy => ⟨R, hR, hxy⟩⟩

theorem Vaguer.isNormal_left {t' t : Ty} (h : Vaguer base t' t) : isNormal base t' = true :=
  (vaguer_iff.mp h).1

theorem Vaguer.isNormal_right {t' t : Ty} (h : Vaguer base t' t) : isNormal base t = true :=
  (vaguer_iff.mp h).2.1

theorem Pointwise.isNormal_left {as bs : List Ty} (h : Pointwise (Vaguer base) as bs) :
    ∀ a ∈ as, isNormal base a = true := fun _ ha =>
  let ⟨_, _, hX⟩ := h.exists_right ha
  hX.isNormal_left

theorem Pointwise.isNormal_right {as bs : List Ty} (h : Pointwise (Vaguer base) as bs) :
    ∀ b ∈ bs, isNormal base b = true := fun _ hb =>
  let ⟨_, _, hX⟩ := h.exists_left hb
  hX.isNormal_right

theorem Vaguer.unknown {t : Ty} (h : isNormal base t = true) : Vaguer base .unknown t :=
  vaguer_iff.mpr ⟨rfl, h, .inl rfl⟩

/-- Leaves that match, up to vaguer parts. -/
theorem SameLeaf.isNormal {l' l : Ty} (h : SameLeaf (Vaguer base) l' l) :
    isNormal base l' = true ∧ isNormal base l = true := by
  unfold SameLeaf at h
  split at h
  · exact ⟨areNormal_iff.mpr h.2.isNormal_left, areNormal_iff.mpr h.2.isNormal_right⟩
  · exact ⟨areNormal_iff.mpr h.2.isNormal_left, areNormal_iff.mpr h.2.isNormal_right⟩
  · simp only [Ty.isNormal, Bool.and_eq_true, areNormal_iff]
    exact ⟨⟨h.1.isNormal_left, h.2.isNormal_left⟩, h.1.isNormal_right, h.2.isNormal_right⟩
  · exact ⟨rfl, rfl⟩
  · exact ⟨rfl, rfl⟩
  · exact h.elim

theorem SameLeaf.isLeaf {X : Ty → Ty → Prop} {l' l : Ty} (h : SameLeaf X l' l) :
    l'.isLeaf = true ∧ l.isLeaf = true := by
  unfold SameLeaf at h
  split at h <;> first | exact ⟨rfl, rfl⟩ | exact h.elim

theorem SameLeaf.vaguer {l' l : Ty} (h : SameLeaf (Vaguer base) l' l) : Vaguer base l' l := by
  refine vaguer_iff.mpr ⟨h.isNormal.1, h.isNormal.2, .inr ?_⟩
  rw [leaves_of_isLeaf h.isLeaf.1, leaves_of_isLeaf h.isLeaf.2]
  simpa using h

/-- A leaf of a vaguer type matches a leaf of the other type, unless the type is unknown. -/
theorem Vaguer.exists_leaf {t' t l' : Ty} (h : Vaguer base t' t) (hl' : l' ∈ leaves base t') :
    l' = .unknown ∨ ∃ l ∈ leaves base t, SameLeaf (Vaguer base) l' l := by
  obtain ⟨-, -, rfl | ⟨hfrom, -⟩⟩ := vaguer_iff.mp h
  · exact .inl (List.mem_singleton.mp hl')
  · exact .inr (hfrom l' hl')

/-- A leaf of a type is matched by a leaf of a vaguer one, unless that is unknown. -/
theorem Vaguer.exists_vaguer_leaf {t' t l : Ty} (h : Vaguer base t' t) (hl : l ∈ leaves base t) :
    t' = .unknown ∨ ∃ l' ∈ leaves base t', SameLeaf (Vaguer base) l' l :=
  (vaguer_iff.mp h).2.2.imp_right fun h => h.2 l hl

section Inversion

variable {X : Ty → Ty → Prop} {l : Ty} {d : DeclRef} {args ps : List Ty} {r : Ty}

theorem SameLeaf.of_class (h : SameLeaf X (.class d args) l) :
    ∃ bs, l = .class d bs ∧ Pointwise X args bs := by
  cases l <;> first | exact h.elim | exact ⟨_, by rw [h.1], h.2⟩

theorem SameLeaf.of_typeAlias (h : SameLeaf X (.typeAlias d args) l) :
    ∃ bs, l = .typeAlias d bs ∧ Pointwise X args bs := by
  cases l <;> first | exact h.elim | exact ⟨_, by rw [h.1], h.2⟩

theorem SameLeaf.to_typeAlias (h : SameLeaf X l (.typeAlias d args)) :
    ∃ as, l = .typeAlias d as ∧ Pointwise X as args := by
  cases l <;> first | exact h.elim | exact ⟨_, by rw [h.1], h.2⟩

theorem SameLeaf.of_function (h : SameLeaf X (.function ps r) l) :
    ∃ qs s, l = .function qs s ∧ Pointwise X ps qs ∧ X r s := by
  cases l <;> first | exact h.elim | exact ⟨_, _, rfl, h⟩

theorem SameLeaf.of_literal {text : String} (h : SameLeaf X (.literal text) l) :
    l = .literal text := by
  cases l <;> first | exact h.elim | exact congrArg _ h.symm

end Inversion

theorem SameLeaf.isNull_eq {X : Ty → Ty → Prop} {l' l : Ty} (h : SameLeaf X l' l) :
    base.isNull l' = base.isNull l := by
  unfold SameLeaf at h
  split at h
  · rw [BaseTypes.isNull, BaseTypes.isNull, h.1]
  · rfl
  · rfl
  · rfl
  · rfl
  · exact h.elim

theorem sameLeaf_nullType {X : Ty → Ty → Prop} : SameLeaf X base.nullType base.nullType :=
  ⟨rfl, rfl, fun _ h => absurd h (Nat.not_lt_zero _)⟩

theorem sameLeaf_stringType {X : Ty → Ty → Prop} :
    SameLeaf X base.stringType base.stringType :=
  ⟨rfl, rfl, fun _ h => absurd h (Nat.not_lt_zero _)⟩

theorem Pointwise.argAt {as bs : List Ty} (h : Pointwise (Vaguer base) as bs) (i : Nat) :
    Vaguer base (argAt as i) (argAt bs i) := by
  rcases Nat.lt_or_ge i bs.length with hi | hi
  · exact h.2 i hi
  · rw [PklAnalysis.argAt, PklAnalysis.argAt, List.getElem?_eq_none (h.1.symm ▸ hi),
      List.getElem?_eq_none hi]
    exact .unknown rfl

theorem Pointwise.append_singleton {X : Ty → Ty → Prop} {as bs : List Ty} {a b : Ty}
    (h : Pointwise X as bs) (hab : X a b) : Pointwise X (as ++ [a]) (bs ++ [b]) := by
  refine ⟨by simp [h.1], fun i hi => ?_⟩
  simp only [PklAnalysis.argAt]
  rcases Nat.lt_or_ge i bs.length with hlt | hge
  · rw [List.getElem?_append_left hlt, List.getElem?_append_left (h.1.symm ▸ hlt)]
    exact h.2 i hlt
  · obtain rfl : i = bs.length := by simp at hi; omega
    simpa [List.getElem?_append_right, h.1] using hab

/-! ## Normal forms -/

/-- If leaves of types match those of others, and `null` matches nothing but `null`, so do the
leaves of their unions. -/
theorem exists_leaf_unionOf {A : Ty → Ty → Prop} {ts us : List Ty}
    (hnull : ∀ {k l}, A k l → base.isNull k = base.isNull l) (hrefl : A base.nullType base.nullType)
    (h : ∀ k ∈ leavesOfAll base ts, ∃ l ∈ leavesOfAll base us, A k l)
    (hts : .unknown ∉ leavesOfAll base ts) (hus : .unknown ∉ leavesOfAll base us) :
    ∀ k ∈ leaves base (unionOf base ts), ∃ l ∈ leaves base (unionOf base us), A k l := by
  intro k hk
  rcases (mem_leaves_unionOf hts).mp hk with ⟨hk, hkNull⟩ | ⟨rfl, k, hk, hkNull⟩
  · obtain ⟨l, hl, hkl⟩ := h k hk
    exact ⟨l, (mem_leaves_unionOf hus).mpr (.inl ⟨hl, hnull hkl ▸ hkNull⟩), hkl⟩
  · obtain ⟨l, hl, hkl⟩ := h k hk
    exact ⟨_, (mem_leaves_unionOf hus).mpr (.inr ⟨rfl, l, hl, hnull hkl ▸ hkNull⟩), hrefl⟩

/-- The union of vaguer types is vaguer. -/
theorem Vaguer.unionOf {ts' ts : List Ty} (hne : ts ≠ []) (h : Pointwise (Vaguer base) ts' ts) :
    Vaguer base (unionOf base ts') (unionOf base ts) := by
  have hne' : ts' ≠ [] := by
    rintro rfl
    exact hne (List.eq_nil_of_length_eq_zero h.1.symm)
  have hnormal := isNormal_unionOf hne h.isNormal_right
  by_cases hts' : .unknown ∈ leavesOfAll base ts'
  · rw [unionOf_eq, ofLeaves_unknown hts']
    exact .unknown hnormal
  have hfrom : ∀ l' ∈ leavesOfAll base ts', ∃ l ∈ leavesOfAll base ts,
      SameLeaf (Vaguer base) l' l := by
    intro l' hl'
    obtain ⟨t', ht', hmem⟩ := mem_leavesOfAll.mp hl'
    obtain ⟨t, ht, hvague⟩ := h.exists_right ht'
    rcases hvague.exists_leaf hmem with rfl | ⟨l, hl, hsame⟩
    · exact absurd hl' hts'
    · exact ⟨l, mem_leavesOfAll.mpr ⟨t, ht, hl⟩, hsame⟩
  have hto : ∀ l ∈ leavesOfAll base ts, ∃ l' ∈ leavesOfAll base ts',
      SameLeaf (Vaguer base) l' l := by
    intro l hl
    obtain ⟨t, ht, hmem⟩ := mem_leavesOfAll.mp hl
    obtain ⟨t', ht', hvague⟩ := h.exists_left ht
    rcases hvague.exists_vaguer_leaf hmem with rfl | ⟨l', hl', hsame⟩
    · exact absurd (mem_leavesOfAll.mpr ⟨_, ht', List.mem_singleton_self _⟩) hts'
    · exact ⟨l', mem_leavesOfAll.mpr ⟨t', ht', hl'⟩, hsame⟩
  have hts : .unknown ∉ leavesOfAll base ts := by
    intro hmem
    obtain ⟨l', -, hsame⟩ := hto _ hmem
    unfold SameLeaf at hsame
    split at hsame <;> first | exact hsame | (next he => exact nomatch he)
  refine vaguer_iff.mpr ⟨isNormal_unionOf hne' h.isNormal_left, hnormal, .inr ⟨?_, ?_⟩⟩
  · exact exists_leaf_unionOf (fun h => h.isNull_eq) sameLeaf_nullType hfrom hts' hts
  · exact exists_leaf_unionOf (A := fun l l' => SameLeaf _ l' l) (fun h => h.isNull_eq.symm)
      sameLeaf_nullType hto hts hts'

theorem pointwise_map {X : Ty → Ty → Prop} {f g : Ty → Ty} {ts : List Ty}
    (h : ∀ t ∈ ts, X (f t) (g t)) : Pointwise X (ts.map f) (ts.map g) := by
  refine ⟨by rw [List.length_map, List.length_map], fun i hi => ?_⟩
  rw [List.length_map] at hi
  simp only [PklAnalysis.argAt, List.getElem?_map, List.getElem?_eq_getElem hi]
  exact h _ (List.getElem_mem hi)

theorem Vaguer.nullType : Vaguer base base.nullType base.nullType :=
  SameLeaf.vaguer sameLeaf_nullType

theorem Vaguer.orNull {t' t : Ty} (h : Vaguer base t' t) :
    Vaguer base (t'.orNull base) (t.orNull base) := by
  refine .unionOf (List.cons_ne_nil _ _) ⟨rfl, fun i hi => ?_⟩
  match i, hi with
  | 0, _ => exact h
  | 1, _ => exact .nullType

/-- Vaguer types for the parameters of a type give a vaguer type. -/
theorem vaguer_substitute {owner : Site} {args' args : List Ty}
    (h : Pointwise (Vaguer base) args' args) {t : Ty} (ht : t.isNothingFree = true) :
    Vaguer base (t.substitute base owner args') (t.substitute base owner args) := by
  induction t using byParts with
  | nothing => exact (Bool.false_ne_true ht).elim
  | unknown => exact .unknown rfl
  | literal s => exact SameLeaf.vaguer rfl
  | param p =>
    rw [substitute, substitute]
    split
    · exact h.argAt p.index
    · exact SameLeaf.vaguer rfl
  | nullable t ih => exact (ih ht).orNull
  | union ms ih =>
    obtain ⟨hne, hms⟩ : ms ≠ [] ∧ ∀ m ∈ ms, m.isNothingFree = true := by
      simpa [isNothingFree] using ht
    rw [substitute, substitute, substituteAll_eq_map, substituteAll_eq_map]
    exact .unionOf (by simpa using hne) (pointwise_map fun m hm => ih m hm (hms m hm))
  | class_ d as ih | typeAlias d as ih =>
    rw [isNothingFree, areNothingFree_iff] at ht
    rw [substitute, substitute, substituteAll_eq_map, substituteAll_eq_map]
    exact SameLeaf.vaguer ⟨rfl, pointwise_map fun a ha => ih a ha (ht a ha)⟩
  | function ps r ihps ihr =>
    rw [isNothingFree, Bool.and_eq_true, areNothingFree_iff] at ht
    rw [substitute, substitute, substituteAll_eq_map, substituteAll_eq_map]
    exact SameLeaf.vaguer ⟨pointwise_map fun p hp => ihps p hp (ht.1 p hp), ihr ht.2⟩

theorem isNull_nullType : base.isNull base.nullType = true := decide_eq_true rfl

/-- What stands before question marks in normal form matches if the types with them do. -/
theorem Vaguer.content {t' t : Ty} (h : Vaguer base (.nullable t') (.nullable t)) :
    Vaguer base t' t := by
  obtain ⟨ht', ht, hmatches⟩ := vaguer_iff.mp h
  obtain ⟨hfrom, hto⟩ := hmatches.resolve_left nofun
  have hmember : ∀ {t : Ty}, isNormal base (.nullable t) = true →
      ∀ l ∈ leaves base t, base.isNull l = false := fun h l hl =>
    (isMember_iff.mp (isMember_of_isContent (isNormal_nullable.mp h).1 (isNormal_nullable.mp h).2
      hl)).2.2
  refine vaguer_iff.mpr ⟨(isNormal_nullable.mp ht').1, (isNormal_nullable.mp ht).1,
    .inr ⟨fun l' hl' => ?_, fun l hl => ?_⟩⟩
  · obtain ⟨l, hl, hsame⟩ := hfrom l' (List.mem_cons_of_mem _ hl')
    refine ⟨l, (List.mem_cons.mp hl).resolve_left ?_, hsame⟩
    rintro rfl
    exact Bool.false_ne_true
      ((hmember ht' l' hl').symm.trans (hsame.isNull_eq.trans isNull_nullType))
  · obtain ⟨l', hl', hsame⟩ := hto l (List.mem_cons_of_mem _ hl)
    refine ⟨l', (List.mem_cons.mp hl').resolve_left ?_, hsame⟩
    rintro rfl
    exact Bool.false_ne_true
      ((hmember ht l hl).symm.trans (hsame.isNull_eq.symm.trans isNull_nullType))

/-- What is vaguer than a type with a question mark has one too, unless it is unknown. -/
theorem Vaguer.exists_nullable_left {t' t : Ty} (h : Vaguer base t' (.nullable t)) :
    t' = .unknown ∨ ∃ u, t' = .nullable u ∧ Vaguer base u t := by
  by_cases hunknown : t' = .unknown
  · exact .inl hunknown
  obtain ⟨k, hk, hmember⟩ := exists_member h.isNormal_right
  obtain ⟨n', hn', hn⟩ := (h.exists_vaguer_leaf List.mem_cons_self).resolve_left hunknown
  obtain ⟨k', hk', hsame⟩ :=
    (h.exists_vaguer_leaf (List.mem_cons_of_mem _ hk)).resolve_left hunknown
  obtain ⟨u, rfl⟩ := exists_eq_nullable h.isNormal_left hn' (hn.isNull_eq.trans isNull_nullType) hk'
    (hsame.isNull_eq.trans (isMember_iff.mp hmember).2.2)
  exact .inr ⟨u, rfl, h.content⟩

/-- Only types with question marks are more precise than others with them. -/
theorem Vaguer.exists_nullable_right {t' t : Ty} (h : Vaguer base (.nullable t') t) :
    ∃ u, t = .nullable u ∧ Vaguer base t' u := by
  obtain ⟨k, hk, hmember⟩ := exists_member h.isNormal_left
  obtain ⟨-, hkUnknown, hkNull⟩ := isMember_iff.mp hmember
  obtain ⟨n, hn, hnull⟩ := (h.exists_leaf List.mem_cons_self).resolve_left nofun
  obtain ⟨l, hl, hsame⟩ := (h.exists_leaf (List.mem_cons_of_mem _ hk)).resolve_left hkUnknown
  obtain ⟨u, rfl⟩ := exists_eq_nullable h.isNormal_right hn
    (hnull.isNull_eq.symm.trans isNull_nullType) hl (hsame.isNull_eq.symm.trans hkNull)
  exact ⟨u, rfl, h.content⟩

/-! ## Less precise types -/

/-- Only the leaves of a more precise type count. -/
theorem Vaguer.congr {s t u : Ty} (h : Vaguer base s t) (hu : isNormal base u = true)
    (hleaves : ∀ l, l ∈ leaves base t ↔ l ∈ leaves base u) : Vaguer base s u := by
  obtain ⟨hs, -, hmatches⟩ := vaguer_iff.mp h
  refine vaguer_iff.mpr ⟨hs, hu, hmatches.imp_right fun h => ⟨fun l' hl' => ?_, fun l hl => ?_⟩⟩
  · obtain ⟨l, hl, hsame⟩ := h.1 l' hl'
    exact ⟨l, (hleaves l).mp hl, hsame⟩
  · exact h.2 l ((hleaves l).mpr hl)

/-- Brought to normal form again, a union in normal form keeps its leaves. -/
theorem mem_leaves_unionOf_iff {ms : List Ty} (h : isNormal base (.union ms) = true) (l : Ty) :
    l ∈ leaves base (unionOf base ms) ↔ l ∈ leaves base (.union ms) := by
  have hms : ∀ m ∈ ms, isMember base m = true := fun m hm => ((isNormal_union h).2 m hm).1
  have hflat : leavesOfAll base ms = ms := leaves_union h
  have hnull : ∀ m ∈ ms, base.isNull m = false := fun m hm => (isMember_iff.mp (hms m hm)).2.2
  rw [mem_leaves_unionOf, leaves_union h, hflat]
  · refine ⟨?_, fun hl => .inl ⟨hl, hnull l hl⟩⟩
    rintro (⟨hl, -⟩ | ⟨-, k, hk, hkNull⟩)
    · exact hl
    · exact absurd hkNull (by rw [hnull k hk]; exact Bool.false_ne_true)
  · rw [hflat]
    exact fun hmem => (isMember_iff.mp (hms _ hmem)).2.1 rfl

/-- So does a question mark in normal form. -/
theorem mem_leaves_orNull_iff {t : Ty} (h : isNormal base (.nullable t) = true) (l : Ty) :
    l ∈ leaves base (t.orNull base) ↔ l ∈ leaves base (.nullable t) := by
  obtain ⟨ht, hcontent⟩ := isNormal_nullable.mp h
  have hmember : ∀ k ∈ leaves base t, isMember base k = true :=
    fun k => isMember_of_isContent ht hcontent
  have hflat : leavesOfAll base [t, base.nullType] = leaves base t ++ [base.nullType] := rfl
  rw [orNull, mem_leaves_unionOf, leaves_nullable, List.mem_cons, hflat]
  · simp only [List.mem_append, List.mem_singleton]
    refine ⟨?_, ?_⟩
    · rintro (⟨hl | rfl, hnull⟩ | ⟨rfl, -⟩)
      · exact .inr hl
      · exact .inl rfl
      · exact .inl rfl
    · rintro (rfl | hl)
      · exact .inr ⟨rfl, _, .inr rfl, isNull_nullType⟩
      · exact .inl ⟨.inl hl, (isMember_iff.mp (hmember l hl)).2.2⟩
  · rw [hflat, List.mem_append, List.mem_singleton]
    rintro (hl | hl)
    · exact (isMember_iff.mp (hmember _ hl)).2.1 rfl
    · exact nomatch hl

/-- What is less precise than a type in normal form is vaguer. -/
theorem LessPrecise.vaguer {t' t : Ty} (h : LessPrecise base t' t)
    (ht : isNormal base t = true) : Vaguer base t' t := by
  induction h with
  | unknown t => exact .unknown ht
  | nothing => exact (Bool.false_ne_true ht).elim
  | literal s => exact SameLeaf.vaguer rfl
  | param p => exact SameLeaf.vaguer rfl
  | nullable _ ih =>
    exact (ih (isNormal_nullable.mp ht).1).orNull.congr ht (mem_leaves_orNull_iff ht)
  | union hlength _ ih =>
    obtain ⟨hne, hms⟩ := isNormal_union ht
    refine .congr (.unionOf hne ⟨hlength, fun i hi => ?_⟩) ht (mem_leaves_unionOf_iff ht)
    exact ih i hi (isNormal_argAt (fun m hm => (hms m hm).2) i)
  | «class» d hlength _ ih | typeAlias d hlength _ ih =>
    rw [isNormal, areNormal_iff] at ht
    exact SameLeaf.vaguer ⟨rfl, hlength, fun i hi => ih i hi (isNormal_argAt ht i)⟩
  | function hlength _ _ ih ihr =>
    rw [isNormal, Bool.and_eq_true, areNormal_iff] at ht
    exact SameLeaf.vaguer
      ⟨⟨hlength, fun i hi => ih i hi (isNormal_argAt ht.1 i)⟩, ihr ht.2⟩

end Ty

end PklAnalysis
