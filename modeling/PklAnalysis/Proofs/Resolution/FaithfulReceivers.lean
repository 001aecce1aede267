import PklAnalysis.Proofs.Resolution.FaithfulQueries
import PklAnalysis.Resolution.Receivers

/-!
# Members of values are found faithfully

Opening a type and viewing it as one of its ancestors, as the relations of types and the look-up of
members do, leads to faithful types if it starts from one.
-/

namespace PklAnalysis.Session

variable {V : World}

/-! ## Subtyping and common subtypes -/

section Steps

variable {n : Type → Type} [Monad n] [MonadLiftT Query n] [FaithfulMonad n]
variable {sub common : Ty → Ty → n Bool}
variable (hsub : ∀ U a b, Faithful U a → Faithful U b → Faithfully U (sub a b))
include hsub

theorem faithful_argsSubtype (c : Option ClassDef) {ours theirs : List Ty}
    (hours : Faithful V ours) (htheirs : Faithful V theirs) :
    Faithfully V (TypeEnv.argsSubtype sub c ours theirs) := by
  refine .allM fun i _ => ?_
  have hours := hours.argAt i
  have htheirs := htheirs.argAt i
  simp only
  split
  · exact hsub V _ _ hours htheirs
  · exact hsub V _ _ htheirs hours
  · exact .and (hsub V _ _ hours htheirs) (hsub V _ _ htheirs hours)

theorem faithful_classSubtype {a : Ty} (ha : Faithful V a) (target : DeclRef) {args : List Ty}
    (hargs : Faithful V args) : Faithfully V (env.classSubtype sub a target args) := by
  refine Faithfully.bind (.lift (faithful_asSupertype? ha target)) fun U view hU hview => ?_
  cases view with
  | none => exact .pure trivial
  | some view =>
    refine Faithfully.bind (.lift (faithful_classDef target)) fun U' c hU' _ => ?_
    exact faithful_argsSubtype hsub c (hview.of_some.mono hU') (hargs.mono (hU.trans hU'))

theorem faithful_subtypeStep {a b : Ty} (ha : Faithful V a) (hb : Faithful V b) :
    Faithfully V (env.subtypeStep sub a b) := by
  have hstring : Faithful V BaseModule.types.stringType :=
    .plain (by simp [BaseTypes.plainDecls])
  unfold TypeEnv.subtypeStep
  split
  · exact (Faithfully.lift (faithful_expand ha)).bind fun U t hU ht => hsub U _ _ ht (hb.mono hU)
  · exact (Faithfully.lift (faithful_expand hb)).bind fun U t hU ht => hsub U _ _ (ha.mono hU) ht
  · have hms := Faithful.union_iff.mp ha
    exact .allM fun t ht => hsub V _ _ (hms t ht) hb
  · exact .and (hsub V _ _ (Faithful.nullable_iff.mp ha) hb) (hsub V _ _ .nullType hb)
  · have hms := Faithful.union_iff.mp hb
    exact .anyM fun t ht => hsub V _ _ ha (hms t ht)
  · split
    · exact .pure trivial
    · exact hsub V _ _ ha (Faithful.nullable_iff.mp hb)
  · exact .pure trivial
  · exact hsub V _ _ hstring hb
  · exact .pure trivial
  · split
    · obtain ⟨hps, hr⟩ := Faithful.function_iff.mp ha
      obtain ⟨hqs, hs⟩ := Faithful.function_iff.mp hb
      refine .and (.allM fun p hp => ?_) (hsub V _ _ hr hs)
      obtain ⟨hp, hq⟩ := List.of_mem_zip hp
      exact hsub V _ _ (hqs _ hq) (hps _ hp)
    · exact .pure trivial
  · obtain ⟨hps, hr⟩ := Faithful.function_iff.mp ha
    exact hsub V _ _ (.functionView hps hr) hb
  · obtain ⟨hps, hr⟩ := Faithful.function_iff.mp hb
    split
    · exact .pure trivial
    · refine (Faithfully.lift (faithful_asSupertype? ha _)).bind fun U view hU hview => ?_
      cases view with
      | none => exact .pure trivial
      | some args =>
        have hargs := hview.of_some
        refine .and (.allM fun p hp => ?_) (hsub U _ _ (hargs.argAt _) (hr.mono hU))
        exact hsub U _ _ ((hps.mono hU) _ (List.fst_mem_of_mem_zipIdx hp)) (hargs.argAt _)
  · exact faithful_classSubtype hsub ha _ hb.class_args
  · exact .pure trivial

variable (hcommon : ∀ U a b, Faithful U a → Faithful U b → Faithfully U (common a b))
include hcommon

theorem faithful_argsCommon (c : Option ClassDef) {ours theirs : List Ty}
    (hours : Faithful V ours) (htheirs : Faithful V theirs) :
    Faithfully V (TypeEnv.argsCommon sub common c ours theirs) := by
  refine .allM fun i _ => ?_
  have hours := hours.argAt i
  have htheirs := htheirs.argAt i
  simp only
  split
  · exact hcommon V _ _ hours htheirs
  · exact .pure trivial
  · exact .and (hsub V _ _ hours htheirs) (hsub V _ _ htheirs hours)

theorem faithful_commonStep {a b : Ty} (ha : Faithful V a) (hb : Faithful V b) :
    Faithfully V (env.commonStep sub common a b) := by
  unfold TypeEnv.commonStep
  split
  · exact (Faithfully.lift (faithful_expand ha)).bind fun U t hU ht =>
      hcommon U _ _ ht (hb.mono hU)
  · exact (Faithfully.lift (faithful_expand hb)).bind fun U t hU ht =>
      hcommon U _ _ (ha.mono hU) ht
  · have hms := Faithful.union_iff.mp ha
    exact .anyM fun t ht => hcommon V _ _ (hms t ht) hb
  · have hms := Faithful.union_iff.mp hb
    exact .anyM fun t ht => hcommon V _ _ ha (hms t ht)
  · exact .pure trivial
  · exact .or (hcommon V _ _ (Faithful.nullable_iff.mp ha) hb) (hsub V _ _ .nullType hb)
  · exact .or (hcommon V _ _ (Faithful.nullable_iff.mp hb) ha) (hsub V _ _ .nullType ha)
  · exact hsub V _ _ ha hb
  · exact hsub V _ _ hb ha
  · split
    · exact hcommon V _ _ (Faithful.function_iff.mp ha).2 (Faithful.function_iff.mp hb).2
    · exact .pure trivial
  · obtain ⟨hps, hr⟩ := Faithful.function_iff.mp ha
    exact hcommon V _ _ (.functionView hps hr) hb
  · obtain ⟨hps, hr⟩ := Faithful.function_iff.mp hb
    exact hcommon V _ _ ha (.functionView hps hr)
  · have has := ha.class_args
    have hbs := hb.class_args
    refine (Faithfully.lift (faithful_asSupertype? ha _)).bind fun U view hU hview => ?_
    cases view with
    | some view =>
      refine (Faithfully.lift (faithful_classDef _)).bind fun U' c hU' _ => ?_
      exact faithful_argsCommon hsub hcommon c (hview.of_some.mono hU') (hbs.mono (hU.trans hU'))
    | none =>
      refine (Faithfully.lift (faithful_asSupertype? (hb.mono hU) _)).bind
        fun U' view hU' hview => ?_
      cases view with
      | none => exact .pure trivial
      | some view =>
        refine (Faithfully.lift (faithful_classDef _)).bind fun U'' c hU'' _ => ?_
        exact faithful_argsCommon hsub hcommon c (has.mono ((hU.trans hU').trans hU''))
          (hview.of_some.mono hU'')
  · exact .pure trivial

end Steps

theorem faithful_modify {f : Pending → Pending}
    (hf : ∀ U p, V ≤ U → Faithful U p → Faithful U (f p)) :
    Faithfully V fun [Bounds] => (modify f : StateT Pending Query PUnit) :=
  fun U p hU hp => .pure ⟨trivial, hf U p hU hp⟩

theorem faithful_subtypeWithin (depth : Nat) {a b : Ty} (ha : Faithful V a) (hb : Faithful V b) :
    Faithfully V (env.subtypeWithin depth a b) := by
  induction depth generalizing V a b with
  | zero =>
    unfold TypeEnv.subtypeWithin
    cases subtypeShortcut a b <;> exact .pure trivial
  | succ depth ih =>
    have hget : Faithfully V fun [Bounds] => (get : StateT Pending Query Pending) :=
      fun _ _ _ hp => .pure ⟨hp, hp⟩
    unfold TypeEnv.subtypeWithin
    cases subtypeShortcut a b with
    | holds => exact .pure trivial
    | fails => exact .pure trivial
    | «open» =>
      refine hget.bind fun U pending hU hpending => ?_
      split
      · exact .pure trivial
      · -- the pair is among those that are being proved during the step and not afterwards
        have ha := ha.mono hU
        have hb := hb.mono hU
        refine (faithful_modify fun U' p hU' hp => .cons ⟨ha.mono hU', hb.mono hU'⟩ hp).bind
          fun U' _ hU' _ => ?_
        refine (faithful_subtypeStep (fun _ _ _ ha hb => ih ha hb) (ha.mono hU')
          (hb.mono hU')).bind fun _ answer _ _ => ?_
        exact (faithful_modify fun _ p _ hp c hc => hp c (List.mem_of_mem_erase hc)).bind
          fun _ _ _ _ => .pure trivial

theorem faithful_commonWithin (depth : Nat) {a b : Ty} (ha : Faithful V a) (hb : Faithful V b) :
    Faithfully V (env.commonWithin depth a b) := by
  induction depth generalizing V a b with
  | zero =>
    unfold TypeEnv.commonWithin
    cases commonShortcut a b <;> exact .pure trivial
  | succ depth ih =>
    unfold TypeEnv.commonWithin
    cases commonShortcut a b with
    | holds => exact .pure trivial
    | fails => exact .pure trivial
    | «open» =>
      exact faithful_commonStep (fun _ _ _ ha hb => faithful_subtypeWithin depth ha hb)
        (fun _ _ _ ha hb => ih ha hb) ha hb

theorem faithful_haveCommonSubtype {a b : Ty} (ha : Faithful V a) (hb : Faithful V b) :
    Faithfully V (env.haveCommonSubtype a b) :=
  (faithful_commonWithin _ ha hb).run' .nil

/-! ## Through aliases, question marks and unions -/

theorem faithful_receiverClassesWithin {V : World} (depth : Nat) {t : Ty}
    (ht : Faithful V t) : Faithfully V (receiverClassesWithin depth t) := by
  have hpure (U : World) (ds : List DeclRef) :
      Faithfully U fun [Bounds] => (pure ds : OptionT Query (List DeclRef)) :=
    .pure fun _ _ => trivial
  unfold receiverClassesWithin
  refine (Faithfully.lift (faithful_expand ht)).bind fun U type _ htype => ?_
  split
  · exact hpure U _
  · exact hpure U _
  · split
    · exact hpure U _
    · exact hpure U _
  · cases depth with
    | zero => exact .failure
    | succ depth =>
      have ha := Faithful.nullable_iff.mp htype
      exact (faithful_receiverClassesWithin depth ha).bind fun U' ds _ _ => hpure U' _
  · cases depth with
    | zero => exact .failure
    | succ depth =>
      have hms := Faithful.union_iff.mp htype
      exact (Faithfully.mapM fun t ht => faithful_receiverClassesWithin depth (hms t ht)).bind
        fun U' dss _ _ => hpure U' _
  all_goals exact hpure U _
termination_by depth

theorem faithful_ownerArgsWithin {V : World} (owner : DeclRef) (depth : Nat) {t : Ty}
    (ht : Faithful V t) : Faithfully V (ownerArgsWithin owner depth t) := by
  unfold ownerArgsWithin
  refine (Faithfully.lift (faithful_expand ht)).bind fun U type _ htype => ?_
  split
  · exact .lift (faithful_asSupertype? htype owner)
  · obtain ⟨hps, hr⟩ := Faithful.function_iff.mp htype
    exact .lift (faithful_asSupertype? (hps.functionView hr) owner)
  · cases depth with
    | zero => exact .failure
    | succ depth => exact faithful_ownerArgsWithin owner depth (Faithful.nullable_iff.mp htype)
  · cases depth with
    | zero => exact .failure
    | succ depth =>
      have hms := Faithful.union_iff.mp htype
      exact .firstAnswer fun t ht => faithful_ownerArgsWithin owner depth (hms t ht)
  all_goals exact .pure .none
termination_by depth

theorem faithful_isOpenTypeWithin {V : World} (depth : Nat) {t : Ty} (ht : Faithful V t) :
    Faithfully V (isOpenTypeWithin depth t) := by
  unfold isOpenTypeWithin
  refine (Faithfully.lift (faithful_expand ht)).bind fun U type _ htype => ?_
  split
  · exact .pure trivial
  · exact .pure trivial
  · split
    · exact .pure trivial
    · exact .lift (faithful_hasUnknownAncestor _)
  · cases depth with
    | zero => exact .failure
    | succ depth => exact faithful_isOpenTypeWithin depth (Faithful.nullable_iff.mp htype)
  · cases depth with
    | zero => exact .failure
    | succ depth =>
      have hms := Faithful.union_iff.mp htype
      exact .anyM fun t ht => faithful_isOpenTypeWithin depth (hms t ht)
  all_goals exact .pure trivial
termination_by depth

/-! ## Elements -/

theorem faithful_nonNull {t : Ty} (ht : Faithful V t) : Faithful V (nonNull t) := by
  cases t with
  | nullable a => exact Faithful.nullable_iff.mp ht
  | _ => exact ht

/-- The keys and values of an object are arguments of its class or integers. -/
theorem faithful_elementsBy {e : DeclRef × (List Ty → Ty × Ty)}
    (he : e ∈ elementsBy BaseModule.types) {args : List Ty} (hargs : Faithful V args) :
    Faithful V (e.2 args) := by
  have hint : Faithful V (BaseTypes.plain BaseModule.types.int) :=
    .plain (by simp [BaseTypes.plainDecls])
  simp only [elementsBy, List.mem_cons, List.not_mem_nil, or_false] at he
  rcases he with rfl | rfl | rfl | rfl | rfl | rfl
  · exact ⟨hint, hargs.argAt 0⟩
  · exact ⟨hint, hargs.argAt 0⟩
  · exact ⟨hargs.argAt 0, hargs.argAt 1⟩
  · exact ⟨hargs.argAt 0, hargs.argAt 1⟩
  · exact ⟨hargs.argAt 0, hargs.argAt 1⟩
  · exact ⟨hint, hint⟩

theorem faithful_elementTypes? {t : Ty} (ht : Faithful V t) : Faithfully V (elementTypes? t) := by
  refine .firstAnswer fun e he => ?_
  refine (faithful_asSupertype? ht e.1).bind fun _ args _ hargs => .pure ?_
  exact hargs.map fun args hargs => faithful_elementsBy he hargs

/-! ## Annotations of properties -/

theorem faithful_inheritedType? (name : String) (c : ClassDef) :
    Faithfully V (inheritedType? name c) := by
  unfold inheritedType?
  split
  · exact .pure .none
  · next m _ =>
    refine (faithful_tree? m.site.module).bind fun U found _ hfound => ?_
    cases found with
    | none => exact .pure .none
    | some t =>
      simp only
      split
      · exact .optionMapM fun a _ => faithful_resolveType hfound.of_some _ a
      · exact .pure .none

theorem faithful_declaredPropertyType? {t : Tree} (ht : Faithful V t) (n : Nat) :
    Faithfully V (declaredPropertyType? t n) := by
  unfold declaredPropertyType?
  split
  · split
    · exact (faithful_resolveType ht n _).map fun _ a _ ha => ha.some
    · split
      · exact .pure .none
      · next owner _ =>
        exact (faithful_ancestors owner).bind fun _ chain _ _ =>
          .firstAnswer fun c _ => faithful_inheritedType? _ c
  · exact .pure .none

end PklAnalysis.Session
