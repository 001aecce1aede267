import PklAnalysis.Proofs.Resolution.SteadyAncestors

/-!
# Types are compared and taken apart steadily

The steps of subtyping and of common subtypes compare only what types are made of, so they are
steady if the relations that they defer to are, in queries as well as in queries with pairs that are
being proved.  What is found by opening aliases, question marks and unions is about the trees of the type.
The class that declares a member counts only by its place.
-/

namespace PklAnalysis.Session

section Steps

variable {n : Type → Type} [Monad n] [MonadLiftT Query n] [SteadyMonad n] {T : Set Tree}
variable {sub common : Ty → Ty → n Bool}
variable (hsub : ∀ U a b, Grounded U a → Grounded U b → Steady U (sub a b))
include hsub

theorem steady_argsSubtype (c : Option ClassDef) {ours theirs : List Ty}
    (hours : Grounded T ours) (htheirs : Grounded T theirs) :
    Steady T (TypeEnv.argsSubtype sub c ours theirs) := by
  refine .allM fun i _ => ?_
  have hours := hours.argAt i
  have htheirs := htheirs.argAt i
  simp only
  split
  · exact hsub T _ _ hours htheirs
  · exact hsub T _ _ htheirs hours
  · exact .and (hsub T _ _ hours htheirs) (hsub T _ _ htheirs hours)

theorem steady_classSubtype {a : Ty} (ha : Grounded T a) {target : DeclRef} {args : List Ty}
    (htarget : Grounded T target) (hargs : Grounded T args) :
    Steady T (env.classSubtype sub a target args) := by
  refine Steady.bind (Steady.lift (steady_asSupertype? ha target)) fun U view hU hview => ?_
  cases view with
  | none => exact .pure trivial
  | some view =>
    refine Steady.bind (Steady.lift (steady_classDef (htarget.mono hU))) fun V c hV _ => ?_
    exact steady_argsSubtype hsub c (hview.of_some.mono hV) (hargs.mono (hU.trans hV))

theorem steady_subtypeStep {a b : Ty} (ha : Grounded T a) (hb : Grounded T b) :
    Steady T (env.subtypeStep sub a b) := by
  have hnull : Grounded T env.base.nullType := .nullType Grounded.baseTypes
  have hstring : Grounded T env.base.stringType := .stringType Grounded.baseTypes
  unfold TypeEnv.subtypeStep
  split
  · exact (Steady.lift (steady_expand ha)).bind fun U t hU ht => hsub U _ _ ht (hb.mono hU)
  · exact (Steady.lift (steady_expand hb)).bind fun U t hU ht => hsub U _ _ (ha.mono hU) ht
  · have hms := Grounded.union_iff.mp ha
    exact .allM fun t ht => hsub T _ _ (hms t ht) hb
  · exact .and (hsub T _ _ (Grounded.nullable_iff.mp ha) hb) (hsub T _ _ hnull hb)
  · have hms := Grounded.union_iff.mp hb
    exact .anyM fun t ht => hsub T _ _ ha (hms t ht)
  · split
    · exact .pure trivial
    · exact hsub T _ _ ha (Grounded.nullable_iff.mp hb)
  · exact .pure trivial
  · exact hsub T _ _ hstring hb
  · exact .pure trivial
  · split
    · obtain ⟨hps, hr⟩ := Grounded.function_iff.mp ha
      obtain ⟨hqs, hs⟩ := Grounded.function_iff.mp hb
      refine .and (.allM fun p hp => ?_) (hsub T _ _ hr hs)
      obtain ⟨hp, hq⟩ := List.of_mem_zip hp
      exact hsub T _ _ (hqs _ hq) (hps _ hp)
    · exact .pure trivial
  · obtain ⟨hps, hr⟩ := Grounded.function_iff.mp ha
    exact hsub T _ _ (.functionView hps hr) hb
  · obtain ⟨hps, hr⟩ := Grounded.function_iff.mp hb
    split
    · exact .pure trivial
    · refine (Steady.lift (steady_asSupertype? ha _)).bind fun U view hU hview => ?_
      cases view with
      | none => exact .pure trivial
      | some args =>
        have hargs := hview.of_some
        refine .and (.allM fun p hp => ?_) (hsub U _ _ (hargs.argAt _) (hr.mono hU))
        exact hsub U _ _ ((hps.mono hU) _ (List.fst_mem_of_mem_zipIdx hp)) (hargs.argAt _)
  · obtain ⟨htarget, hargs⟩ := Grounded.class_iff.mp hb
    exact steady_classSubtype hsub ha htarget hargs
  · exact .pure trivial

variable (hcommon : ∀ U a b, Grounded U a → Grounded U b → Steady U (common a b))
include hcommon

theorem steady_argsCommon (c : Option ClassDef) {ours theirs : List Ty}
    (hours : Grounded T ours) (htheirs : Grounded T theirs) :
    Steady T (TypeEnv.argsCommon sub common c ours theirs) := by
  refine .allM fun i _ => ?_
  have hours := hours.argAt i
  have htheirs := htheirs.argAt i
  simp only
  split
  · exact hcommon T _ _ hours htheirs
  · exact .pure trivial
  · exact .and (hsub T _ _ hours htheirs) (hsub T _ _ htheirs hours)

theorem steady_commonStep {a b : Ty} (ha : Grounded T a) (hb : Grounded T b) :
    Steady T (env.commonStep sub common a b) := by
  have hnull : Grounded T env.base.nullType := .nullType Grounded.baseTypes
  unfold TypeEnv.commonStep
  split
  · exact (Steady.lift (steady_expand ha)).bind fun U t hU ht => hcommon U _ _ ht (hb.mono hU)
  · exact (Steady.lift (steady_expand hb)).bind fun U t hU ht => hcommon U _ _ (ha.mono hU) ht
  · have hms := Grounded.union_iff.mp ha
    exact .anyM fun t ht => hcommon T _ _ (hms t ht) hb
  · have hms := Grounded.union_iff.mp hb
    exact .anyM fun t ht => hcommon T _ _ ha (hms t ht)
  · exact .pure trivial
  · exact .or (hcommon T _ _ (Grounded.nullable_iff.mp ha) hb) (hsub T _ _ hnull hb)
  · exact .or (hcommon T _ _ (Grounded.nullable_iff.mp hb) ha) (hsub T _ _ hnull ha)
  · exact hsub T _ _ ha hb
  · exact hsub T _ _ hb ha
  · split
    · exact hcommon T _ _ (Grounded.function_iff.mp ha).2 (Grounded.function_iff.mp hb).2
    · exact .pure trivial
  · obtain ⟨hps, hr⟩ := Grounded.function_iff.mp ha
    exact hcommon T _ _ (.functionView hps hr) hb
  · obtain ⟨hps, hr⟩ := Grounded.function_iff.mp hb
    exact hcommon T _ _ ha (.functionView hps hr)
  · obtain ⟨hc, has⟩ := Grounded.class_iff.mp ha
    obtain ⟨hd, hbs⟩ := Grounded.class_iff.mp hb
    refine (Steady.lift (steady_asSupertype? ha _)).bind fun U view hU hview => ?_
    cases view with
    | some view =>
      refine (Steady.lift (steady_classDef (hd.mono hU))).bind fun V c hV _ => ?_
      exact steady_argsCommon hsub hcommon c (hview.of_some.mono hV) (hbs.mono (hU.trans hV))
    | none =>
      refine (Steady.lift (steady_asSupertype? (hb.mono hU) _)).bind fun V view hV hview => ?_
      cases view with
      | none => exact .pure trivial
      | some view =>
        refine (Steady.lift (steady_classDef (hc.mono (hU.trans hV)))).bind fun X c hX _ => ?_
        exact steady_argsCommon hsub hcommon c (has.mono ((hU.trans hV).trans hX))
          (hview.of_some.mono hX)
  · exact .pure trivial

end Steps

variable {T : Set Tree}

theorem steady_get : Steady T (get : StateT Pending Query Pending) :=
  fun _ _ _ hp => .pure ⟨hp, hp⟩

theorem steady_modify {f : Pending → Pending}
    (hf : ∀ U p, T ⊆ U → Grounded U p → Grounded U (f p)) :
    Steady T (modify f : StateT Pending Query PUnit) :=
  fun U p hU hp => .pure ⟨trivial, hf U p hU hp⟩

theorem steady_subtypeWithin (depth : Nat) {a b : Ty} (ha : Grounded T a) (hb : Grounded T b) :
    Steady T (env.subtypeWithin depth a b) := by
  induction depth generalizing T a b with
  | zero =>
    unfold TypeEnv.subtypeWithin
    cases subtypeShortcut a b <;> exact .pure trivial
  | succ depth ih =>
    unfold TypeEnv.subtypeWithin
    cases subtypeShortcut a b with
    | holds => exact .pure trivial
    | fails => exact .pure trivial
    | «open» =>
      -- the pair is about the same trees as those that are being proved
      have hpair : ∀ U, T ⊆ U → Grounded U (a, b) := fun U hU => ⟨ha.mono hU, hb.mono hU⟩
      refine Steady.bind steady_get fun U pending hU hpending => ?_
      split
      · exact .pure trivial
      · refine (steady_modify fun V p hV hp => .cons (hpair V (hU.trans hV)) hp).bind
          fun V _ hV _ => ?_
        have hTV := hU.trans hV
        refine (steady_subtypeStep (fun U a b ha hb => ih ha hb) (ha.mono hTV) (hb.mono hTV)).bind
          fun X answer hX _ => ?_
        refine (steady_modify fun Y p hY hp => hp.subset List.erase_subset).bind
          fun Y _ hY _ => .pure trivial

theorem steady_commonWithin (depth : Nat) {a b : Ty} (ha : Grounded T a) (hb : Grounded T b) :
    Steady T (env.commonWithin depth a b) := by
  induction depth generalizing T a b with
  | zero =>
    unfold TypeEnv.commonWithin
    cases commonShortcut a b <;> exact .pure trivial
  | succ depth ih =>
    unfold TypeEnv.commonWithin
    cases commonShortcut a b with
    | holds => exact .pure trivial
    | fails => exact .pure trivial
    | «open» =>
      exact steady_commonStep (fun U a b ha hb => steady_subtypeWithin depth ha hb)
        (fun U a b ha hb => ih ha hb) ha hb

theorem steady_haveCommonSubtype {a b : Ty} (ha : Grounded T a) (hb : Grounded T b) :
    Steady T (env.haveCommonSubtype a b) :=
  (steady_commonWithin _ ha hb).run' .nil

/-! ## Through aliases, question marks and unions -/

theorem steady_receiverClassesWithin {T : Set Tree} (depth : Nat) {t : Ty} (ht : Grounded T t) :
    Steady T (receiverClassesWithin depth t) := by
  unfold receiverClassesWithin
  refine (Steady.lift (steady_expand ht)).bind fun U type hU htype => ?_
  split
  · exact .pure (.cons (Grounded.class_iff.mp htype).1 .nil)
  · exact .pure (.cons (Grounded.baseTypes _ (by simp)) .nil)
  · next ps r =>
    obtain ⟨hps, hr⟩ := Grounded.function_iff.mp htype
    have hview := hps.functionView hr
    split
    · next hclass =>
      rw [hclass] at hview
      exact .pure (.cons (Grounded.class_iff.mp hview).1 .nil)
    · exact .pure .nil
  · next a =>
    cases depth with
    | zero => exact .failure
    | succ depth =>
      have ha := Grounded.nullable_iff.mp htype
      refine (steady_receiverClassesWithin depth ha).bind fun V ds hV hds => .pure ?_
      exact hds.append (.cons (Grounded.baseTypes _ (by simp)) .nil)
  · next ms =>
    cases depth with
    | zero => exact .failure
    | succ depth =>
      have hms := Grounded.union_iff.mp htype
      refine (Steady.mapM fun t ht => steady_receiverClassesWithin depth (hms t ht)).bind
        fun V dss hV hdss => .pure ?_
      intro d hd
      obtain ⟨ds, hds, hd⟩ := List.mem_flatten.mp hd
      exact hdss ds hds d hd
  all_goals exact .pure .nil
termination_by depth

theorem steady_ownerArgsWithin {T : Set Tree} (owner : DeclRef) (depth : Nat) {t : Ty}
    (ht : Grounded T t) : Steady T (ownerArgsWithin owner depth t) := by
  unfold ownerArgsWithin
  refine (Steady.lift (steady_expand ht)).bind fun U type hU htype => ?_
  split
  · exact .lift (steady_asSupertype? htype owner)
  · obtain ⟨hps, hr⟩ := Grounded.function_iff.mp htype
    exact .lift (steady_asSupertype? (hps.functionView hr) owner)
  · cases depth with
    | zero => exact .failure
    | succ depth => exact steady_ownerArgsWithin owner depth (Grounded.nullable_iff.mp htype)
  · cases depth with
    | zero => exact .failure
    | succ depth =>
      have hms := Grounded.union_iff.mp htype
      exact .firstAnswer fun t ht => steady_ownerArgsWithin owner depth (hms t ht)
  all_goals exact .pure .none
termination_by depth

theorem steady_isOpenTypeWithin {T : Set Tree} (depth : Nat) {t : Ty} (ht : Grounded T t) :
    Steady T (isOpenTypeWithin depth t) := by
  unfold isOpenTypeWithin
  refine (Steady.lift (steady_expand ht)).bind fun U type hU htype => ?_
  split
  · exact .pure trivial
  · exact .pure trivial
  · split
    · exact .pure trivial
    · exact .lift (steady_hasUnknownAncestor (Grounded.class_iff.mp htype).1)
  · cases depth with
    | zero => exact .failure
    | succ depth => exact steady_isOpenTypeWithin depth (Grounded.nullable_iff.mp htype)
  · cases depth with
    | zero => exact .failure
    | succ depth =>
      have hms := Grounded.union_iff.mp htype
      exact .anyM fun t ht => steady_isOpenTypeWithin depth (hms t ht)
  all_goals exact .pure trivial
termination_by depth

theorem steady_receiverClasses {t : Ty} (ht : Grounded T t) : Steady T (receiverClasses t) := by
  rw [receiverClasses, bounded_atDepth]
  exact (steady_receiverClassesWithin _ ht).run.bind fun _ _ _ hds => .pure (hds.getD .nil)

theorem steady_memberOfType? {t : Ty} (ht : Grounded T t) (name : String) (kind : MemberKind) :
    Steady T (memberOfType? t name kind) :=
  (steady_receiverClasses ht).bind fun _ _ _ hds =>
    .firstAnswer fun d hd => steady_memberOfClass? (hds d hd) name kind

theorem steady_ownerArgs? {t : Ty} (ht : Grounded T t) (owner : DeclRef) :
    Steady T (ownerArgs? t owner) := by
  rw [ownerArgs?, bounded_atDepth]
  exact (steady_ownerArgsWithin owner _ ht).run.bind fun _ _ _ hargs => .pure (hargs.getD .none)

theorem steady_memberTypeOn {receiver : Ty} (hreceiver : Grounded T receiver) (owner : DeclRef)
    {declared : Ty} (hdeclared : Grounded T declared) :
    Steady T (memberTypeOn receiver owner declared) := by
  unfold memberTypeOn
  refine (steady_ownerArgs? hreceiver owner).bind fun U args hU hargs => ?_
  cases args with
  | none => exact .pure (hdeclared.mono hU).erase
  | some args => exact .pure ((hdeclared.mono hU).substitute _ hargs.of_some).erase

theorem steady_isOpenType {t : Ty} (ht : Grounded T t) : Steady T (isOpenType t) := by
  rw [isOpenType, bounded_atDepth]
  exact (steady_isOpenTypeWithin _ ht).run.bind fun _ _ _ _ => .pure trivial

/-! ## Elements -/

theorem grounded_nonNull {t : Ty} (ht : Grounded T t) : Grounded T (nonNull t) := by
  cases t with
  | nullable a => exact Grounded.nullable_iff.mp ht
  | _ => exact ht

/-- The keys and values of an object are about the trees of the arguments of its class. -/
theorem grounded_elementsBy {e : DeclRef × (List Ty → Ty × Ty)}
    (he : e ∈ elementsBy BaseModule.types) {args : List Ty} (hargs : Grounded T args) :
    Grounded T (e.2 args) := by
  have hint : Grounded T (BaseTypes.plain BaseModule.types.int) :=
    .plainBase (by simp)
  simp only [elementsBy, List.mem_cons, List.not_mem_nil, or_false] at he
  rcases he with rfl | rfl | rfl | rfl | rfl | rfl
  · exact ⟨hint, hargs.argAt 0⟩
  · exact ⟨hint, hargs.argAt 0⟩
  · exact ⟨hargs.argAt 0, hargs.argAt 1⟩
  · exact ⟨hargs.argAt 0, hargs.argAt 1⟩
  · exact ⟨hargs.argAt 0, hargs.argAt 1⟩
  · exact ⟨hint, hint⟩

theorem steady_elementTypes? {t : Ty} (ht : Grounded T t) : Steady T (elementTypes? t) := by
  refine .firstAnswer fun e he => ?_
  refine (steady_asSupertype? ht e.1).bind fun U args _ hargs => .pure ?_
  exact hargs.map fun args hargs => grounded_elementsBy he hargs

/-! ## Annotations of properties -/

theorem steady_inheritedType? (name : String) {c : ClassDef} (hc : Grounded T c) :
    Steady T (inheritedType? name c) := by
  unfold inheritedType?
  split
  · exact .pure .none
  · next m hm =>
    have hmodule : Covers T m.site.module := hc.2.2 m (List.mem_of_find?_eq_some hm)
    refine (steady_tree? hmodule).bind fun U found _ hfound => ?_
    cases found with
    | none => exact .pure .none
    | some t =>
      simp only
      split
      · exact .optionMapM fun a _ => steady_resolveType hfound.of_some _ a
      · exact .pure .none

theorem steady_declaredPropertyType? {t : Tree} (ht : Grounded T t) (n : Nat) :
    Steady T (declaredPropertyType? t n) := by
  unfold declaredPropertyType?
  split
  · split
    · exact (steady_resolveType ht n _).map fun U a _ ha => ha.some
    · split
      · exact .pure .none
      · next owner howner =>
        have hground : Grounded T owner := ht.ownerOf? n owner howner
        exact (steady_ancestors hground).bind fun U chain _ hchain =>
          .firstAnswer fun c hc => steady_inheritedType? _ (hchain c (List.mem_of_mem_drop hc))
  · exact .pure .none

end PklAnalysis.Session
