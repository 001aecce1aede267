import PklAnalysis.Proofs.Resolution.NeatQueries
import PklAnalysis.Resolution.Scope

/-!
# Members and scopes are neat

Types that are found by opening other types, as the types of members on receivers and of the objects
around a node are, are nearly in normal form if those that they come from are.  What a name means
has no types in it, but finding it must keep the session neat.
-/

namespace PklAnalysis

/-- The types that a typing gives are nearly in normal form. -/
structure Typing.IsNeat (q : Typing) : Prop where
  infer : ∀ t n, Session.Neatly (q.infer t n)
  typed : ∀ d, Session.Neatly (q.typed d)

namespace Session

/-! ## Subtyping and common subtypes -/

section Steps

variable {n : Type → Type} [Monad n] [MonadLiftT Query n] [NeatMonad n]
variable {sub common : Ty → Ty → n Bool}
variable (hsub : ∀ a b, Neat a → Neat b → Neatly (sub a b))
include hsub

theorem neat_argsSubtype (c : Option ClassDef) {ours theirs : List Ty} (hours : Neat ours)
    (htheirs : Neat theirs) : Neatly (TypeEnv.argsSubtype sub c ours theirs) := by
  refine .allM fun i _ => ?_
  have ha : Neat (argAt ours i) := Ty.NearNormal.argAt hours i
  have hb : Neat (argAt theirs i) := Ty.NearNormal.argAt htheirs i
  simp only
  split
  · exact hsub _ _ ha hb
  · exact hsub _ _ hb ha
  · exact .and (hsub _ _ ha hb) (hsub _ _ hb ha)

theorem neat_subtypeStep {a b : Ty} (ha : Neat a) (hb : Neat b) :
    Neatly (env.subtypeStep sub a b) := by
  have hplain (d : DeclRef) : Neat (BaseTypes.plain d) := Ty.NearNormal.plain d
  unfold TypeEnv.subtypeStep
  split
  · exact (Neatly.lift (neat_expand ha)).bind fun t ht => hsub _ _ ht hb
  · exact (Neatly.lift (neat_expand hb)).bind fun t ht => hsub _ _ ha ht
  · have hms := (Ty.NearNormal.union_iff.mp ha).2
    exact .allM fun t ht => hsub _ _ (hms t ht).2 hb
  · exact .and (hsub _ _ (Ty.NearNormal.nullable_iff.mp ha).2 hb) (hsub _ _ (hplain _) hb)
  · have hms := (Ty.NearNormal.union_iff.mp hb).2
    exact .anyM fun t ht => hsub _ _ ha (hms t ht).2
  · split
    · exact .pure trivial
    · exact hsub _ _ ha (Ty.NearNormal.nullable_iff.mp hb).2
  · exact .pure trivial
  · exact hsub _ _ (hplain _) hb
  · exact .pure trivial
  · split
    · obtain ⟨hps, hr⟩ := Ty.NearNormal.function_iff.mp ha
      obtain ⟨hqs, hs⟩ := Ty.NearNormal.function_iff.mp hb
      refine .and (.allM fun p hp => ?_) (hsub _ _ hr hs)
      obtain ⟨hp, hq⟩ := List.of_mem_zip hp
      exact hsub _ _ (hqs _ hq) (hps _ hp)
    · exact .pure trivial
  · obtain ⟨hps, hr⟩ := Ty.NearNormal.function_iff.mp ha
    exact hsub _ _ (Ty.NearNormal.functionView hps hr) hb
  · obtain ⟨hps, hr⟩ := Ty.NearNormal.function_iff.mp hb
    split
    · exact .pure trivial
    · refine (Neatly.lift (neat_asSupertype? ha _)).bind fun view hview => ?_
      cases view with
      | none => exact .pure trivial
      | some args =>
        have harg (i : Nat) : Neat (argAt args i) := Ty.NearNormal.argAt hview.of_some i
        refine .and (.allM fun p hp => ?_) (hsub _ _ (harg _) hr)
        exact hsub _ _ (hps _ (List.fst_mem_of_mem_zipIdx hp)) (harg _)
  · refine (Neatly.lift (neat_asSupertype? ha _)).bind fun view hview => ?_
    cases view with
    | none => exact .pure trivial
    | some view =>
      exact (Neatly.lift (neat_classDef _)).bind fun c _ =>
        neat_argsSubtype hsub c hview.of_some (Ty.NearNormal.class_iff.mp hb)
  · exact .pure trivial

variable (hcommon : ∀ a b, Neat a → Neat b → Neatly (common a b))
include hcommon

theorem neat_argsCommon (c : Option ClassDef) {ours theirs : List Ty} (hours : Neat ours)
    (htheirs : Neat theirs) : Neatly (TypeEnv.argsCommon sub common c ours theirs) := by
  refine .allM fun i _ => ?_
  have ha : Neat (argAt ours i) := Ty.NearNormal.argAt hours i
  have hb : Neat (argAt theirs i) := Ty.NearNormal.argAt htheirs i
  simp only
  split
  · exact hcommon _ _ ha hb
  · exact .pure trivial
  · exact .and (hsub _ _ ha hb) (hsub _ _ hb ha)

theorem neat_commonStep {a b : Ty} (ha : Neat a) (hb : Neat b) :
    Neatly (env.commonStep sub common a b) := by
  have hplain (d : DeclRef) : Neat (BaseTypes.plain d) := Ty.NearNormal.plain d
  unfold TypeEnv.commonStep
  split
  · exact (Neatly.lift (neat_expand ha)).bind fun t ht => hcommon _ _ ht hb
  · exact (Neatly.lift (neat_expand hb)).bind fun t ht => hcommon _ _ ha ht
  · have hms := (Ty.NearNormal.union_iff.mp ha).2
    exact .anyM fun t ht => hcommon _ _ (hms t ht).2 hb
  · have hms := (Ty.NearNormal.union_iff.mp hb).2
    exact .anyM fun t ht => hcommon _ _ ha (hms t ht).2
  · exact .pure trivial
  · exact .or (hcommon _ _ (Ty.NearNormal.nullable_iff.mp ha).2 hb) (hsub _ _ (hplain _) hb)
  · exact .or (hcommon _ _ (Ty.NearNormal.nullable_iff.mp hb).2 ha) (hsub _ _ (hplain _) ha)
  · exact hsub _ _ ha hb
  · exact hsub _ _ hb ha
  · split
    · exact hcommon _ _ (Ty.NearNormal.function_iff.mp ha).2 (Ty.NearNormal.function_iff.mp hb).2
    · exact .pure trivial
  · obtain ⟨hps, hr⟩ := Ty.NearNormal.function_iff.mp ha
    exact hcommon _ _ (Ty.NearNormal.functionView hps hr) hb
  · obtain ⟨hps, hr⟩ := Ty.NearNormal.function_iff.mp hb
    exact hcommon _ _ ha (Ty.NearNormal.functionView hps hr)
  · have has := Ty.NearNormal.class_iff.mp ha
    have hbs := Ty.NearNormal.class_iff.mp hb
    refine (Neatly.lift (neat_asSupertype? ha _)).bind fun view hview => ?_
    cases view with
    | some view =>
      exact (Neatly.lift (neat_classDef _)).bind fun c _ =>
        neat_argsCommon hsub hcommon c hview.of_some hbs
    | none =>
      refine (Neatly.lift (neat_asSupertype? hb _)).bind fun view hview => ?_
      cases view with
      | none => exact .pure trivial
      | some view =>
        exact (Neatly.lift (neat_classDef _)).bind fun c _ =>
          neat_argsCommon hsub hcommon c has hview.of_some
  · exact .pure trivial

end Steps

theorem neat_subtypeWithin (depth : Nat) {a b : Ty} (ha : Neat a) (hb : Neat b) :
    Neatly (env.subtypeWithin depth a b) := by
  induction depth generalizing a b with
  | zero =>
    unfold TypeEnv.subtypeWithin
    cases subtypeShortcut a b <;> exact .pure trivial
  | succ depth ih =>
    have hget : Neatly (get : StateT Pending Query Pending) := fun p hp => .pure ⟨hp, hp⟩
    unfold TypeEnv.subtypeWithin
    cases subtypeShortcut a b with
    | holds => exact .pure trivial
    | fails => exact .pure trivial
    | «open» =>
      refine hget.bind fun pending hpending => ?_
      split
      · exact .pure trivial
      · -- the pair is among those that are being proved during the step and not afterwards
        have hpush : Neatly (modify ((a, b) :: ·) : StateT Pending Query PUnit) :=
          fun p hp => .pure ⟨trivial, .cons ⟨ha, hb⟩ hp⟩
        have hpop : Neatly (modify (·.erase (a, b)) : StateT Pending Query PUnit) :=
          fun p hp => .pure ⟨trivial, fun c hc => hp c (List.mem_of_mem_erase hc)⟩
        refine hpush.bind fun _ _ => ?_
        refine (neat_subtypeStep (fun a b ha hb => ih ha hb) ha hb).bind fun answer _ => ?_
        exact hpop.bind fun _ _ => .pure trivial

theorem neat_commonWithin (depth : Nat) {a b : Ty} (ha : Neat a) (hb : Neat b) :
    Neatly (env.commonWithin depth a b) := by
  induction depth generalizing a b with
  | zero =>
    unfold TypeEnv.commonWithin
    cases commonShortcut a b <;> exact .pure trivial
  | succ depth ih =>
    unfold TypeEnv.commonWithin
    cases commonShortcut a b with
    | holds => exact .pure trivial
    | fails => exact .pure trivial
    | «open» =>
      exact neat_commonStep (fun a b ha hb => neat_subtypeWithin depth ha hb)
        (fun a b ha hb => ih ha hb) ha hb

theorem neat_haveCommonSubtype {a b : Ty} (ha : Neat a) (hb : Neat b) :
    Neatly (env.haveCommonSubtype a b) :=
  (neat_commonWithin _ ha hb).run' .nil

/-! ## Members of values -/

theorem neat_receiverClassesWithin (depth : Nat) {t : Ty} (ht : Neat t) :
    Neatly (receiverClassesWithin depth t) := by
  have hpure (ds : List DeclRef) : Neatly (pure ds : OptionT Query (List DeclRef)) :=
    .pure fun _ _ => trivial
  unfold receiverClassesWithin
  refine (Neatly.lift (neat_expand ht)).bind fun type htype => ?_
  split
  · exact hpure _
  · exact hpure _
  · split
    · exact hpure _
    · exact hpure _
  · cases depth with
    | zero => exact .failure
    | succ depth =>
      have ha := (Ty.NearNormal.nullable_iff.mp htype).2
      exact (neat_receiverClassesWithin depth ha).bind fun ds _ => hpure _
  · cases depth with
    | zero => exact .failure
    | succ depth =>
      have hms := (Ty.NearNormal.union_iff.mp htype).2
      exact (Neatly.mapM fun t ht => neat_receiverClassesWithin depth (hms t ht).2).bind
        fun dss _ => hpure _
  all_goals exact hpure _
termination_by depth

theorem neat_ownerArgsWithin (owner : DeclRef) (depth : Nat) {t : Ty} (ht : Neat t) :
    Neatly (ownerArgsWithin owner depth t) := by
  unfold ownerArgsWithin
  refine (Neatly.lift (neat_expand ht)).bind fun type htype => ?_
  split
  · exact .lift (neat_asSupertype? htype owner)
  · obtain ⟨hps, hr⟩ := Ty.NearNormal.function_iff.mp htype
    exact .lift (neat_asSupertype? (Ty.NearNormal.functionView hps hr) owner)
  · cases depth with
    | zero => exact .failure
    | succ depth => exact neat_ownerArgsWithin owner depth (Ty.NearNormal.nullable_iff.mp htype).2
  · cases depth with
    | zero => exact .failure
    | succ depth =>
      have hms := (Ty.NearNormal.union_iff.mp htype).2
      exact .firstAnswer fun t ht => neat_ownerArgsWithin owner depth (hms t ht).2
  all_goals exact .pure .none
termination_by depth

theorem neat_isOpenTypeWithin (depth : Nat) {t : Ty} (ht : Neat t) :
    Neatly (isOpenTypeWithin depth t) := by
  unfold isOpenTypeWithin
  refine (Neatly.lift (neat_expand ht)).bind fun type htype => ?_
  split
  · exact .pure trivial
  · exact .pure trivial
  · split
    · exact .pure trivial
    · exact .lift (neat_hasUnknownAncestor _)
  · cases depth with
    | zero => exact .failure
    | succ depth => exact neat_isOpenTypeWithin depth (Ty.NearNormal.nullable_iff.mp htype).2
  · cases depth with
    | zero => exact .failure
    | succ depth =>
      have hms := (Ty.NearNormal.union_iff.mp htype).2
      exact .anyM fun t ht => neat_isOpenTypeWithin depth (hms t ht).2
  all_goals exact .pure trivial
termination_by depth

theorem neat_memberOfType? {t : Ty} (ht : Neat t) (name : String) (kind : MemberKind) :
    Neatly (memberOfType? t name kind) := by
  rw [memberOfType?, receiverClasses, bounded_atDepth]
  refine Neatly.bind (n := Query) ((neat_receiverClassesWithin _ ht).run.bind fun ds _ =>
    .pure fun _ _ => trivial) fun ds _ => ?_
  exact .firstAnswer fun d _ => neat_memberOfClass? d name kind

theorem neat_memberTypeOn {receiver : Ty} (hreceiver : Neat receiver) (owner : DeclRef)
    {declared : Ty} (hdeclared : Neat declared) :
    Neatly (memberTypeOn receiver owner declared) := by
  rw [memberTypeOn, ownerArgs?, bounded_atDepth]
  refine Neatly.bind (n := Query) ((neat_ownerArgsWithin owner _ hreceiver).run.bind
    fun args hargs => .pure (hargs.getD .none)) fun args hargs => ?_
  cases args with
  | none => exact .pure (Ty.NearNormal.erase hdeclared)
  | some args => exact .pure (Ty.NearNormal.substitute _ _ hargs.of_some).erase

theorem neat_isOpenType {t : Ty} (ht : Neat t) : Neatly (isOpenType t) := by
  rw [isOpenType, bounded_atDepth]
  exact (neat_isOpenTypeWithin _ ht).run.bind fun _ _ => .pure trivial

theorem neat_nonNull {t : Ty} (ht : Neat t) : Neat (nonNull t) := by
  cases t with
  | nullable a => exact (Ty.NearNormal.nullable_iff.mp ht).2
  | _ => exact ht

/-- The keys and values of an object are arguments of its class or integers. -/
theorem neat_elementsBy {e : DeclRef × (List Ty → Ty × Ty)}
    (he : e ∈ elementsBy BaseModule.types) {args : List Ty} (hargs : Neat args) :
    Neat (e.2 args) := by
  have hint : Neat (BaseTypes.plain BaseModule.types.int) := Ty.NearNormal.plain _
  have harg (i : Nat) : Neat (argAt args i) := Ty.NearNormal.argAt hargs i
  simp only [elementsBy, List.mem_cons, List.not_mem_nil, or_false] at he
  rcases he with rfl | rfl | rfl | rfl | rfl | rfl
  · exact ⟨hint, harg 0⟩
  · exact ⟨hint, harg 0⟩
  · exact ⟨harg 0, harg 1⟩
  · exact ⟨harg 0, harg 1⟩
  · exact ⟨harg 0, harg 1⟩
  · exact ⟨hint, hint⟩

theorem neat_elementTypes? {t : Ty} (ht : Neat t) : Neatly (elementTypes? t) := by
  refine .firstAnswer fun e he => ?_
  refine (neat_asSupertype? ht e.1).bind fun args hargs => .pure ?_
  exact hargs.map fun args hargs => neat_elementsBy he hargs

/-! ## Annotations of properties -/

theorem neat_inheritedType? (name : String) (c : ClassDef) : Neatly (inheritedType? name c) := by
  unfold inheritedType?
  split
  · exact .pure .none
  · next m _ =>
    refine (neat_tree? m.site.module).bind fun found _ => ?_
    cases found with
    | none => exact .pure .none
    | some t =>
      simp only
      split
      · exact .optionMapM fun a _ => neat_resolveType t _ a
      · exact .pure .none

theorem neat_declaredPropertyType? (t : Tree) (n : Nat) : Neatly (declaredPropertyType? t n) := by
  unfold declaredPropertyType?
  split
  · split
    · exact (neat_resolveType t n _).map fun a ha => ha.some
    · split
      · exact .pure .none
      · next owner _ =>
        exact (neat_ancestors owner).bind fun chain _ =>
          .firstAnswer fun c _ => neat_inheritedType? _ c
  · exact .pure .none

/-! ## Objects -/

section Objects

variable {q : Typing} (hq : q.IsNeat)
include hq

theorem neat_propertyOn? {receiver : Ty} (h : Neat receiver) (name : String) :
    Neatly (propertyOn? q receiver name) := by
  unfold propertyOn?
  refine (neat_memberOfType? h name .property).bind fun m _ => ?_
  cases m with
  | none => exact .pure .none
  | some m =>
    refine (hq.typed _).bind fun declared hdeclared => ?_
    exact (neat_memberTypeOn h m.owner hdeclared).bind fun type htype => .pure htype.some

theorem neat_objectType (t : Tree) (body : Nat) : Neatly (objectType q t body) := by
  have hpick (declared : Option Ty) (h : Neat declared) :
      Neatly (pure ((declared.map nonNull).getD dynamicType) : Query Ty) :=
    .pure ((h.map fun a ha => neat_nonNull ha).getD (Ty.NearNormal.plain _))
  induction body using Nat.strongRecOn with
  | ind body ih =>
    unfold objectType
    split
    · exact .pure .unknown
    · next p _ =>
      split
      · exact hq.infer t _
      · exact hq.infer t _
      · exact (neat_declaredPropertyType? t _).bind hpick
      · simp only
        split
        · exact ((neat_resolveType t _ _).map fun a ha => ha.some).bind hpick
        · split
          · exact (Neatly.pure .none).bind hpick
          · next outer _ =>
            have hbefore : outer.val < body := Nat.lt_trans outer.isLt p.isLt
            refine (ih outer hbefore).bind fun type htype => ?_
            exact (neat_propertyOn? hq htype _).bind hpick
      · split
        · exact .pure .unknown
        · exact hq.infer t _
      · split
        · exact .pure .unknown
        · exact hq.infer t _
      · exact .pure .unknown

theorem neat_objectMemberType? (t : Tree) (member : Nat) (name : String) :
    Neatly (objectMemberType? q t member name) := by
  unfold objectMemberType?
  split
  · exact .pure .none
  · exact (neat_objectType hq t _).bind fun type htype => neat_propertyOn? hq htype name

end Objects

/-! ## What names mean -/

theorem neat_declaredMember? (d : DeclRef) (name : String) (kind : MemberKind) :
    Neatly (declaredMember? d name kind) :=
  (neat_memberOfClass? d name kind).bind fun _ _ => .untyped _

theorem neat_inModule? (t : Tree) (name : String) (kind : MemberKind) :
    Neatly (inModule? t name kind) := by
  unfold inModule?
  refine (neat_declaredMember? (moduleDecl t) name kind).bind fun found _ => ?_
  cases found with
  | some found => exact .untyped _
  | none =>
    simp only
    split
    · exact .untyped _
    · exact .untyped _
    · exact (neat_supermodules t).bind fun _ _ => .untyped _

theorem neat_topLevel? (t : Tree) (name : String) (kind : MemberKind) :
    Neatly (topLevel? t name kind) := by
  unfold topLevel?
  simp only
  split
  · exact .untyped _
  · exact (neat_memberOfClass? (moduleDecl t) name kind).bind fun _ _ => .untyped _

theorem neat_inImported? (importer : Tree) (uri name : String) (kind : MemberKind) :
    Neatly (inImported? importer uri name kind) := by
  unfold inImported?
  refine (neat_resolveModule? importer uri).bind fun found _ => ?_
  cases found with
  | some t => exact neat_topLevel? t name kind
  | none => exact .untyped _

theorem neat_onReceiver? (t : Tree) {receiver : Ty} (h : Neat receiver) (name : String)
    (kind : MemberKind) : Neatly (onReceiver? t receiver name kind) :=
  (neat_memberOfType? h name kind).bind fun _ _ => .untyped _

theorem neat_afterImport? (d : Declared) (name : String) (kind : MemberKind) :
    Neatly (afterImport? d name kind) := by
  unfold afterImport?
  refine (neat_tree? d.site.module).bind fun found _ => ?_
  cases found with
  | none => exact .untyped _
  | some importer =>
    simp only
    split
    · exact neat_inImported? importer _ name kind
    · exact .untyped _

theorem neat_moduleDeclared? (importer : Tree) (uri : String) :
    Neatly (moduleDeclared? importer uri) :=
  (neat_resolveModule? importer uri).bind fun _ _ => .untyped _

section Names

variable {q : Typing} (hq : q.IsNeat)
include hq

theorem neat_inObject? (t : Tree) (body : Nat) (name : String) (kind : MemberKind) :
    Neatly (inObject? q t body name kind) := by
  unfold inObject?
  simp only
  split
  · exact .untyped _
  · refine (neat_objectType hq t body).bind fun type htype => ?_
    exact (neat_memberOfType? htype name _).bind fun m _ => .untyped _

theorem neat_inScope? (t : Tree) (scope child : Nat) (name : String) (kind : MemberKind) :
    Neatly (inScope? q t scope child name kind) := by
  unfold inScope?
  split
  · exact .untyped _
  · exact .untyped _
  · exact .untyped _
  · exact .untyped _
  · exact neat_inObject? hq t scope name _
  · split
    · exact neat_declaredMember? _ name _
    · exact .untyped _
  · exact .untyped _

theorem neat_inScopes? (t : Tree) (name : String) (kind : MemberKind) (child : Nat)
    (scopes : List Nat) : Neatly (inScopes? q t name kind child scopes) := by
  induction scopes generalizing child with
  | nil => exact .untyped _
  | cons scope scopes ih =>
    refine (neat_inScope? hq t scope child name kind).bind fun found _ => ?_
    cases found with
    | some found => exact .untyped _
    | none => exact ih scope

theorem neat_unqualified? (t : Tree) (n : Nat) (name : String) (kind : MemberKind) :
    Neatly (unqualified? q t n name kind) := by
  unfold unqualified?
  refine (neat_inScopes? hq t name kind n _).bind fun found _ => ?_
  split
  · exact .untyped _
  · refine (neat_inModule? t name kind).bind fun found _ => ?_
    split
    · exact .untyped _
    · split
      · exact .untyped _
      · exact neat_inModule? BaseModule.tree name kind

theorem neat_afterModule? (t : Tree) (receiver : Nat) (name : String) (kind : MemberKind) :
    Neatly (afterModule? q t receiver name kind) := by
  have hwrap {x : Query (Option Declared)} (hx : Neatly x) : Neatly (some <$> x) :=
    hx.map fun _ h => h.some
  unfold afterModule?
  split
  · exact hwrap (neat_declaredMember? _ name kind)
  · exact hwrap (neat_inImported? t _ name kind)
  · refine (neat_unqualified? hq t receiver _ .property).bind fun found _ => ?_
    cases found with
    | none => exact .pure .none
    | some d =>
      simp only
      split
      · exact hwrap (neat_afterImport? d name kind)
      · exact .pure .none
  · exact .pure .none

theorem neat_qualified? (t : Tree) (receiver : Nat) (name : String) (kind : MemberKind) :
    Neatly (qualified? q t receiver name kind) := by
  unfold qualified?
  refine (neat_afterModule? hq t receiver name kind).bind fun found _ => ?_
  cases found with
  | some found => exact .untyped _
  | none => exact (hq.infer t receiver).bind fun type htype => neat_onReceiver? t htype name kind

theorem neat_resolveIn (t : Tree) (n : Nat) : Neatly (resolveIn q t n) := by
  unfold resolveIn
  split
  · exact neat_unqualified? hq t n _ _
  · exact neat_unqualified? hq t n _ _
  · split
    · exact neat_qualified? hq t _ _ _
    · exact .untyped _
  · split
    · exact neat_qualified? hq t _ _ _
    · exact .untyped _
  · exact neat_moduleDeclared? t _
  · exact neat_moduleDeclared? t _
  · exact neat_moduleDeclared? t _
  · exact .untyped _

end Names

end Session

end PklAnalysis
