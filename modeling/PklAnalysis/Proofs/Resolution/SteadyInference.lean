import PklAnalysis.Proofs.Resolution.SteadyScopes
import PklAnalysis.Resolution.Inference

/-!
# Types are inferred steadily

One step towards the type of a node or a declaration is steady if what it asks of a typing is, so
any number of steps is.
-/

namespace PklAnalysis.Session

variable {T : Set Tree}

theorem grounded_literalType (value : Literal) : Grounded T (literalType value) := by
  cases value with
  | string text => exact .literal text
  | int _ => exact .plainBase (by simp)
  | float _ => exact .plainBase (by simp)
  | boolean _ => exact .plainBase (by simp)
  | null => exact .nullType Grounded.baseTypes

theorem steady_bindingType {t : Tree} (ht : Grounded T t) (n : Nat) (b : Binding) :
    Steady T (bindingType t n b) := by
  unfold bindingType
  split
  · exact steady_resolveType ht n _
  · exact .pure .unknown

theorem steady_importedType {t : Tree} (ht : Grounded T t) {n : Nat} {uri : String}
    (huri : uriAt? t n = some uri) : Steady T (importedType t uri) :=
  (steady_resolveModule? ht huri).bind fun _ _ _ hfound =>
    .pure ((hfound.map fun _ ht => ht.moduleType).getD .unknown)

theorem grounded_selfType {c : ClassDef} (hc : Grounded T c) : Grounded T c.selfType := by
  refine Grounded.class_iff.mpr ⟨hc.1, List.forall_mem_map.mpr fun p _ => ?_⟩
  exact .param _

theorem steady_ownerOfDeclared? {d : Declared} (hd : Grounded T d) :
    Steady T (ownerOfDeclared? d) := by
  refine (steady_tree? hd).bind fun U found _ hfound => .pure ?_
  cases found with
  | none => exact .none
  | some t => exact hfound.of_some.ownerOf? _

section Steps

variable {q : Typing} (hq : q.IsSteady)
include hq

/-! ## Expressions -/

theorem steady_referenceType {t : Tree} (ht : Grounded T t) (n : Nat) :
    Steady T (referenceType q t n) := by
  unfold referenceType
  refine (steady_resolveIn hq ht n).bind fun U found _ hfound => ?_
  cases found with
  | none => exact .pure .unknown
  | some d => exact hq.typed hfound.of_some

theorem steady_typeOnReceiver {receiver : Query Ty} (h : Steady T receiver) {d : Declared}
    (hd : Grounded T d) : Steady T (typeOnReceiver q receiver d) := by
  unfold typeOnReceiver
  refine (hq.typed hd).bind fun U declared hU hdeclared => ?_
  refine (steady_ownerOfDeclared? (hd.mono hU)).bind fun V owner hV _ => ?_
  cases owner with
  | none => exact .pure (hdeclared.mono hV).erase
  | some owner =>
    exact (h.mono (hU.trans hV)).bind fun X type hX htype =>
      steady_memberTypeOn htype owner (hdeclared.mono (hV.trans hX))

theorem steady_qualifiedType {t : Tree} (ht : Grounded T t) (receiver : Nat) (name : String)
    (kind : MemberKind) : Steady T (qualifiedType q t receiver name kind) := by
  unfold qualifiedType
  refine (steady_afterModule? hq ht receiver name kind).bind fun U found hU hfound => ?_
  have ht := ht.mono hU
  split
  · exact .pure .unknown
  · exact steady_typeOnReceiver hq (hq.infer receiver ht) hfound.of_some.of_some
  · refine (hq.infer receiver ht).bind fun V type hV htype => ?_
    refine (steady_onReceiver? t htype name kind).bind fun X found hX hfound => ?_
    cases found with
    | none => exact .pure .unknown
    | some d => exact steady_typeOnReceiver hq (.pure (htype.mono hX)) hfound.of_some

theorem steady_accessType {t : Tree} (ht : Grounded T t) (n : Nat) (name : String)
    (kind : MemberKind) : Steady T (accessType q t n name kind) := by
  unfold accessType
  split
  · exact steady_qualifiedType hq ht _ name kind
  · exact .pure .unknown

theorem steady_thisTypeIn {t : Tree} (ht : Grounded T t) (scopes : List Nat) :
    Steady T (thisTypeIn q t scopes) := by
  induction scopes with
  | nil => exact .pure ht.moduleType
  | cons scope scopes ih =>
    unfold thisTypeIn
    split
    · exact steady_objectType hq ht scope
    · split
      · exact .pure .unknown
      · next d hd =>
        exact (steady_classDef (ht.declOf? scope d hd)).bind fun U c _ hc =>
          .pure ((hc.map fun c hc => grounded_selfType hc).getD .unknown)
    · exact ih

theorem steady_lambdaParts {t : Tree} (ht : Grounded T t) (ns : List Nat) :
    Steady T (lambdaParts q t ns) := by
  induction ns generalizing T with
  | nil => exact .pure ⟨.nil, .none⟩
  | cons n ns ih =>
    unfold lambdaParts
    split
    · refine (steady_bindingType ht n _).bind fun U param hU hparam => ?_
      exact (ih (ht.mono hU)).bind fun V parts hV hparts =>
        .pure ⟨.cons (hparam.mono hV) hparts.1, hparts.2⟩
    · refine (hq.infer n ht).bind fun U body hU hbody => ?_
      exact (ih (ht.mono hU)).bind fun V parts hV hparts =>
        .pure ⟨hparts.1, hparts.2.or (hbody.mono hV).some⟩

theorem steady_elementType? {t : Tree} (ht : Grounded T t) (member : Nat) :
    Steady T (elementType? q t member) := by
  unfold elementType?
  split
  · exact .pure .none
  · refine (hq.infer _ ht).bind fun U type _ htype => ?_
    exact (steady_elementTypes? htype).bind fun V types _ htypes =>
      .pure (htypes.map fun _ h => h.2)

theorem steady_placeType? {t : Tree} (ht : Grounded T t) (n : Nat) :
    Steady T (placeType? q t n) := by
  unfold placeType?
  split
  · exact .pure .none
  · split
    · exact steady_declaredPropertyType? ht _
    · split
      · exact (steady_resolveType ht _ _).map fun U a _ ha => ha.some
      · exact steady_objectMemberType? hq ht _ _
    · exact .optionMapM fun a _ => steady_resolveType ht _ a
    · exact steady_elementType? hq ht _
    · split
      · exact steady_elementType? hq ht _
      · exact .pure .none
    · exact .pure .none

theorem steady_expectedType {t : Tree} (ht : Grounded T t) (n : Nat) :
    Steady T (expectedType q t n) := by
  unfold expectedType
  refine (steady_placeType? hq ht n).bind fun U type _ htype => ?_
  have hnonNull := htype.map fun a ha => grounded_nonNull ha
  split
  · exact .pure grounded_dynamicType
  · exact .pure grounded_dynamicType
  · next hsome => exact .pure (hsome ▸ hnonNull).of_some

/-- One step towards the type of a node. -/
theorem steady_inferNode {t : Tree} (ht : Grounded T t) {n : Nat} {kind : NodeKind}
    (hkind : t.kind? n = some kind) : Steady T (inferNode q t n kind) := by
  unfold inferNode
  split
  · exact .pure (grounded_literalType _)
  · exact steady_referenceType hq ht n
  · exact steady_referenceType hq ht n
  · refine (steady_accessType hq ht n _ _).bind fun U type _ htype => .pure ?_
    split
    · exact htype.orNull
    · exact htype
  · exact steady_accessType hq ht n _ _
  · exact steady_thisTypeIn hq ht _
  · exact .pure ht.moduleType
  · exact .pure ht.moduleType
  · split
    · exact hq.infer _ ht
    · exact .pure .unknown
  · exact (steady_lambdaParts hq ht _).bind fun U parts _ hparts =>
      .pure (Grounded.function_iff.mpr ⟨hparts.1, hparts.2.getD .unknown⟩)
  · exact steady_resolveType ht n _
  · exact steady_expectedType hq ht n
  · split
    · exact hq.infer _ ht
    · exact .pure .unknown
  · exact (Steady.mapM fun c _ => hq.infer c ht).bind fun U types _ htypes =>
      .pure htypes.unionOf
  · exact steady_importedType ht (by rw [uriAt?, hkind])
  · exact steady_importedType ht (by rw [uriAt?, hkind])
  · exact steady_objectType hq ht n
  · exact hq.typed (ht.atNode n _ _)
  · exact hq.typed (ht.atNode n _ _)
  · exact hq.typed (ht.atNode n _ _)
  · exact hq.typed (ht.atNode n _ _)
  all_goals exact .pure .unknown

/-! ## Declarations -/

theorem steady_valueType? {t : Tree} (ht : Grounded T t) (n : Nat) :
    Steady T (valueType? q t n) := .optionMapM fun c _ => hq.infer c ht

theorem steady_propertyType {t : Tree} (ht : Grounded T t) (n : Nat) :
    Steady T (propertyType q t n) := by
  unfold propertyType
  refine (steady_declaredPropertyType? ht n).bind fun U type hU htype => ?_
  split
  · exact .pure htype.of_some
  · refine (steady_valueType? hq (ht.mono hU) n).bind fun V type _ htype => ?_
    split
    · exact .pure htype.of_some
    · split
      · exact .pure grounded_dynamicType
      · exact .pure .unknown

theorem steady_objectPropertyType {t : Tree} (ht : Grounded T t) (n : Nat) (name : String) :
    Steady T (objectPropertyType q t n name) := by
  unfold objectPropertyType
  refine (steady_valueType? hq ht n).bind fun U type hU htype => ?_
  split
  · exact .pure htype.of_some
  · exact (steady_objectMemberType? hq (ht.mono hU) n name).bind fun V type _ htype =>
      .pure (htype.getD grounded_dynamicType)

theorem steady_generatorType {t : Tree} (ht : Grounded T t) (n : Nat) (isKey : Bool) :
    Steady T (generatorType q t n isKey) := by
  unfold generatorType
  split
  · exact .pure .unknown
  · refine (hq.infer _ ht).bind fun U type _ htype => ?_
    refine (steady_elementTypes? htype).bind fun V types _ htypes => ?_
    cases types with
    | none => exact .pure .unknown
    | some types =>
      refine .pure ?_
      split
      · exact htypes.of_some.1
      · exact htypes.of_some.2

theorem steady_nodeType {t : Tree} (ht : Grounded T t) {n : Nat} (name : String)
    {kind : NodeKind} (hkind : t.kind? n = some kind) : Steady T (nodeType q t n name kind) := by
  unfold nodeType
  split
  · exact steady_propertyType hq ht n
  · split
    · exact steady_resolveType ht n _
    · exact steady_objectPropertyType hq ht n _
  · split
    · exact steady_resolveType ht n _
    · exact (steady_valueType? hq ht n).bind fun U type _ htype => .pure (htype.getD .unknown)
  · exact steady_bindingType ht n _
  · split
    · exact steady_resolveType ht n _
    · exact hq.infer _ ht
    · exact .pure .unknown
  · exact steady_generatorType hq ht n _
  · exact steady_importedType ht (by rw [uriAt?, hkind])
  · exact .pure ht.moduleType
  · exact .pure .unknown

/-- One step towards the type of a declaration. -/
theorem steady_declarationType {d : Declared} (hd : Grounded T d) :
    Steady T (declarationType q d) := by
  unfold declarationType
  refine (steady_tree? hd).bind fun U found _ hfound => ?_
  cases found with
  | none => exact .pure .unknown
  | some t =>
    simp only
    split
    · next hkind => exact steady_nodeType hq hfound.of_some _ hkind
    · exact .pure .unknown

end Steps

/-! ## All steps -/

theorem isSteady_typingWithin (depth : Nat) (inProgress : List Site) :
    (typingWithin depth inProgress).IsSteady := by
  induction depth generalizing inProgress with
  | zero => exact ⟨fun _ _ => .pure .unknown, fun _ => .pure .unknown⟩
  | succ depth ih =>
    refine ⟨fun {T t} n ht => ?_, fun {T d} hd => ?_⟩
    · unfold typingWithin
      simp only
      split
      · next hkind => exact steady_inferNode (ih inProgress) ht hkind
      · exact .pure .unknown
    · unfold typingWithin
      simp only
      split
      · exact .pure .unknown
      · exact steady_declarationType (ih (d.site :: inProgress)) hd

theorem isSteady_typing : typing.IsSteady := isSteady_typingWithin maxTypingDepth []

end PklAnalysis.Session
