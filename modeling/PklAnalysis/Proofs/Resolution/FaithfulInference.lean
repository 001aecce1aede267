import PklAnalysis.Proofs.Resolution.FaithfulScopes
import PklAnalysis.Resolution.Inference

/-!
# Types are inferred faithfully

One step towards the type of a node or of a declaration is faithful if the types that it asks for
are, so the types that are found in any number of steps are.
-/

namespace PklAnalysis.Session

variable {V : World}

theorem faithful_literalType (value : Literal) : Faithful V (literalType value) := by
  cases value with
  | string text => exact Faithful.literal text
  | int | float | boolean | null => exact .plain (by simp [BaseTypes.plainDecls])

theorem faithful_bindingType {t : Tree} (ht : Faithful V t) (n : Nat) (b : Binding) :
    Faithfully V (bindingType t n b) := by
  unfold bindingType
  split
  · exact faithful_resolveType ht n _
  · exact .pure Faithful.unknown

theorem faithful_importedType (t : Tree) (uri : String) : Faithfully V (importedType t uri) := by
  refine (faithful_resolveModule? t uri).bind fun U found _ hfound => .pure ?_
  cases found with
  | none => exact Faithful.unknown
  | some m => exact hfound.of_some.moduleType

section Steps

variable {q : [Bounds] → Typing} (hq : Typing.IsFaithful q)
include hq

/-! ## Expressions -/

theorem faithful_referenceType {t : Tree} (ht : Faithful V t) (n : Nat) :
    Faithfully V (referenceType q t n) := by
  unfold referenceType
  refine (faithful_resolveIn hq ht n).bind fun U found _ _ => ?_
  cases found with
  | none => exact .pure Faithful.unknown
  | some d => exact hq.typed U d

theorem faithful_typeOnReceiver {receiver : [Bounds] → Query Ty} (h : Faithfully V receiver)
    (d : Declared) : Faithfully V (typeOnReceiver q receiver d) := by
  unfold typeOnReceiver
  refine (hq.typed V d).bind fun U declared hU hdeclared => ?_
  refine Faithfully.bind (n := Query) ((faithful_tree? _).bind fun _ _ _ _ =>
    .pure fun _ _ => trivial) fun U' owner hU' _ => ?_
  have hdeclared := hdeclared.mono hU'
  cases owner with
  | none => exact .pure hdeclared.erase
  | some owner =>
    exact (h.mono (hU.trans hU')).bind fun U'' type hU'' htype =>
      faithful_memberTypeOn htype owner (hdeclared.mono hU'')

theorem faithful_accessType {t : Tree} (ht : Faithful V t) (n : Nat) (name : String)
    (kind : MemberKind) : Faithfully V (accessType q t n name kind) := by
  unfold accessType
  split
  · next receiver _ =>
    unfold qualifiedType
    refine (faithful_afterModule? hq ht receiver name kind).bind fun U found hU _ => ?_
    have hreceiver := hq.infer U t receiver (ht.mono hU)
    split
    · exact .pure Faithful.unknown
    · exact faithful_typeOnReceiver hq hreceiver _
    · refine hreceiver.bind fun U' type _ htype => ?_
      refine (faithful_onReceiver? t htype name kind).bind fun U'' found hU'' _ => ?_
      cases found with
      | none => exact .pure Faithful.unknown
      | some d => exact faithful_typeOnReceiver hq (.pure (htype.mono hU'')) d
  · exact .pure Faithful.unknown

theorem faithful_thisTypeIn {t : Tree} (ht : Faithful V t) (scopes : List Nat) :
    Faithfully V (thisTypeIn q t scopes) := by
  induction scopes with
  | nil => exact .pure ht.moduleType
  | cons scope scopes ih =>
    unfold thisTypeIn
    split
    · exact faithful_objectType hq ht scope
    · split
      · exact .pure Faithful.unknown
      · refine (faithful_classDef _).bind fun U found _ hfound => .pure ?_
        cases found with
        | none => exact Faithful.unknown
        | some c => exact hfound.of_some.selfType
    · exact ih

theorem faithful_lambdaParts {t : Tree} (ht : Faithful V t) (ns : List Nat) :
    Faithfully V (lambdaParts q t ns) := by
  induction ns generalizing V with
  | nil => exact .pure ⟨.nil, .none⟩
  | cons n ns ih =>
    unfold lambdaParts
    split
    · refine (faithful_bindingType ht n _).bind fun U param hU hparam => ?_
      refine (ih (ht.mono hU)).bind fun U' parts hU' hparts => .pure ?_
      exact ⟨.cons (hparam.mono hU') hparts.1, hparts.2⟩
    · refine (hq.infer V t n ht).bind fun U body hU hbody => ?_
      refine (ih (ht.mono hU)).bind fun U' parts hU' hparts => .pure ?_
      exact ⟨hparts.1, hparts.2.or (hbody.mono hU').some⟩

theorem faithful_elementType? {t : Tree} (ht : Faithful V t) (member : Nat) :
    Faithfully V (elementType? q t member) := by
  unfold elementType?
  split
  · exact .pure .none
  · refine (hq.infer V t _ ht).bind fun U type _ htype => ?_
    exact (faithful_elementTypes? htype).bind fun _ types _ htypes =>
      .pure (htypes.map fun _ h => h.2)

theorem faithful_placeType? {t : Tree} (ht : Faithful V t) (n : Nat) :
    Faithfully V (placeType? q t n) := by
  unfold placeType?
  split
  · exact .pure .none
  · split
    · exact faithful_declaredPropertyType? ht _
    · split
      · exact (faithful_resolveType ht _ _).map fun _ _ _ ha => ha.some
      · exact faithful_objectMemberType? hq ht _ _
    · exact .optionMapM fun a _ => faithful_resolveType ht _ a
    · exact faithful_elementType? hq ht _
    · split
      · exact faithful_elementType? hq ht _
      · exact .pure .none
    · exact .pure .none

theorem faithful_expectedType {t : Tree} (ht : Faithful V t) (n : Nat) :
    Faithfully V (expectedType q t n) := by
  unfold expectedType
  refine (faithful_placeType? hq ht n).bind fun U type _ htype => ?_
  have hnonNull := htype.map fun a ha => faithful_nonNull ha
  split
  · exact .pure faithful_dynamicType
  · exact .pure faithful_dynamicType
  · next hsome => exact .pure (hsome ▸ hnonNull).of_some

/-- One step towards the type of a node. -/
theorem faithful_inferNode {t : Tree} (ht : Faithful V t) (n : Nat) (kind : NodeKind) :
    Faithfully V (inferNode q t n kind) := by
  unfold inferNode
  split
  · exact .pure (faithful_literalType _)
  · exact faithful_referenceType hq ht n
  · exact faithful_referenceType hq ht n
  · refine (faithful_accessType hq ht n _ _).bind fun U type _ htype => .pure ?_
    split
    · exact htype.orNull
    · exact htype
  · exact faithful_accessType hq ht n _ _
  · exact faithful_thisTypeIn hq ht _
  · exact .pure ht.moduleType
  · exact .pure ht.moduleType
  · split
    · exact hq.infer V t _ ht
    · exact .pure Faithful.unknown
  · refine (faithful_lambdaParts hq ht _).bind fun U parts _ hparts => .pure ?_
    exact Faithful.function_iff.mpr ⟨hparts.1, hparts.2.getD Faithful.unknown⟩
  · exact faithful_resolveType ht n _
  · exact faithful_expectedType hq ht n
  · split
    · exact hq.infer V t _ ht
    · exact .pure Faithful.unknown
  · exact (Faithfully.mapM fun c _ => hq.infer V t c ht).bind fun _ types _ htypes =>
      .pure htypes.unionOf
  · exact faithful_importedType t _
  · exact faithful_importedType t _
  · exact faithful_objectType hq ht n
  · exact hq.typed V _
  · exact hq.typed V _
  · exact hq.typed V _
  · exact hq.typed V _
  all_goals exact .pure Faithful.unknown

/-! ## Declarations -/

theorem faithful_valueType? {t : Tree} (ht : Faithful V t) (n : Nat) :
    Faithfully V (valueType? q t n) := .optionMapM fun c _ => hq.infer V t c ht

theorem faithful_propertyType {t : Tree} (ht : Faithful V t) (n : Nat) :
    Faithfully V (propertyType q t n) := by
  unfold propertyType
  refine (faithful_declaredPropertyType? ht n).bind fun U type hU htype => ?_
  split
  · exact .pure htype.of_some
  · refine (faithful_valueType? hq (ht.mono hU) n).bind fun U' type _ htype => ?_
    split
    · exact .pure htype.of_some
    · split
      · exact .pure faithful_dynamicType
      · exact .pure Faithful.unknown

theorem faithful_objectPropertyType {t : Tree} (ht : Faithful V t) (n : Nat) (name : String) :
    Faithfully V (objectPropertyType q t n name) := by
  unfold objectPropertyType
  refine (faithful_valueType? hq ht n).bind fun U type hU htype => ?_
  split
  · exact .pure htype.of_some
  · exact (faithful_objectMemberType? hq (ht.mono hU) n name).bind fun _ type _ htype =>
      .pure (htype.getD faithful_dynamicType)

theorem faithful_generatorType {t : Tree} (ht : Faithful V t) (n : Nat) (isKey : Bool) :
    Faithfully V (generatorType q t n isKey) := by
  unfold generatorType
  split
  · exact .pure Faithful.unknown
  · refine (hq.infer V t _ ht).bind fun U type _ htype => ?_
    refine (faithful_elementTypes? htype).bind fun U' types _ htypes => ?_
    cases types with
    | none => exact .pure Faithful.unknown
    | some types =>
      refine .pure ?_
      split
      · exact htypes.of_some.1
      · exact htypes.of_some.2

theorem faithful_nodeType {t : Tree} (ht : Faithful V t) (n : Nat) (name : String)
    (kind : NodeKind) : Faithfully V (nodeType q t n name kind) := by
  unfold nodeType
  split
  · exact faithful_propertyType hq ht n
  · split
    · exact faithful_resolveType ht n _
    · exact faithful_objectPropertyType hq ht n _
  · split
    · exact faithful_resolveType ht n _
    · exact (faithful_valueType? hq ht n).bind fun _ type _ htype =>
        .pure (htype.getD Faithful.unknown)
  · exact faithful_bindingType ht n _
  · split
    · exact faithful_resolveType ht n _
    · exact hq.infer V t _ ht
    · exact .pure Faithful.unknown
  · exact faithful_generatorType hq ht n _
  · exact faithful_importedType t _
  · exact .pure ht.moduleType
  · exact .pure Faithful.unknown

/-- One step towards the type of a declaration, in the tree that its module has. -/
theorem faithful_declarationType (d : Declared) : Faithfully V (declarationType q d) := by
  unfold declarationType
  refine (faithful_tree? _).bind fun U found _ hfound => ?_
  cases found with
  | none => exact .pure Faithful.unknown
  | some t =>
    simp only
    split
    · exact faithful_nodeType hq hfound.of_some _ _ _
    · exact .pure Faithful.unknown

end Steps

/-! ## All steps -/

theorem isFaithful_typingWithin (depth : Nat) (inProgress : List Site) :
    Typing.IsFaithful (typingWithin depth inProgress) := by
  induction depth generalizing inProgress with
  | zero => exact ⟨fun _ _ _ _ => .pure Faithful.unknown, fun _ _ => .pure Faithful.unknown⟩
  | succ depth ih =>
    refine ⟨fun V t n ht => ?_, fun V d => ?_⟩
    · unfold typingWithin
      simp only
      split
      · exact faithful_inferNode (ih inProgress) ht n _
      · exact .pure Faithful.unknown
    · unfold typingWithin
      simp only
      split
      · exact .pure Faithful.unknown
      · exact faithful_declarationType (ih (d.site :: inProgress)) d

theorem isFaithful_typing : Typing.IsFaithful typing := isFaithful_typingWithin maxTypingDepth []

end PklAnalysis.Session
