import PklAnalysis.Proofs.Resolution.Memoization
import PklAnalysis.Proofs.Resolution.NeatScopes

/-!
# The form of inferred types

Whatever a session has been asked before and however its store has changed, the type of a node is
nearly in normal form.  It is in normal form but where erasure leaves the unknown type among the
members of a union or before a question mark, or makes members equal.
-/

namespace PklAnalysis.Session

/-! ## One step of inference -/

theorem neat_literalType (value : Literal) : Neat (literalType value) := by
  cases value with
  | string text => exact Ty.NearNormal.literal text
  | int | float | boolean | null => exact Ty.NearNormal.plain _

theorem neat_bindingType (t : Tree) (n : Nat) (b : Binding) : Neatly (bindingType t n b) := by
  unfold bindingType
  split
  · exact neat_resolveType t n _
  · exact .pure .unknown

theorem neat_importedType (t : Tree) (uri : String) : Neatly (importedType t uri) := by
  refine (neat_resolveModule? t uri).bind fun found _ => .pure ?_
  cases found with
  | none => exact .unknown
  | some m => exact neat_moduleType m

theorem neat_selfType (c : ClassDef) : Neat c.selfType :=
  Ty.NearNormal.class_iff.mpr (List.forall_mem_map.mpr fun _ _ => Ty.NearNormal.param _)

theorem neat_dynamicType : Neat dynamicType := Ty.NearNormal.plain _

section Steps

variable {q : Typing} (hq : q.IsNeat)
include hq

theorem neat_referenceType (t : Tree) (n : Nat) : Neatly (referenceType q t n) := by
  unfold referenceType
  refine (neat_resolveIn hq t n).bind fun found _ => ?_
  cases found with
  | none => exact .pure .unknown
  | some d => exact hq.typed d

theorem neat_typeOnReceiver {receiver : Query Ty} (h : Neatly receiver) (d : Declared) :
    Neatly (typeOnReceiver q receiver d) := by
  unfold typeOnReceiver
  refine (hq.typed d).bind fun declared hdeclared => ?_
  refine Neatly.bind (n := Query) ((neat_tree? _).bind fun _ _ => .pure fun _ _ => trivial)
    fun owner _ => ?_
  cases owner with
  | none => exact .pure (Ty.NearNormal.erase hdeclared)
  | some owner => exact h.bind fun type htype => neat_memberTypeOn htype owner hdeclared

theorem neat_accessType (t : Tree) (n : Nat) (name : String) (kind : MemberKind) :
    Neatly (accessType q t n name kind) := by
  unfold accessType
  split
  · next receiver _ =>
    unfold qualifiedType
    refine (neat_afterModule? hq t receiver name kind).bind fun found _ => ?_
    split
    · exact .pure .unknown
    · exact neat_typeOnReceiver hq (hq.infer t receiver) _
    · refine (hq.infer t receiver).bind fun type htype => ?_
      refine (neat_onReceiver? t htype name kind).bind fun found _ => ?_
      cases found with
      | none => exact .pure .unknown
      | some d => exact neat_typeOnReceiver hq (.pure htype) d
  · exact .pure .unknown

theorem neat_thisTypeIn (t : Tree) (scopes : List Nat) : Neatly (thisTypeIn q t scopes) := by
  induction scopes with
  | nil => exact .pure (neat_moduleType t)
  | cons scope scopes ih =>
    unfold thisTypeIn
    split
    · exact neat_objectType hq t scope
    · split
      · exact .pure .unknown
      · refine (neat_classDef _).bind fun found _ => .pure ?_
        cases found with
        | none => exact .unknown
        | some c => exact neat_selfType c
    · exact ih

theorem neat_lambdaParts (t : Tree) (ns : List Nat) : Neatly (lambdaParts q t ns) := by
  induction ns with
  | nil => exact .pure ⟨.nil, .none⟩
  | cons n ns ih =>
    unfold lambdaParts
    split
    · refine (neat_bindingType t n _).bind fun param hparam => ?_
      exact ih.bind fun parts hparts => .pure ⟨.cons hparam hparts.1, hparts.2⟩
    · refine (hq.infer t n).bind fun body hbody => ?_
      exact ih.bind fun parts hparts => .pure ⟨hparts.1, hparts.2.or hbody.some⟩

theorem neat_elementType? (t : Tree) (member : Nat) : Neatly (elementType? q t member) := by
  unfold elementType?
  split
  · exact .pure .none
  · refine (hq.infer t _).bind fun type htype => ?_
    exact (neat_elementTypes? htype).bind fun types htypes => .pure (htypes.map fun _ h => h.2)

theorem neat_placeType? (t : Tree) (n : Nat) : Neatly (placeType? q t n) := by
  unfold placeType?
  split
  · exact .pure .none
  · split
    · exact neat_declaredPropertyType? t _
    · split
      · exact (neat_resolveType t _ _).map fun a ha => ha.some
      · exact neat_objectMemberType? hq t _ _
    · exact .optionMapM fun a _ => neat_resolveType t _ a
    · exact neat_elementType? hq t _
    · split
      · exact neat_elementType? hq t _
      · exact .pure .none
    · exact .pure .none

theorem neat_expectedType (t : Tree) (n : Nat) : Neatly (expectedType q t n) := by
  unfold expectedType
  refine (neat_placeType? hq t n).bind fun type htype => ?_
  have hnonNull := htype.map fun a ha => neat_nonNull ha
  split
  · exact .pure neat_dynamicType
  · exact .pure neat_dynamicType
  · next hsome => exact .pure (hsome ▸ hnonNull).of_some

/-- One step towards the type of a node. -/
theorem neat_inferNode (t : Tree) (n : Nat) (kind : NodeKind) : Neatly (inferNode q t n kind) := by
  unfold inferNode
  split
  · exact .pure (neat_literalType _)
  · exact neat_referenceType hq t n
  · exact neat_referenceType hq t n
  · refine (neat_accessType hq t n _ _).bind fun type htype => .pure ?_
    split
    · exact Ty.NearNormal.orNull htype
    · exact htype
  · exact neat_accessType hq t n _ _
  · exact neat_thisTypeIn hq t _
  · exact .pure (neat_moduleType t)
  · exact .pure (neat_moduleType t)
  · split
    · exact hq.infer t _
    · exact .pure .unknown
  · exact (neat_lambdaParts hq t _).bind fun parts hparts =>
      .pure (Ty.NearNormal.function_iff.mpr ⟨hparts.1, hparts.2.getD .unknown⟩)
  · exact neat_resolveType t n _
  · exact neat_expectedType hq t n
  · split
    · exact hq.infer t _
    · exact .pure .unknown
  · exact (Neatly.mapM fun c _ => hq.infer t c).bind fun types htypes =>
      .pure (Ty.NearNormal.unionOf htypes)
  · exact neat_importedType t _
  · exact neat_importedType t _
  · exact neat_objectType hq t n
  · exact hq.typed _
  · exact hq.typed _
  · exact hq.typed _
  · exact hq.typed _
  all_goals exact .pure .unknown

theorem neat_valueType? (t : Tree) (n : Nat) : Neatly (valueType? q t n) :=
  .optionMapM fun c _ => hq.infer t c

theorem neat_propertyType (t : Tree) (n : Nat) : Neatly (propertyType q t n) := by
  unfold propertyType
  refine (neat_declaredPropertyType? t n).bind fun type htype => ?_
  split
  · exact .pure htype.of_some
  · refine (neat_valueType? hq t n).bind fun type htype => ?_
    split
    · exact .pure htype.of_some
    · split
      · exact .pure neat_dynamicType
      · exact .pure .unknown

theorem neat_objectPropertyType (t : Tree) (n : Nat) (name : String) :
    Neatly (objectPropertyType q t n name) := by
  unfold objectPropertyType
  refine (neat_valueType? hq t n).bind fun type htype => ?_
  split
  · exact .pure htype.of_some
  · exact (neat_objectMemberType? hq t n name).bind fun type htype =>
      .pure (htype.getD neat_dynamicType)

theorem neat_generatorType (t : Tree) (n : Nat) (isKey : Bool) :
    Neatly (generatorType q t n isKey) := by
  unfold generatorType
  split
  · exact .pure .unknown
  · refine (hq.infer t _).bind fun type htype => ?_
    refine (neat_elementTypes? htype).bind fun types htypes => ?_
    cases types with
    | none => exact .pure .unknown
    | some types =>
      refine .pure ?_
      split
      · exact htypes.of_some.1
      · exact htypes.of_some.2

theorem neat_nodeType (t : Tree) (n : Nat) (name : String) (kind : NodeKind) :
    Neatly (nodeType q t n name kind) := by
  unfold nodeType
  split
  · exact neat_propertyType hq t n
  · split
    · exact neat_resolveType t n _
    · exact neat_objectPropertyType hq t n _
  · split
    · exact neat_resolveType t n _
    · exact (neat_valueType? hq t n).bind fun type htype => .pure (htype.getD .unknown)
  · exact neat_bindingType t n _
  · split
    · exact neat_resolveType t n _
    · exact hq.infer t _
    · exact .pure .unknown
  · exact neat_generatorType hq t n _
  · exact neat_importedType t _
  · exact .pure (neat_moduleType t)
  · exact .pure .unknown

/-- One step towards the type of a declaration. -/
theorem neat_declarationType (d : Declared) : Neatly (declarationType q d) := by
  unfold declarationType
  refine (neat_tree? _).bind fun found _ => ?_
  cases found with
  | none => exact .pure .unknown
  | some t =>
    simp only
    split
    · exact neat_nodeType hq t _ _ _
    · exact .pure .unknown

end Steps

theorem isNeat_typingWithin (depth : Nat) (inProgress : List Site) :
    (typingWithin depth inProgress).IsNeat := by
  induction depth generalizing inProgress with
  | zero => exact ⟨fun _ _ => .pure .unknown, fun _ => .pure .unknown⟩
  | succ depth ih =>
    refine ⟨fun t n => ?_, fun d => ?_⟩
    · unfold typingWithin
      simp only
      split
      · exact neat_inferNode (ih inProgress) t n _
      · exact .pure .unknown
    · unfold typingWithin
      simp only
      split
      · exact .pure .unknown
      · exact neat_declarationType (ih (d.site :: inProgress)) d

theorem isNeat_typing : typing.IsNeat := isNeat_typingWithin maxTypingDepth []

/-! ## Questions -/

theorem isNeat_invalidate (s : Session) : s.invalidate.IsNeat :=
  (IsNeat.new s.store).of_tables rfl rfl rfl

theorem neat_adopt (t : Tree) : Neatly (adopt t) := by
  intro s hs
  refine ⟨?_, trivial⟩
  rw [adopt_apply]
  split
  · split
    · exact hs
    · exact isNeat_invalidate _
  · split
    · exact hs.of_tables rfl rfl rfl
    · exact isNeat_invalidate _
  · exact isNeat_invalidate _

theorem neat_resolve (t : Tree) (n : Nat) : Neatly (resolve t n) :=
  (neat_adopt t).bind fun _ _ => neat_resolveIn isNeat_typing t n

theorem neat_typeOf (t : Tree) (n : Nat) : Neatly (typeOf t n) :=
  (neat_adopt t).bind fun _ _ => isNeat_typing.infer t n

theorem neat_findingsAt (t : Tree) {check : Nat → Query (Option Diagnostic)}
    (h : ∀ n, Neatly (check n)) : Neatly (findingsAt t check) :=
  (Neatly.mapM fun n _ => h n).bind fun _ _ => .pure fun _ _ => trivial

theorem neat_checkUri (t : Tree) (n : Nat) : Neatly (checkUri t n) := by
  unfold checkUri
  split
  · exact .untyped _
  · refine (neat_resolveModule t _).bind fun target _ => ?_
    cases target with
    | ok _ => exact .untyped _
    | error e =>
      simp only
      split
      · exact .untyped _
      · exact .untyped _

theorem neat_checkCycles (t : Tree) : Neatly (checkCycles t) := by
  have hcheck (d : DeclRef) (n : Nat) (finding : Finding) : Neatly (do
      if (← ancestors d).isCyclic then return some (Diagnostic.atNode t n finding)
      return none : Query (Option Diagnostic)) := by
    refine (neat_ancestors d).bind fun chain _ => ?_
    split
    · exact .untyped _
    · exact .untyped _
  unfold checkCycles
  refine Neatly.bind (n := Query) (hcheck _ _ _) fun own _ => ?_
  refine (neat_findingsAt t fun n => ?_).bind fun _ _ => .pure fun _ _ => trivial
  unfold checkClassCycle
  split
  · exact hcheck _ _ _
  · exact .untyped _

theorem neat_isOpenReceiver (t : Tree) (receiver : Nat) : Neatly (isOpenReceiver t receiver) := by
  unfold isOpenReceiver
  refine (neat_resolve t receiver).bind fun found _ => ?_
  split
  · unfold isOpenImport
    split
    · refine (neat_resolveModule? t _).bind fun found _ => ?_
      cases found with
      | some m => exact neat_hasUnknownAncestor _
      | none => exact .pure trivial
    · exact .pure trivial
  · exact (neat_typeOf t receiver).bind fun type htype => neat_isOpenType htype

theorem neat_isOpenScope (t : Tree) (scope : Nat) : Neatly (isOpenScope t scope) := by
  unfold isOpenScope
  split
  · exact (neat_typeOf t scope).bind fun _ _ => .pure trivial
  · split
    · exact neat_hasUnknownAncestor _
    · exact .pure trivial
  · exact .pure trivial

theorem neat_isExcused (t : Tree) (n : Nat) (hasReceiver : Bool) :
    Neatly (isExcused t n hasReceiver) := by
  unfold isExcused
  split
  · split
    · exact neat_isOpenReceiver t _
    · exact .pure trivial
  · refine (Neatly.anyM fun scope _ => neat_isOpenScope t scope).bind fun isOpen _ => ?_
    split
    · exact .pure trivial
    · exact neat_hasUnknownAncestor _

theorem neat_checkReference (t : Tree) (n : Nat) : Neatly (checkReference t n) := by
  unfold checkReference
  split
  · exact .untyped _
  · refine (neat_resolve t n).bind fun found _ => ?_
    split
    · exact .untyped _
    · refine (neat_isExcused t n _).bind fun excused _ => ?_
      split
      · exact .untyped _
      · exact .untyped _

theorem neat_typedValue? {type : Option Ty} (htype : Neat type) (value : Option Nat) :
    Neatly (pure (typedValue? type value) : Query (Option (Ty × Nat))) := by
  refine .pure ?_
  unfold typedValue?
  split
  · exact .some ⟨htype.of_some, trivial⟩
  · exact .none

theorem neat_declaredValue? (t : Tree) (n : Nat) : Neatly (declaredValue? t n) := by
  unfold declaredValue?
  simp only [pure_bind]
  split
  · exact (neat_declaredPropertyType? t n).bind fun type h => neat_typedValue? h _
  · exact (Neatly.optionMapM fun a _ => neat_resolveType t n a).bind fun type h =>
      neat_typedValue? h _
  · exact (Neatly.optionMapM fun a _ => neat_resolveType t n a).bind fun type h =>
      neat_typedValue? h _
  · exact .pure .none

theorem neat_checkType (t : Tree) (n : Nat) : Neatly (checkType t n) := by
  unfold checkType
  refine (neat_declaredValue? t n).bind fun found hfound => ?_
  split
  · exact .untyped _
  · next declared value =>
    refine (neat_typeOf t value).bind fun actual hactual => ?_
    have hexpected : Neat declared.erase := Ty.NearNormal.erase hfound.of_some.1
    refine (neat_haveCommonSubtype hactual hexpected).bind fun common _ => ?_
    split
    · exact .untyped _
    · exact .untyped _

theorem neat_checkModule (t : Tree) (options : CheckOptions) :
    Neatly (checkModule t options) := by
  have hif {check : Query (List Diagnostic)} (h : Neatly check) (wanted : Bool) :
      Neatly (checkIf wanted check) := by
    unfold checkIf
    split
    · exact h
    · exact .pure .nil
  refine (neat_adopt t).bind fun _ _ => ?_
  refine (hif (neat_findingsAt t (neat_checkUri t)) _).bind fun _ _ => ?_
  refine (hif (neat_checkCycles t) _).bind fun _ _ => ?_
  refine (hif (neat_findingsAt t (neat_checkReference t)) _).bind fun _ _ => ?_
  exact (hif (neat_findingsAt t (neat_checkType t)) _).bind fun _ _ => .pure fun _ _ => trivial

theorem neat_importsUsedAt (t : Tree) (n : Nat) : Neatly (importsUsedAt t n) := by
  refine Neatly.bind (n := Query) (α := Option Nat) ?_ fun _ _ => .pure fun _ _ => trivial
  unfold referencedImport?
  split
  · exact (neat_resolve t n).bind fun _ _ => .pure fun _ _ => trivial
  · exact (neat_resolve t n).bind fun _ _ => .pure fun _ _ => trivial
  · exact (neat_resolve t n).bind fun _ _ => .pure fun _ _ => trivial
  · exact .pure .none

theorem neat_importKey (t : Tree) (i : Import) : Neatly (importKey t i) := by
  refine (neat_resolveModule? t i.uri).bind fun found _ => ?_
  cases found with
  | some m => exact .pure ⟨trivial, fun _ _ => trivial⟩
  | none => exact .pure ⟨trivial, fun _ _ => trivial⟩

theorem neat_distinctImports (t : Tree) (is : List Import) : Neatly (distinctImports t is) := by
  refine (Neatly.mapM fun i _ => ?_).bind fun _ _ => .pure fun _ _ => trivial
  exact (neat_importKey t i).bind fun _ hkey => .pure ⟨hkey, trivial⟩

theorem neat_tidyImports (t : Tree) : Neatly (tidyImports t) := by
  refine (neat_adopt t).bind fun _ _ => ?_
  split
  · exact .pure .none
  · have hused : Neatly (usedImports t) :=
      (Neatly.mapM fun n _ => neat_importsUsedAt t n).bind fun _ _ => .pure fun _ _ => trivial
    refine hused.bind fun used _ => ?_
    exact (neat_distinctImports t _).bind fun _ _ => .pure fun _ _ => trivial

theorem neat_superMember? (t : Tree) (n : Nat) : Neatly (superMember? t n) := by
  refine (neat_adopt t).bind fun _ _ => ?_
  split
  · exact (neat_ancestors _).bind fun _ _ => .pure fun _ _ => trivial
  · exact .pure .none

theorem isNeat_ask {s : Session} (hs : s.IsNeat) (t : Tree) (q : Question) :
    (ask t q s).2.IsNeat := by
  cases q with
  | resolve n => exact (neat_resolve t n s hs).1
  | typeOf n => exact (neat_typeOf t n s hs).1
  | check options => exact (neat_checkModule t options s hs).1
  | superMember n => exact (neat_superMember? t n s hs).1
  | tidyImports => exact (neat_tidyImports t s hs).1

/-! ## Types of nodes -/

/-- The sessions that come about by questions and by changes of the store. -/
inductive Visited : Session → Prop
  | new (W : Store) : Visited (new W)
  | change {s : Session} (hs : Visited s) (W : Store) : Visited { s with store := W }
  | ask {s : Session} (hs : Visited s) (t : Tree) (q : Question) : Visited (ask t q s).2

theorem Visited.isNeat {s : Session} (hs : Visited s) : s.IsNeat := by
  induction hs with
  | new W => exact .new W
  | change _ W ih => exact ih.of_tables rfl rfl rfl
  | ask _ t q ih => exact isNeat_ask ih t q

/-- Every subterm of the type of a node is in normal form, exactly unless it is a union with the
unknown type or equal types among its members, or the unknown type with a question mark. -/
theorem isNormalAt_iff_of_mem_typeOf {s : Session} (hs : Visited s) (t : Tree) (n : Nat) {u : Ty}
    (hu : u ∈ (typeOf t n s).1.subterms) :
    (u.isNormalAt BaseModule.types = true ↔ ¬u.IsBlurred) ∧ (u.IsBlurred → ¬u.IsDetermined) := by
  have hnear : u.isNearNormalAt BaseModule.types = true := (neat_typeOf t n s hs.isNeat).2 u hu
  exact ⟨Ty.isNormalAt_iff_not_isBlurred hnear, fun h hdetermined =>
    hdetermined (Ty.unknown_mem_subterms hnear h)⟩

/-! ## The first element of a list -/

/-- A module with a property that has the first element of a list for its value, if there is one,
and with a property that has an annotation. -/
def lister : Source.Module :=
  { bareModule "file:///w/m.pkl" with
    properties :=
      [⟨"p", none, [], some (.access (.call none "List" []) "firstOrNull" false), none, none⟩,
        ⟨"q", some (.nullable (.union [.simple "Int", .simple "String"])), [], none, none, none⟩] }

def listerTree : Tree := lister.treeAs (Store.idOf lister.uri) 1

def listerStore : Store := Store.ofSources default .none [lister]

/-- The base class says `Element?` of its property, and the list has no type argument; what the
annotation of the second property means, which is asked for next, is all known. -/
theorem typesOf_listerTree :
    (typeOf listerTree 2 (new listerStore)).1 = .nullable .unknown ∧
      ∀ u ∈ (typeOf listerTree 4 (typeOf listerTree 2 (new listerStore)).2).1.subterms,
        ¬u.IsBlurred := by
  decide +kernel

/-- The unknown type stands before a question mark in the type of the first property; all subterms
of the type of the second one, which is asked for next, are in normal form. -/
theorem isNormalAt_iff_of_mem_typeOf_lister :
    (typeOf listerTree 2 (new listerStore)).1 = .nullable .unknown ∧
      Ty.isNormalAt BaseModule.types (.nullable .unknown) = false ∧
      ∀ u ∈ (typeOf listerTree 4 (typeOf listerTree 2 (new listerStore)).2).1.subterms,
        u.isNormalAt BaseModule.types = true := by
  obtain ⟨hfirst, hsecond⟩ := typesOf_listerTree
  refine ⟨hfirst, ?_, fun u hu => ?_⟩
  · rw [Bool.eq_false_iff, ← hfirst]
    intro hnormal
    have hself := Ty.self_mem_subterms (typeOf listerTree 2 (new listerStore)).1
    have hclear := (isNormalAt_iff_of_mem_typeOf (.new listerStore) listerTree 2 hself).1.mp hnormal
    rw [hfirst] at hclear
    exact hclear rfl
  · have hasked : Visited (typeOf listerTree 2 (new listerStore)).2 :=
      .ask (.new listerStore) listerTree (.typeOf 2)
    exact (isNormalAt_iff_of_mem_typeOf hasked listerTree 4 hu).1.mpr (hsecond u hu)

/-- Not all subterms of the types of nodes are in normal form. -/
theorem not_forall_isNormalAt_of_mem_typeOf :
    ¬∀ (W : Store) (t : Tree) (n : Nat), W.tree? t.id = some t →
      ∀ u ∈ (typeOf t n (new W)).1.subterms, u.isNormalAt BaseModule.types = true := by
  intro h
  have hnormal := h listerStore listerTree 2 (by decide) _ (Ty.self_mem_subterms _)
  rw [typesOf_listerTree.1] at hnormal
  exact absurd hnormal (by decide)

end PklAnalysis.Session
