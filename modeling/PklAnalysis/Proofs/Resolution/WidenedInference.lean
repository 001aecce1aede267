import PklAnalysis.Proofs.Resolution.WidenedReferences
import PklAnalysis.Resolution.Inference

/-!
# Types over a widened store

If all trees are clear of the hidden members and identifiers are settled, each step towards the type
of a node or a declaration is the same in both stores, and so is any number of steps.
-/

namespace PklAnalysis.Widening

open Session

variable {W V : Store} {name : String} (w : Widening W V name)

theorem ty_literalType (value : Literal) : w.ty (literalType value) = literalType value := by
  cases value with
  | string text => rfl
  | int | float | boolean | null => exact w.ty_plainBase (by simp)

theorem selfType_eq {c c' : ClassDef} (hc : w.ClassLike c c') : c'.selfType = w.ty c.selfType := by
  rw [ClassDef.selfType, ClassDef.selfType, ty_class, hc.decl, hc.typeParams, paramTypes,
    paramTypes, List.map_map]
  rfl

section Trees

variable {t : Tree} (ht : Grounded W.held t)
include ht

theorem parallel_bindingType {n : Nat} {b : Binding} (hkind : t.kind? n = some (.parameter b)) :
    Parallel W V (w.Carried w.ty) (bindingType t n b)
      (bindingType (w.tree t) (w.index t n) b) := by
  rw [bindingType, bindingType]
  cases htype : b.type with
  | some a => exact w.parallel_annotation ht hkind (by simp [annotationsAt, htype])
  | none => exact .pure ⟨.unknown, rfl⟩

theorem parallel_importedType {n : Nat} {uri : String} (huri : uriAt? t n = some uri) :
    Parallel W V (w.Carried w.ty) (importedType t uri) (importedType (w.tree t) uri) := by
  refine w.parallel_carried (steady_importedType ht huri) ?_
  refine (w.parallel_resolveModule? ht huri).bind ?_
  rintro found _ ⟨hfound, rfl⟩
  cases found with
  | none => exact .pure rfl
  | some m => exact .pure (w.moduleType_tree (Store.IsPlain.mem_held hfound.of_some))

theorem hasObjectBody_tree {n : Nat} (hn : (t.kind? n).any (·.isOwner) = false) :
    hasObjectBody (w.tree t) (w.index t n) = hasObjectBody t n := by
  have hmem := Store.IsPlain.mem_held ht
  rw [hasObjectBody, hasObjectBody, (w.embeds_tree hmem).children_of_kind hn, List.any_map]
  simp only [Function.comp_def, (w.embeds_tree hmem).kind]

end Trees

theorem parallel_ownerOfDeclared? {d : Declared} (hd : Grounded W.held d) :
    Parallel W V (w.Carried (Option.map w.decl)) (ownerOfDeclared? d)
      (ownerOfDeclared? (w.declared d)) := by
  have hmodule : (w.declared d).site.module = d.site.module := w.module_site d.site
  refine w.parallel_carried (steady_ownerOfDeclared? hd) ?_
  rw [ownerOfDeclared?, ownerOfDeclared?, hmodule]
  refine (w.parallel_tree? d.site.module).bind ?_
  rintro found _ ⟨⟨hfound, rfl⟩, hid⟩
  cases found with
  | none => exact .pure rfl
  | some t =>
    have hnode : (w.declared d).site.node = w.index t d.site.node := w.node_site (hid t rfl)
    refine .pure ?_
    rw [Option.map_some, Option.bind_some, Option.bind_some, hnode]
    exact w.ownerOf?_tree (Store.IsPlain.mem_held hfound.of_some) d.site.node

/-! ## Expressions -/

section Steps

variable {w} {q q' : Typing} (hq : w.Twins q q')
include hq

theorem parallel_typeOnReceiver {receiver receiver' : Query Ty}
    (h : Parallel W V (w.Carried w.ty) receiver receiver') {d : Declared} (hd : Grounded W.held d) :
    Parallel W V (w.Carried w.ty) (typeOnReceiver q receiver d)
      (typeOnReceiver q' receiver' (w.declared d)) := by
  refine (hq.typed hd).bind ?_
  rintro declared _ ⟨hdeclared, rfl⟩
  refine (w.parallel_ownerOfDeclared? hd).bind ?_
  rintro owner _ ⟨-, rfl⟩
  cases owner with
  | none => exact .pure ⟨hdeclared.erase, (Relabelling.ty_erase declared).symm⟩
  | some owner =>
    refine h.bind ?_
    rintro type _ ⟨htype, rfl⟩
    exact w.parallel_memberTypeOn htype owner hdeclared

variable {t : Tree} (ht : Grounded W.held t) (hclear : ∀ n, w.IsClear t n)
include ht hclear

theorem parallel_referenceType (n : Nat) :
    Parallel W V (w.Carried w.ty) (referenceType q t n)
      (referenceType q' (w.tree t) (w.index t n)) := by
  refine (parallel_resolveIn hq ht hclear n).bind ?_
  rintro found _ ⟨hfound, rfl⟩
  cases found with
  | none => exact .pure ⟨.unknown, rfl⟩
  | some d => exact hq.typed hfound.of_some

theorem parallel_qualifiedType {receiver : Nat} {x : String}
    (hx : x ≠ name ∨ t.id ≠ w.module ∧
      (t.kind? receiver = some .moduleRef ∨ ∀ u ∈ W.held, ¬ u.Declares name)) (kind : MemberKind) :
    Parallel W V (w.Carried w.ty) (qualifiedType q t receiver x kind)
      (qualifiedType q' (w.tree t) (w.index t receiver) x kind) := by
  refine (parallel_afterModule? hq ht hclear hx kind).bind ?_
  rintro found _ ⟨⟨hfound, rfl⟩, hreceiver⟩
  cases found with
  | some found =>
    cases found with
    | none => exact .pure ⟨.unknown, rfl⟩
    | some d => exact parallel_typeOnReceiver hq (hq.infer ht receiver) hfound.of_some.of_some
  | none =>
    have hx' : x ≠ name ∨ t.id ≠ w.module ∧ ∀ u ∈ W.held, ¬ u.Declares name :=
      hx.imp_right fun h => ⟨h.1, h.2.resolve_left (hreceiver rfl)⟩
    refine (hq.infer ht receiver).bind ?_
    rintro type _ ⟨htype, rfl⟩
    refine (w.parallel_onReceiver? htype hx' kind).bind ?_
    rintro found _ ⟨hfound, rfl⟩
    cases found with
    | none => exact .pure ⟨.unknown, rfl⟩
    | some d => exact parallel_typeOnReceiver hq (.pure ⟨htype, rfl⟩) hfound.of_some

theorem parallel_accessType {n : Nat} {k : NodeKind} (hkind : t.kind? n = some k)
    (hqualified : k.isQualified = true) {x : String} (hx : k.sought? = some x) (kind : MemberKind) :
    Parallel W V (w.Carried w.ty) (accessType q t n x kind)
      (accessType q' (w.tree t) (w.index t n) x kind) := by
  have howner : (t.kind? n).any (·.isOwner) = false := by
    rw [hkind]
    cases k with
    | access | call => rfl
    | _ => exact absurd hqualified Bool.false_ne_true
  rw [accessType, accessType,
    (w.embeds_tree (Store.IsPlain.mem_held ht)).child?_of_kind howner]
  cases hreceiver : t.child? n 0 with
  | none => exact .pure ⟨.unknown, rfl⟩
  | some receiver =>
    have hx' := (hclear n).qualified hkind hqualified hx hreceiver
    exact parallel_qualifiedType hq ht hclear hx' kind

theorem parallel_thisTypeIn (scopes : List Nat) :
    Parallel W V (w.Carried w.ty) (thisTypeIn q t scopes)
      (thisTypeIn q' (w.tree t) (scopes.map (w.index t))) := by
  have hmem := Store.IsPlain.mem_held ht
  induction scopes with
  | nil => exact .pure ⟨ht.moduleType, w.moduleType_tree hmem⟩
  | cons scope scopes ih =>
    rw [List.map_cons, thisTypeIn, thisTypeIn, (w.embeds_tree hmem).kind]
    cases hscope : t.kind? scope with
    | none => exact ih
    | some k =>
      cases k with
      | objectBody => exact parallel_objectType hq ht hclear scope
      | «class» h =>
        simp only [w.declOf?_tree hmem]
        cases hd : declOf? t scope with
        | none => exact .pure ⟨.unknown, rfl⟩
        | some d =>
          refine (w.parallel_classDef (ht.declOf? scope d hd)).bind ?_
          rintro c c' ⟨hc, -⟩
          cases hc with
          | none => exact .pure ⟨.unknown, rfl⟩
          | some hc => exact .pure ⟨grounded_selfType hc.grounded, w.selfType_eq hc⟩
      | _ => exact ih

omit hclear in
theorem parallel_lambdaParts (ns : List Nat) :
    Parallel W V (w.Carried (Prod.map (List.map w.ty) (Option.map w.ty))) (lambdaParts q t ns)
      (lambdaParts q' (w.tree t) (ns.map (w.index t))) := by
  induction ns with
  | nil => exact .pure ⟨⟨.nil, .none⟩, rfl⟩
  | cons n ns ih =>
    refine w.parallel_carried (steady_lambdaParts hq.steady ht (n :: ns)) ?_
    have hbody : Parallel W V (fun a b => b = Prod.map (List.map w.ty) (Option.map w.ty) a)
        (q.infer t n >>= fun body => lambdaParts q t ns >>= fun parts =>
          pure (parts.1, parts.2.or (some body)))
        (q'.infer (w.tree t) (w.index t n) >>= fun body =>
          lambdaParts q' (w.tree t) (ns.map (w.index t)) >>= fun parts =>
            pure (parts.1, parts.2.or (some body))) := by
      refine (hq.infer ht n).bind ?_
      rintro body _ ⟨-, rfl⟩
      refine ih.bind ?_
      rintro ⟨params, result⟩ _ ⟨-, rfl⟩
      cases result <;> exact .pure rfl
    rw [List.map_cons, lambdaParts, lambdaParts, (w.embeds_tree (Store.IsPlain.mem_held ht)).kind]
    cases hkind : t.kind? n with
    | none => exact hbody
    | some k =>
      cases k with
      | parameter b =>
        refine (w.parallel_bindingType ht hkind).bind ?_
        rintro param _ ⟨-, rfl⟩
        refine ih.bind ?_
        rintro ⟨params, result⟩ _ ⟨-, rfl⟩
        exact .pure rfl
      | _ => exact hbody

omit hclear in
theorem parallel_elementType? (member : Nat) :
    Parallel W V (w.Carried (Option.map w.ty)) (elementType? q t member)
      (elementType? q' (w.tree t) (w.index t member)) := by
  refine w.parallel_carried (steady_elementType? hq.steady ht member) ?_
  rw [elementType?, elementType?]
  cases hp : t.parent? member with
  | none =>
    rw [(w.embeds_tree (Store.IsPlain.mem_held ht)).parent?_none hp]
    exact .pure rfl
  | some p =>
    obtain ⟨p', hp', hval⟩ := (w.embeds_tree (Store.IsPlain.mem_held ht)).parent?_some hp
    simp only [hp', hval]
    refine (hq.infer ht p).bind ?_
    rintro type _ ⟨htype, rfl⟩
    refine (w.parallel_elementTypes? htype).bind ?_
    rintro types _ ⟨-, rfl⟩
    cases types <;> exact .pure rfl

theorem parallel_placeType? (n : Nat) :
    Parallel W V (w.Carried (Option.map w.ty)) (placeType? q t n)
      (placeType? q' (w.tree t) (w.index t n)) := by
  have hmem := Store.IsPlain.mem_held ht
  rw [placeType?, placeType?]
  cases hp : t.parent? n with
  | none =>
    rw [(w.embeds_tree hmem).parent?_none hp]
    exact .pure ⟨.none, rfl⟩
  | some p =>
    obtain ⟨p', hp', hval⟩ := (w.embeds_tree hmem).parent?_some hp
    have hannotated : ∀ {k : NodeKind} {a : TypeExpr}, t.kind? p = some k → a ∈ annotationsAt k →
        Parallel W V (w.Carried (Option.map w.ty)) (some <$> resolveType t p a)
          (some <$> resolveType (w.tree t) (w.index t p) a) := by
      intro k a hkind ha
      refine (w.parallel_annotation ht hkind ha).map ?_
      rintro type _ ⟨htype, rfl⟩
      exact ⟨htype.some, rfl⟩
    simp only [hp', hval, (w.embeds_tree hmem).kind]
    cases hkind : t.kind? p with
    | none => exact .pure ⟨.none, rfl⟩
    | some k =>
      cases k with
      | property h =>
        exact w.parallel_declaredPropertyType? ht fun h' hkind' htype =>
          (hclear p).property hkind' htype
      | objectProperty b =>
        simp only
        cases htype : b.type with
        | some a => exact hannotated hkind (by simp [annotationsAt, htype])
        | none =>
          exact parallel_objectMemberType? hq ht hclear p ((hclear p).objectProperty hkind htype)
      | letIn b =>
        simp only
        cases htype : b.type with
        | some a => exact hannotated hkind (by simp [annotationsAt, htype])
        | none => exact Parallel.pure (n := Query) ⟨.none, rfl⟩
      | objectElement => exact parallel_elementType? hq ht p
      | objectEntry =>
        have hchild : (w.tree t).child? (w.index t p) 1 = some (w.index t n) ↔
            t.child? p 1 = some n := by
          rw [(w.embeds_tree hmem).child?_of_kind (by rw [hkind]; rfl), Option.map_eq_some_iff]
          simp
        simp only [hchild]
        split
        · exact parallel_elementType? hq ht p
        · exact .pure ⟨.none, rfl⟩
      | _ => exact .pure ⟨.none, rfl⟩

theorem parallel_expectedType (n : Nat) :
    Parallel W V (w.Carried w.ty) (expectedType q t n)
      (expectedType q' (w.tree t) (w.index t n)) := by
  refine w.parallel_carried (steady_expectedType hq.steady ht n) ?_
  refine (parallel_placeType? hq ht hclear n).bind ?_
  rintro type _ ⟨-, rfl⟩
  cases type with
  | none => exact .pure w.ty_dynamicType.symm
  | some type =>
    rw [Option.map_some, Option.map_some, Option.map_some, ty_nonNull]
    cases nonNull type with
    | unknown => exact .pure w.ty_dynamicType.symm
    | _ => exact .pure rfl

/-- One step towards the type of a node. -/
theorem parallel_inferNode {n : Nat} {kind : NodeKind} (hkind : t.kind? n = some kind) :
    Parallel W V (w.Carried w.ty) (inferNode q t n kind)
      (inferNode q' (w.tree t) (w.index t n) kind) := by
  have hmem := Store.IsPlain.mem_held ht
  have hchild (i : Nat) (howner : kind.isOwner = false) :
      (w.tree t).child? (w.index t n) i = (t.child? n i).map (w.index t) :=
    (w.embeds_tree hmem).child?_of_kind (by rw [hkind]; exact howner) i
  have hchildren (howner : kind.isOwner = false) :
      (w.tree t).children (w.index t n) = (t.children n).map (w.index t) :=
    (w.embeds_tree hmem).children_of_kind (by rw [hkind]; exact howner)
  have hdeclared (declared : DeclarationKind) (x : String) :
      Parallel W V (w.Carried w.ty) (q.typed (Declared.atNode t n declared x))
        (q'.typed (Declared.atNode (w.tree t) (w.index t n) declared x)) :=
    w.declared_atNode t n declared x ▸ hq.typed (ht.atNode n declared x)
  cases kind with
  | literal value => exact .pure ⟨grounded_literalType value, (w.ty_literalType value).symm⟩
  | ident x => exact parallel_referenceType hq ht hclear n
  | access x nullSafe =>
    refine (parallel_accessType hq ht hclear hkind rfl rfl .property).bind ?_
    rintro type _ ⟨htype, rfl⟩
    cases nullSafe with
    | true => exact .pure ⟨htype.orNull, (Relabelling.ty_orNull w.base_decls type).symm⟩
    | false => exact .pure ⟨htype, rfl⟩
  | call x hasReceiver =>
    cases hasReceiver with
    | true => exact parallel_accessType hq ht hclear hkind rfl rfl .method
    | false => exact parallel_referenceType hq ht hclear n
  | this =>
    rw [inferNode, inferNode, (w.embeds_tree hmem).ancestors_eq]
    exact parallel_thisTypeIn hq ht hclear _
  | moduleRef | module => exact .pure ⟨ht.moduleType, w.moduleType_tree hmem⟩
  | letIn b =>
    simp only [inferNode, hchild 1 rfl]
    cases t.child? n 1 with
    | none => exact .pure ⟨.unknown, rfl⟩
    | some body => exact hq.infer ht body
  | lambda =>
    rw [inferNode, inferNode, hchildren rfl]
    refine (parallel_lambdaParts hq ht (t.children n)).bind ?_
    rintro ⟨params, result⟩ _ ⟨⟨hparams, hresult⟩, rfl⟩
    refine .pure ⟨Grounded.function_iff.mpr ⟨hparams, hresult.getD .unknown⟩, ?_⟩
    cases result with
    | none => exact (w.ty_function params .unknown).symm
    | some result => exact (w.ty_function params result).symm
  | new type =>
    cases type with
    | some a => exact w.parallel_annotation ht hkind (by simp [annotationsAt])
    | none => exact parallel_expectedType hq ht hclear n
  | amend =>
    simp only [inferNode, hchild 0 rfl]
    cases t.child? n 0 with
    | none => exact .pure ⟨.unknown, rfl⟩
    | some parent => exact hq.infer ht parent
  | conditional =>
    rw [inferNode, inferNode, hchildren rfl, ← List.map_drop]
    have hbranches : List.Forall₂ (fun c c' => c' = w.index t c) ((t.children n).drop 1)
        (((t.children n).drop 1).map (w.index t)) :=
      List.forall₂_map_right_iff.mpr (List.forall₂_same.mpr fun _ _ => rfl)
    refine (Parallel.mapM hbranches (P := w.Carried w.ty) ?_).bind ?_
    · rintro c _ rfl
      exact hq.infer ht c
    · intro types types' htypes
      obtain ⟨hground, rfl⟩ := Carried.of_forall₂ htypes
      exact .pure ⟨hground.unionOf, (Relabelling.ty_unionOf w.base_decls types).symm⟩
  | importExpr i | importClause i => exact w.parallel_importedType ht (by rw [uriAt?, hkind])
  | objectBody => exact parallel_objectType hq ht hclear n
  | property h => exact hdeclared .property h.name
  | method h => exact hdeclared .method h.name
  | parameter b => exact hdeclared .parameter b.name
  | objectProperty b => exact hdeclared .objectProperty b.name
  | _ => exact .pure ⟨.unknown, rfl⟩

/-! ## Declarations -/

omit hclear in
theorem parallel_valueType? (n : Nat) :
    Parallel W V (w.Carried (Option.map w.ty)) (valueType? q t n)
      (valueType? q' (w.tree t) (w.index t n)) := by
  rw [valueType?, valueType?, (w.embeds_tree (Store.IsPlain.mem_held ht)).value?_eq]
  cases t.value? n with
  | none => exact Parallel.pure (n := Query) ⟨.none, rfl⟩
  | some c =>
    refine (hq.infer ht c).map ?_
    rintro type _ ⟨htype, rfl⟩
    exact ⟨htype.some, rfl⟩

theorem parallel_propertyType {n : Nat} {h : PropertyHeader}
    (hkind : t.kind? n = some (.property h)) :
    Parallel W V (w.Carried w.ty) (propertyType q t n)
      (propertyType q' (w.tree t) (w.index t n)) := by
  rw [propertyType, propertyType, w.hasObjectBody_tree ht (by rw [hkind]; rfl)]
  refine (w.parallel_declaredPropertyType? ht fun h' hkind' htype =>
    (hclear n).property hkind' htype).bind ?_
  rintro type _ ⟨htype, rfl⟩
  cases type with
  | some type => exact .pure ⟨htype.of_some, rfl⟩
  | none =>
    refine (parallel_valueType? hq ht n).bind ?_
    rintro type _ ⟨htype, rfl⟩
    cases type with
    | some type => exact .pure ⟨htype.of_some, rfl⟩
    | none =>
      refine .pure ?_
      split
      · exact ⟨grounded_dynamicType, w.ty_dynamicType.symm⟩
      · exact ⟨.unknown, rfl⟩

theorem parallel_objectPropertyType (n : Nat) {x : String} (hx : x ≠ name) :
    Parallel W V (w.Carried w.ty) (objectPropertyType q t n x)
      (objectPropertyType q' (w.tree t) (w.index t n) x) := by
  refine (parallel_valueType? hq ht n).bind ?_
  rintro type _ ⟨htype, rfl⟩
  cases type with
  | some type => exact .pure ⟨htype.of_some, rfl⟩
  | none =>
    refine (parallel_objectMemberType? hq ht hclear n hx).bind ?_
    rintro type _ ⟨htype, rfl⟩
    cases type with
    | none => exact .pure ⟨grounded_dynamicType, w.ty_dynamicType.symm⟩
    | some type => exact .pure ⟨htype.of_some, rfl⟩

omit hclear in
theorem parallel_generatorType {n : Nat} (hn : (t.kind? n).any (·.isOwner) = false) (isKey : Bool) :
    Parallel W V (w.Carried w.ty) (generatorType q t n isKey)
      (generatorType q' (w.tree t) (w.index t n) isKey) := by
  rw [generatorType, generatorType, (w.embeds_tree (Store.IsPlain.mem_held ht)).child?_of_kind hn]
  cases t.child? n 0 with
  | none => exact .pure ⟨.unknown, rfl⟩
  | some iterable =>
    refine (hq.infer ht iterable).bind ?_
    rintro type _ ⟨htype, rfl⟩
    refine (w.parallel_elementTypes? htype).bind ?_
    rintro types _ ⟨htypes, rfl⟩
    cases types with
    | none => exact .pure ⟨.unknown, rfl⟩
    | some types =>
      cases isKey with
      | true => exact .pure ⟨htypes.of_some.1, rfl⟩
      | false => exact .pure ⟨htypes.of_some.2, rfl⟩

/-- One step towards the type of what a node declares under a name. -/
theorem parallel_nodeType {n : Nat} (x : String) {kind : NodeKind}
    (hkind : t.kind? n = some kind) :
    Parallel W V (w.Carried w.ty) (nodeType q t n x kind)
      (nodeType q' (w.tree t) (w.index t n) x kind) := by
  have hmem := Store.IsPlain.mem_held ht
  cases kind with
  | property h => exact parallel_propertyType hq ht hclear hkind
  | objectProperty b =>
    simp only [nodeType]
    cases htype : b.type with
    | some a => exact w.parallel_annotation ht hkind (by simp [annotationsAt, htype])
    | none =>
      exact parallel_objectPropertyType hq ht hclear n ((hclear n).objectProperty hkind htype)
  | method h =>
    simp only [nodeType]
    cases hreturns : h.returns with
    | some a => exact w.parallel_annotation ht hkind (by simp [annotationsAt, hreturns])
    | none =>
      refine (parallel_valueType? hq ht n).bind ?_
      rintro type _ ⟨htype, rfl⟩
      cases type with
      | none => exact .pure ⟨.unknown, rfl⟩
      | some type => exact .pure ⟨htype.of_some, rfl⟩
  | parameter b => exact w.parallel_bindingType ht hkind
  | letIn b =>
    simp only [nodeType, (w.embeds_tree hmem).child?_of_kind (by rw [hkind]; rfl)]
    cases htype : b.type with
    | some a => exact w.parallel_annotation ht hkind (by simp [annotationsAt, htype])
    | none =>
      cases t.child? n 0 with
      | none => exact .pure ⟨.unknown, rfl⟩
      | some value => exact hq.infer ht value
  | generator key value => exact parallel_generatorType hq ht (by rw [hkind]; rfl) _
  | importClause i => exact w.parallel_importedType ht (by rw [uriAt?, hkind])
  | module => exact .pure ⟨ht.moduleType, w.moduleType_tree hmem⟩
  | _ => exact .pure ⟨.unknown, rfl⟩

end Steps

section Declarations

variable {w} (hclear : ∀ t ∈ W.held, ∀ n, w.IsClear t n)
include hclear

theorem parallel_declarationType {q q' : Typing} (hq : w.Twins q q') {d : Declared} :
    Parallel W V (w.Carried w.ty) (declarationType q d) (declarationType q' (w.declared d)) := by
  have hmodule : (w.declared d).site.module = d.site.module := w.module_site d.site
  rw [declarationType, declarationType, hmodule]
  refine (w.parallel_tree? d.site.module).bind ?_
  rintro found _ ⟨⟨hfound, rfl⟩, hid⟩
  cases found with
  | none => exact .pure ⟨.unknown, rfl⟩
  | some t =>
    have ht := hfound.of_some
    have hmem := Store.IsPlain.mem_held ht
    have hnode : (w.declared d).site.node = w.index t d.site.node := w.node_site (hid t rfl)
    have hname : (w.declared d).name = d.name := rfl
    simp only [Option.map_some, hnode, hname, (w.embeds_tree hmem).kind]
    cases hkind : t.kind? d.site.node with
    | none => exact .pure ⟨.unknown, rfl⟩
    | some kind => exact parallel_nodeType hq ht (hclear t hmem) d.name hkind

/-! ## All steps -/

variable (hsettled : ∀ (depth : Nat) (inProgress : List Site) {t : Tree}, t ∈ W.held →
  w.IsSettled (typingWithin depth inProgress) t)
include hsettled

theorem twins_typingWithin (depth : Nat) (inProgress : List Site) :
    w.Twins (typingWithin depth inProgress) (typingWithin depth (inProgress.map w.site)) := by
  induction depth generalizing inProgress with
  | zero => exact ⟨isSteady_typingWithin 0 _, hsettled 0 _, fun _ _ => .pure ⟨.unknown, rfl⟩,
      fun _ => .pure ⟨.unknown, rfl⟩⟩
  | succ depth ih =>
    refine ⟨isSteady_typingWithin (depth + 1) inProgress, hsettled (depth + 1) _,
      fun {t} ht n => ?_, fun {d} hd => ?_⟩
    · have hmem := Store.IsPlain.mem_held ht
      unfold typingWithin
      simp only [(w.embeds_tree hmem).kind]
      cases hkind : t.kind? n with
      | none => exact .pure ⟨.unknown, rfl⟩
      | some kind => exact parallel_inferNode (ih inProgress) ht (hclear t hmem) hkind
    · -- a declaration is in progress in one store if its counterpart is in the other one
      have hsite : (w.declared d).site = w.site d.site := rfl
      unfold typingWithin
      simp only [hsite, w.contains_map_site]
      split
      · exact .pure ⟨.unknown, rfl⟩
      · exact parallel_declarationType hclear (ih (d.site :: inProgress))

theorem twins_typing : w.Twins typing typing :=
  twins_typingWithin hclear hsettled maxTypingDepth []

end Declarations

/-! ## Questions -/

/-- What a reference resolves to in a new session. -/
theorem resolve_eq {t : Tree} (ht : t ∈ W.held) {n : Nat}
    (hn : Parallel W V (w.Carried (Option.map w.declared)) (resolveIn typing t n)
      (resolveIn typing (w.tree t) (w.index t n))) :
    (resolve (w.tree t) (w.index t n) (new V)).1 =
      ((resolve t n (new W)).1).map w.declared := by
  have hground : Grounded W.held t := w.plain.grounded_of_mem ht
  have hadopt : Parallel (n := Query) W V (fun _ _ => True) (adopt t) (adopt (w.tree t)) :=
    ⟨_, _, .of_steady w.plain (steady_adopt hground),
      .of_steady w.plain' (steady_adopt (w.grounded_tree hground)), trivial⟩
  have hresolve : Parallel W V (w.Carried (Option.map w.declared)) (resolve t n)
      (resolve (w.tree t) (w.index t n)) := hadopt.bind fun _ _ _ => hn
  obtain ⟨found, found', hfound, hfound', -, rfl⟩ := hresolve
  rw [hfound.eq_new w.plain, hfound'.eq_new w.plain']

end PklAnalysis.Widening
