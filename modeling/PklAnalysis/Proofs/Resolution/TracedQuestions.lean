import PklAnalysis.Proofs.Resolution.Lookups
import PklAnalysis.Proofs.Resolution.Memoization

/-!
# The lookups of questions

Relations between types, scopes, inference and checks are put together from lookups, definitions and
remembered answers.  So the lookups of every question about a tree can be told, and the first of
them is that by which the tree is adopted.
-/

namespace PklAnalysis.Session

variable (t : Tree)

/-! ## Subtyping and common subtypes -/

section Steps

variable {n : Type → Type} [Monad n] [MonadLiftT Query n] [TracedMonad n]
variable {t} {sub common : Ty → Ty → n Bool} (hsub : ∀ a b, Traced t (sub a b))
include hsub

theorem traced_argsSubtype (c : Option ClassDef) (ours theirs : List Ty) :
    Traced t (TypeEnv.argsSubtype sub c ours theirs) := by
  refine .allM (fun i => ?_) _
  simp only
  split
  · exact hsub _ _
  · exact hsub _ _
  · exact .and (hsub _ _) (hsub _ _)

theorem traced_subtypeStep (a b : Ty) : Traced t (env.subtypeStep sub a b) := by
  unfold TypeEnv.subtypeStep
  split
  · exact (Traced.lift ((traced_lookups t).expand _)).bind fun a => hsub a b
  · exact (Traced.lift ((traced_lookups t).expand _)).bind fun b => hsub a b
  · exact .allM (fun a => hsub a b) _
  · exact .and (hsub _ _) (hsub _ _)
  · exact .anyM (fun b => hsub a b) _
  · split
    · exact .pure true
    · exact hsub _ _
  · exact .pure false
  · exact hsub _ _
  · exact .pure false
  · split
    · exact .and (.allM (fun p => hsub _ _) _) (hsub _ _)
    · exact .pure false
  · exact hsub _ _
  · split
    · exact .pure false
    · refine (Traced.lift ((traced_lookups t).asSupertype? _ _)).bind fun view => ?_
      cases view with
      | none => exact .pure false
      | some args => exact .and (.allM (fun p => hsub _ _) _) (hsub _ _)
  · refine (Traced.lift ((traced_lookups t).asSupertype? _ _)).bind fun view => ?_
    cases view with
    | none => exact .pure false
    | some view =>
      exact (Traced.lift ((traced_lookups t).classDef _)).bind fun c =>
        traced_argsSubtype hsub c view _
  · exact .pure false

variable (hcommon : ∀ a b, Traced t (common a b))
include hcommon

theorem traced_argsCommon (c : Option ClassDef) (ours theirs : List Ty) :
    Traced t (TypeEnv.argsCommon sub common c ours theirs) := by
  refine .allM (fun i => ?_) _
  simp only
  split
  · exact hcommon _ _
  · exact .pure true
  · exact .and (hsub _ _) (hsub _ _)

theorem traced_commonStep (a b : Ty) : Traced t (env.commonStep sub common a b) := by
  unfold TypeEnv.commonStep
  split
  · exact (Traced.lift ((traced_lookups t).expand _)).bind fun a => hcommon a b
  · exact (Traced.lift ((traced_lookups t).expand _)).bind fun b => hcommon a b
  · exact .anyM (fun a => hcommon a b) _
  · exact .anyM (fun b => hcommon a b) _
  · exact .pure true
  · exact .or (hcommon _ _) (hsub _ _)
  · exact .or (hcommon _ _) (hsub _ _)
  · exact hsub _ _
  · exact hsub _ _
  · split
    · exact hcommon _ _
    · exact .pure false
  · exact hcommon _ _
  · exact hcommon _ _
  · refine (Traced.lift ((traced_lookups t).asSupertype? _ _)).bind fun view => ?_
    cases view with
    | some view =>
      exact (Traced.lift ((traced_lookups t).classDef _)).bind fun c =>
        traced_argsCommon hsub hcommon c view _
    | none =>
      refine (Traced.lift ((traced_lookups t).asSupertype? _ _)).bind fun view => ?_
      cases view with
      | none => exact .pure false
      | some view =>
        exact (Traced.lift ((traced_lookups t).classDef _)).bind fun c =>
          traced_argsCommon hsub hcommon c _ view
  · exact .pure false

end Steps

theorem traced_subtypeWithin (depth : Nat) (a b : Ty) :
    Traced t (env.subtypeWithin depth a b) := by
  induction depth generalizing a b with
  | zero =>
    unfold TypeEnv.subtypeWithin
    cases subtypeShortcut a b <;> exact .pure _
  | succ depth ih =>
    have hget : Traced t (get : StateT Pending Query Pending) := fun p => .pure (p, p)
    have hmodify (f : Pending → Pending) :
        Traced t (modify f : StateT Pending Query PUnit) := fun p => .pure (PUnit.unit, f p)
    unfold TypeEnv.subtypeWithin
    cases subtypeShortcut a b with
    | holds => exact .pure true
    | fails => exact .pure false
    | «open» =>
      refine hget.bind fun pending => ?_
      split
      · exact .pure true
      · refine (hmodify _).bind fun _ => ?_
        exact (traced_subtypeStep ih a b).bind fun answer =>
          (hmodify _).bind fun _ => .pure answer

theorem traced_commonWithin (depth : Nat) (a b : Ty) :
    Traced t (env.commonWithin depth a b) := by
  induction depth generalizing a b with
  | zero =>
    unfold TypeEnv.commonWithin
    cases commonShortcut a b <;> exact .pure _
  | succ depth ih =>
    unfold TypeEnv.commonWithin
    cases commonShortcut a b with
    | holds => exact .pure true
    | fails => exact .pure false
    | «open» => exact traced_commonStep (traced_subtypeWithin t depth) ih a b

theorem traced_haveCommonSubtype (a b : Ty) : Traced t (env.haveCommonSubtype a b) :=
  (traced_commonWithin t _ a b).run' []

/-! ## Members of values -/

theorem traced_receiverClassesWithin (depth : Nat) (a : Ty) :
    Traced t (receiverClassesWithin depth a) := by
  unfold receiverClassesWithin
  refine (Traced.lift ((traced_lookups t).expand a)).bind fun a => ?_
  split
  · exact .pure _
  · exact .pure _
  · split <;> exact .pure _
  · cases depth with
    | zero => exact .failure
    | succ depth => exact (traced_receiverClassesWithin depth _).bind fun ds => .pure _
  · cases depth with
    | zero => exact .failure
    | succ depth =>
      exact (Traced.mapM (traced_receiverClassesWithin depth) _).bind fun dss => .pure _
  all_goals exact .pure _
termination_by depth

theorem traced_ownerArgsWithin (owner : DeclRef) (depth : Nat) (a : Ty) :
    Traced t (ownerArgsWithin owner depth a) := by
  unfold ownerArgsWithin
  refine (Traced.lift ((traced_lookups t).expand a)).bind fun a => ?_
  split
  · exact .lift ((traced_lookups t).asSupertype? _ owner)
  · exact .lift ((traced_lookups t).asSupertype? _ owner)
  · cases depth with
    | zero => exact .failure
    | succ depth => exact traced_ownerArgsWithin owner depth _
  · cases depth with
    | zero => exact .failure
    | succ depth => exact .firstAnswer (traced_ownerArgsWithin owner depth) _
  all_goals exact .pure _
termination_by depth

theorem traced_isOpenTypeWithin (depth : Nat) (a : Ty) :
    Traced t (isOpenTypeWithin depth a) := by
  unfold isOpenTypeWithin
  refine (Traced.lift ((traced_lookups t).expand a)).bind fun a => ?_
  split
  · exact .pure _
  · exact .pure _
  · split
    · exact .pure _
    · exact .lift (traced_hasUnknownAncestor t _)
  · cases depth with
    | zero => exact .failure
    | succ depth => exact traced_isOpenTypeWithin depth _
  · cases depth with
    | zero => exact .failure
    | succ depth => exact .anyM (traced_isOpenTypeWithin depth) _
  all_goals exact .pure _
termination_by depth

theorem traced_memberOfType? (a : Ty) (name : String) (kind : MemberKind) :
    Traced t (memberOfType? a name kind) := by
  rw [memberOfType?, receiverClasses, bounded_atDepth]
  refine Traced.bind (n := Query)
    ((traced_receiverClassesWithin t _ a).run.bind fun ds => .pure _) fun ds => ?_
  exact .firstAnswer (fun d => traced_memberOfClass? t d name kind) ds

theorem traced_memberTypeOn (receiver : Ty) (owner : DeclRef) (declared : Ty) :
    Traced t (memberTypeOn receiver owner declared) := by
  rw [memberTypeOn, ownerArgs?, bounded_atDepth]
  refine Traced.bind (n := Query)
    ((traced_ownerArgsWithin t owner _ receiver).run.bind fun args => .pure _) fun args => ?_
  cases args <;> exact .pure _

theorem traced_isOpenType (a : Ty) : Traced t (isOpenType a) := by
  rw [isOpenType, bounded_atDepth]
  exact (traced_isOpenTypeWithin t _ a).run.bind fun _ => .pure _

theorem traced_elementTypes? (a : Ty) : Traced t (elementTypes? a) := by
  refine .firstAnswer (fun e => ?_) _
  exact ((traced_lookups t).asSupertype? a e.1).bind fun args => .pure _

/-! ## Annotations of properties -/

theorem traced_inheritedType? (name : String) (c : ClassDef) :
    Traced t (inheritedType? name c) := by
  unfold inheritedType?
  split
  · exact .pure none
  · refine ((traced_lookups t).byId _).bind fun found => ?_
    cases found with
    | none => exact .pure none
    | some m =>
      simp only
      split
      · exact .optionMapM ((traced_lookups t).resolveType m _) _
      · exact .pure none

theorem traced_declaredPropertyType? (m : Tree) (n : Nat) :
    Traced t (declaredPropertyType? m n) := by
  unfold declaredPropertyType?
  split
  · split
    · exact ((traced_lookups t).resolveType m n _).map some
    · split
      · exact .pure none
      · exact (traced_ancestors t _).bind fun chain => .firstAnswer (traced_inheritedType? t _) _
  · exact .pure none

/-! ## What names mean -/

theorem traced_declaredMember? (d : DeclRef) (name : String) (kind : MemberKind) :
    Traced t (declaredMember? d name kind) :=
  (traced_memberOfClass? t d name kind).bind fun _ => .pure _

theorem traced_inModule? (m : Tree) (name : String) (kind : MemberKind) :
    Traced t (inModule? m name kind) := by
  unfold inModule?
  refine (traced_declaredMember? t (moduleDecl m) name kind).bind fun found => ?_
  cases found with
  | some found => exact .pure _
  | none =>
    simp only
    split
    · exact .pure none
    · exact .pure _
    · exact ((traced_lookups t).supermodules m).bind fun _ => .pure _

theorem traced_topLevel? (m : Tree) (name : String) (kind : MemberKind) :
    Traced t (topLevel? m name kind) := by
  unfold topLevel?
  simp only
  split
  · exact .pure _
  · exact (traced_memberOfClass? t (moduleDecl m) name kind).bind fun _ => .pure _

theorem traced_inImported? (importer : Tree) (uri name : String) (kind : MemberKind) :
    Traced t (inImported? importer uri name kind) := by
  refine ((traced_lookups t).resolveModule? importer uri).bind fun found => ?_
  cases found with
  | some m => exact traced_topLevel? t m name kind
  | none => exact .pure none

theorem traced_onReceiver? (m : Tree) (receiver : Ty) (name : String) (kind : MemberKind) :
    Traced t (onReceiver? m receiver name kind) :=
  (traced_memberOfType? t receiver name kind).bind fun _ => .pure _

theorem traced_afterImport? (d : Declared) (name : String) (kind : MemberKind) :
    Traced t (afterImport? d name kind) := by
  refine ((traced_lookups t).byId d.site.module).bind fun found => ?_
  cases found with
  | none => exact .pure none
  | some importer =>
    simp only
    split
    · exact traced_inImported? t importer _ name kind
    · exact .pure none

theorem traced_moduleDeclared? (importer : Tree) (uri : String) :
    Traced t (moduleDeclared? importer uri) :=
  ((traced_lookups t).resolveModule? importer uri).bind fun _ => .pure _

theorem traced_bindingType (m : Tree) (n : Nat) (b : Binding) : Traced t (bindingType m n b) := by
  unfold bindingType
  split
  · exact (traced_lookups t).resolveType m n _
  · exact .pure _

theorem traced_importedType (m : Tree) (uri : String) : Traced t (importedType m uri) :=
  ((traced_lookups t).resolveModule? m uri).bind fun _ => .pure _

end Session

open Session

/-- The lookups of the types that a typing gives can be told. -/
structure Typing.IsTraced (t : Tree) (q : Typing) : Prop where
  infer : ∀ m n, Traced t (q.infer m n)
  typed : ∀ d, Traced t (q.typed d)

namespace Session

section Typings

variable {t : Tree} {q : Typing} (hq : q.IsTraced t)
include hq

/-! ## Scopes -/

theorem traced_propertyOn? (receiver : Ty) (name : String) :
    Traced t (propertyOn? q receiver name) := by
  refine (traced_memberOfType? t receiver name .property).bind fun m => ?_
  cases m with
  | none => exact .pure none
  | some m =>
    exact (hq.typed _).bind fun declared =>
      (traced_memberTypeOn t receiver m.owner declared).bind fun type => .pure _

theorem traced_objectType (m : Tree) (body : Nat) : Traced t (objectType q m body) := by
  have hpick (declared : Option Ty) :
      Traced t (pure ((declared.map nonNull).getD dynamicType) : Query Ty) := .pure _
  induction body using Nat.strongRecOn with
  | ind body ih =>
    unfold objectType
    split
    · exact .pure _
    · next p _ =>
      split
      · exact hq.infer m _
      · exact hq.infer m _
      · exact (traced_declaredPropertyType? t m _).bind hpick
      · simp only
        split
        · exact (((traced_lookups t).resolveType m _ _).map some).bind hpick
        · split
          · exact (Traced.pure none).bind hpick
          · next outer _ =>
            have hbefore : outer.val < body := Nat.lt_trans outer.isLt p.isLt
            exact (ih outer hbefore).bind fun type => (traced_propertyOn? hq type _).bind hpick
      · split
        · exact .pure _
        · exact hq.infer m _
      · split
        · exact .pure _
        · exact hq.infer m _
      · exact .pure _

theorem traced_objectMemberType? (m : Tree) (member : Nat) (name : String) :
    Traced t (objectMemberType? q m member name) := by
  unfold objectMemberType?
  split
  · exact .pure none
  · exact (traced_objectType hq m _).bind fun type => traced_propertyOn? hq type name

theorem traced_inObject? (m : Tree) (body : Nat) (name : String) (kind : MemberKind) :
    Traced t (inObject? q m body name kind) := by
  unfold inObject?
  simp only
  split
  · exact .pure _
  · exact (traced_objectType hq m body).bind fun type =>
      (traced_memberOfType? t type name _).bind fun _ => .pure _

theorem traced_inScope? (m : Tree) (scope child : Nat) (name : String) (kind : MemberKind) :
    Traced t (inScope? q m scope child name kind) := by
  unfold inScope?
  split
  · exact .pure _
  · exact .pure _
  · exact .pure _
  · exact .pure _
  · exact traced_inObject? hq m scope name _
  · split
    · exact traced_declaredMember? t _ name _
    · exact .pure none
  · exact .pure none

theorem traced_inScopes? (m : Tree) (name : String) (kind : MemberKind) (child : Nat)
    (scopes : List Nat) : Traced t (inScopes? q m name kind child scopes) := by
  induction scopes generalizing child with
  | nil => exact .pure none
  | cons scope scopes ih =>
    refine (traced_inScope? hq m scope child name kind).bind fun found => ?_
    cases found with
    | some found => exact .pure _
    | none => exact ih scope

theorem traced_unqualified? (m : Tree) (n : Nat) (name : String) (kind : MemberKind) :
    Traced t (unqualified? q m n name kind) := by
  unfold unqualified?
  refine (traced_inScopes? hq m name kind n _).bind fun found => ?_
  split
  · exact .pure _
  · refine (traced_inModule? t m name kind).bind fun found => ?_
    split
    · exact .pure _
    · split
      · exact .pure _
      · exact traced_inModule? t BaseModule.tree name kind

theorem traced_afterModule? (m : Tree) (receiver : Nat) (name : String) (kind : MemberKind) :
    Traced t (afterModule? q m receiver name kind) := by
  unfold afterModule?
  split
  · exact (traced_declaredMember? t _ name kind).map some
  · exact (traced_inImported? t m _ name kind).map some
  · refine (traced_unqualified? hq m receiver _ .property).bind fun found => ?_
    cases found with
    | none => exact .pure none
    | some d =>
      simp only
      split
      · exact (traced_afterImport? t d name kind).map some
      · exact .pure none
  · exact .pure none

theorem traced_qualified? (m : Tree) (receiver : Nat) (name : String) (kind : MemberKind) :
    Traced t (qualified? q m receiver name kind) := by
  refine (traced_afterModule? hq m receiver name kind).bind fun found => ?_
  cases found with
  | some found => exact .pure _
  | none => exact (hq.infer m receiver).bind fun type => traced_onReceiver? t m type name kind

theorem traced_resolveIn (m : Tree) (n : Nat) : Traced t (resolveIn q m n) := by
  unfold resolveIn
  split
  · exact traced_unqualified? hq m n _ _
  · exact traced_unqualified? hq m n _ _
  · split
    · exact traced_qualified? hq m _ _ _
    · exact .pure none
  · split
    · exact traced_qualified? hq m _ _ _
    · exact .pure none
  · exact traced_moduleDeclared? t m _
  · exact traced_moduleDeclared? t m _
  · exact traced_moduleDeclared? t m _
  · exact .pure none

/-! ## One step of inference -/

theorem traced_referenceType (m : Tree) (n : Nat) : Traced t (referenceType q m n) := by
  refine (traced_resolveIn hq m n).bind fun found => ?_
  cases found with
  | none => exact .pure _
  | some d => exact hq.typed d

theorem traced_typeOnReceiver {receiver : Query Ty} (h : Traced t receiver) (d : Declared) :
    Traced t (typeOnReceiver q receiver d) := by
  refine (hq.typed d).bind fun declared => ?_
  refine Traced.bind (n := Query) (((traced_lookups t).byId _).bind fun _ => .pure _)
    fun owner => ?_
  cases owner with
  | none => exact .pure _
  | some owner => exact h.bind fun type => traced_memberTypeOn t type owner declared

theorem traced_accessType (m : Tree) (n : Nat) (name : String) (kind : MemberKind) :
    Traced t (accessType q m n name kind) := by
  unfold accessType
  split
  · next receiver _ =>
    unfold qualifiedType
    refine (traced_afterModule? hq m receiver name kind).bind fun found => ?_
    split
    · exact .pure _
    · exact traced_typeOnReceiver hq (hq.infer m receiver) _
    · refine (hq.infer m receiver).bind fun type => ?_
      refine (traced_onReceiver? t m type name kind).bind fun found => ?_
      cases found with
      | none => exact .pure _
      | some d => exact traced_typeOnReceiver hq (.pure type) d
  · exact .pure _

theorem traced_thisTypeIn (m : Tree) (scopes : List Nat) : Traced t (thisTypeIn q m scopes) := by
  induction scopes with
  | nil => exact .pure _
  | cons scope scopes ih =>
    unfold thisTypeIn
    split
    · exact traced_objectType hq m scope
    · split
      · exact .pure _
      · exact ((traced_lookups t).classDef _).bind fun _ => .pure _
    · exact ih

theorem traced_lambdaParts (m : Tree) (ns : List Nat) : Traced t (lambdaParts q m ns) := by
  induction ns with
  | nil => exact .pure _
  | cons n ns ih =>
    unfold lambdaParts
    split
    · exact (traced_bindingType t m n _).bind fun param => ih.bind fun parts => .pure _
    · exact (hq.infer m n).bind fun body => ih.bind fun parts => .pure _

theorem traced_elementType? (m : Tree) (member : Nat) : Traced t (elementType? q m member) := by
  unfold elementType?
  split
  · exact .pure none
  · exact (hq.infer m _).bind fun type => (traced_elementTypes? t type).bind fun types => .pure _

theorem traced_placeType? (m : Tree) (n : Nat) : Traced t (placeType? q m n) := by
  unfold placeType?
  split
  · exact .pure none
  · split
    · exact traced_declaredPropertyType? t m _
    · split
      · exact ((traced_lookups t).resolveType m _ _).map some
      · exact traced_objectMemberType? hq m _ _
    · exact .optionMapM ((traced_lookups t).resolveType m _) _
    · exact traced_elementType? hq m _
    · split
      · exact traced_elementType? hq m _
      · exact .pure none
    · exact .pure none

theorem traced_expectedType (m : Tree) (n : Nat) : Traced t (expectedType q m n) := by
  refine (traced_placeType? hq m n).bind fun type => ?_
  split <;> exact .pure _

/-- One step towards the type of a node. -/
theorem traced_inferNode (m : Tree) (n : Nat) (kind : NodeKind) :
    Traced t (inferNode q m n kind) := by
  unfold inferNode
  split
  · exact .pure _
  · exact traced_referenceType hq m n
  · exact traced_referenceType hq m n
  · exact (traced_accessType hq m n _ _).bind fun type => .pure _
  · exact traced_accessType hq m n _ _
  · exact traced_thisTypeIn hq m _
  · exact .pure _
  · exact .pure _
  · split
    · exact hq.infer m _
    · exact .pure _
  · exact (traced_lambdaParts hq m _).bind fun parts => .pure _
  · exact (traced_lookups t).resolveType m n _
  · exact traced_expectedType hq m n
  · split
    · exact hq.infer m _
    · exact .pure _
  · exact (Traced.mapM (hq.infer m) _).bind fun types => .pure _
  · exact traced_importedType t m _
  · exact traced_importedType t m _
  · exact traced_objectType hq m n
  · exact hq.typed _
  · exact hq.typed _
  · exact hq.typed _
  · exact hq.typed _
  all_goals exact .pure _

theorem traced_valueType? (m : Tree) (n : Nat) : Traced t (valueType? q m n) :=
  .optionMapM (hq.infer m) _

theorem traced_propertyType (m : Tree) (n : Nat) : Traced t (propertyType q m n) := by
  refine (traced_declaredPropertyType? t m n).bind fun type => ?_
  split
  · exact .pure _
  · refine (traced_valueType? hq m n).bind fun type => ?_
    split <;> exact .pure _

theorem traced_objectPropertyType (m : Tree) (n : Nat) (name : String) :
    Traced t (objectPropertyType q m n name) := by
  refine (traced_valueType? hq m n).bind fun type => ?_
  split
  · exact .pure _
  · exact (traced_objectMemberType? hq m n name).bind fun type => .pure _

theorem traced_generatorType (m : Tree) (n : Nat) (isKey : Bool) :
    Traced t (generatorType q m n isKey) := by
  unfold generatorType
  split
  · exact .pure _
  · refine (hq.infer m _).bind fun type => (traced_elementTypes? t type).bind fun types => ?_
    cases types <;> exact .pure _

theorem traced_nodeType (m : Tree) (n : Nat) (name : String) (kind : NodeKind) :
    Traced t (nodeType q m n name kind) := by
  unfold nodeType
  split
  · exact traced_propertyType hq m n
  · split
    · exact (traced_lookups t).resolveType m n _
    · exact traced_objectPropertyType hq m n _
  · split
    · exact (traced_lookups t).resolveType m n _
    · exact (traced_valueType? hq m n).bind fun type => .pure _
  · exact traced_bindingType t m n _
  · split
    · exact (traced_lookups t).resolveType m n _
    · exact hq.infer m _
    · exact .pure _
  · exact traced_generatorType hq m n _
  · exact traced_importedType t m _
  · exact .pure _
  · exact .pure _

/-- One step towards the type of a declaration. -/
theorem traced_declarationType (d : Declared) : Traced t (declarationType q d) := by
  refine ((traced_lookups t).byId _).bind fun found => ?_
  cases found with
  | none => exact .pure _
  | some m =>
    simp only
    split
    · exact traced_nodeType hq m _ _ _
    · exact .pure _

end Typings

theorem isTraced_typingWithin {t : Tree} (depth : Nat) (inProgress : List Site) :
    (typingWithin depth inProgress).IsTraced t := by
  induction depth generalizing inProgress with
  | zero => exact ⟨fun _ _ => .pure _, fun _ => .pure _⟩
  | succ depth ih =>
    refine ⟨fun m n => ?_, fun d => ?_⟩
    · unfold typingWithin
      simp only
      split
      · exact traced_inferNode (ih inProgress) m n _
      · exact .pure _
    · unfold typingWithin
      simp only
      split
      · exact .pure _
      · exact traced_declarationType (ih (d.site :: inProgress)) d

theorem isTraced_typing {t : Tree} : typing.IsTraced t := isTraced_typingWithin maxTypingDepth []

/-! ## Checks -/

section Checks

variable (t m : Tree)

theorem traced_findingsAt {check : Nat → Query (Option Diagnostic)}
    (h : ∀ n, Traced t (check n)) : Traced t (findingsAt m check) :=
  (Traced.mapM h _).bind fun _ => .pure _

theorem traced_checkUri (n : Nat) : Traced t (checkUri m n) := by
  unfold checkUri
  split
  · exact .pure none
  · refine ((traced_lookups t).byUri m _).bind fun target => ?_
    cases target with
    | ok _ => exact .pure none
    | error e =>
      simp only
      split <;> exact .pure _

theorem traced_checkCycles : Traced t (checkCycles m) := by
  have hcheck (d : DeclRef) (n : Nat) (finding : Finding) : Traced t (do
      if (← ancestors d).isCyclic then return some (Diagnostic.atNode m n finding)
      return none : Query (Option Diagnostic)) := by
    refine (traced_ancestors t d).bind fun chain => ?_
    split <;> exact .pure _
  refine Traced.bind (n := Query) (hcheck _ _ _) fun own => ?_
  refine (traced_findingsAt t m fun n => ?_).bind fun _ => .pure _
  unfold checkClassCycle
  split
  · exact hcheck _ _ _
  · exact .pure none

end Checks

section Questions

variable {t : Tree}

theorem traced_resolve (n : Nat) : Traced t (resolve t n) :=
  (traced_adopt t).bind fun _ => traced_resolveIn isTraced_typing t n

theorem traced_typeOf (n : Nat) : Traced t (typeOf t n) :=
  (traced_adopt t).bind fun _ => isTraced_typing.infer t n

theorem traced_isOpenReceiver (receiver : Nat) : Traced t (isOpenReceiver t receiver) := by
  refine (traced_resolve receiver).bind fun found => ?_
  split
  · unfold isOpenImport
    split
    · refine ((traced_lookups t).resolveModule? t _).bind fun found => ?_
      cases found with
      | some m => exact traced_hasUnknownAncestor t _
      | none => exact .pure true
    · exact .pure true
  · exact (traced_typeOf receiver).bind fun type => traced_isOpenType t type

theorem traced_isOpenScope (scope : Nat) : Traced t (isOpenScope t scope) := by
  unfold isOpenScope
  split
  · exact (traced_typeOf scope).bind fun _ => .pure _
  · split
    · exact traced_hasUnknownAncestor t _
    · exact .pure false
  · exact .pure false

theorem traced_isExcused (n : Nat) (hasReceiver : Bool) :
    Traced t (isExcused t n hasReceiver) := by
  unfold isExcused
  split
  · split
    · exact traced_isOpenReceiver _
    · exact .pure false
  · refine (Traced.anyM traced_isOpenScope _).bind fun isOpen => ?_
    split
    · exact .pure true
    · exact traced_hasUnknownAncestor t _

theorem traced_checkReference (n : Nat) : Traced t (checkReference t n) := by
  unfold checkReference
  split
  · exact .pure none
  · refine (traced_resolve n).bind fun found => ?_
    split
    · exact .pure none
    · refine (traced_isExcused n _).bind fun excused => ?_
      split <;> exact .pure _

theorem traced_declaredValue? (n : Nat) : Traced t (declaredValue? t n) := by
  unfold declaredValue?
  simp only [pure_bind]
  split
  · exact (traced_declaredPropertyType? t t n).bind fun type => .pure _
  · exact (Traced.optionMapM ((traced_lookups t).resolveType t n) _).bind fun type => .pure _
  · exact (Traced.optionMapM ((traced_lookups t).resolveType t n) _).bind fun type => .pure _
  · exact .pure none

theorem traced_checkType (n : Nat) : Traced t (checkType t n) := by
  unfold checkType
  refine (traced_declaredValue? n).bind fun found => ?_
  split
  · exact .pure none
  · refine (traced_typeOf _).bind fun actual => ?_
    refine (traced_haveCommonSubtype t actual _).bind fun common => ?_
    split <;> exact .pure _

theorem traced_importsUsedAt (n : Nat) : Traced t (importsUsedAt t n) := by
  refine Traced.bind (n := Query) (α := Option Nat) ?_ fun _ => .pure _
  unfold referencedImport?
  split
  · exact (traced_resolve n).bind fun _ => .pure _
  · exact (traced_resolve n).bind fun _ => .pure _
  · exact (traced_resolve n).bind fun _ => .pure _
  · exact .pure none

theorem traced_distinctImports (is : List Import) : Traced t (distinctImports t is) := by
  refine (Traced.mapM (fun i => ?_) _).bind fun _ => .pure _
  exact Traced.bind (n := Query) (((traced_lookups t).resolveModule? t i.uri).bind fun _ => .pure _)
    fun key => .pure (key, i)

/-- A question adopts its tree, and what it does then can be told. -/
theorem exists_ask_eq (q : Question) :
    ∃ rest : Query q.Answer, ask t q = (adopt t >>= fun _ => rest) ∧ Traced t rest := by
  cases q with
  | resolve n => exact ⟨_, rfl, traced_resolveIn isTraced_typing t n⟩
  | typeOf n => exact ⟨_, rfl, isTraced_typing.infer t n⟩
  | check options =>
    have hif {check : Query (List Diagnostic)} (h : Traced t check) (wanted : Bool) :
        Traced t (checkIf wanted check) := by
      unfold checkIf
      split
      · exact h
      · exact .pure []
    refine ⟨_, rfl, (hif (traced_findingsAt t t (traced_checkUri t t)) _).bind fun _ => ?_⟩
    refine (hif (traced_checkCycles t t) _).bind fun _ => ?_
    refine (hif (traced_findingsAt t t traced_checkReference) _).bind fun _ => ?_
    exact (hif (traced_findingsAt t t traced_checkType) _).bind fun _ => .pure _
  | superMember n =>
    refine ⟨_, rfl, ?_⟩
    split
    · exact (traced_ancestors t _).bind fun _ => .pure _
    · exact .pure none
  | tidyImports =>
    refine ⟨_, rfl, ?_⟩
    split
    · exact .pure none
    · refine Traced.bind (n := Query)
        ((Traced.mapM traced_importsUsedAt _).bind fun _ => .pure _) fun used => ?_
      exact (traced_distinctImports _).bind fun _ => .pure _

end Questions

end PklAnalysis.Session
