import PklAnalysis.Proofs.Resolution.FoundedLookups
import PklAnalysis.Resolution.Scope

/-!
# Names are resolved faithfully

What a name means is declared under this name by the node that it is resolved to, whether it is
found around the name, in a module, or among the members of a type.
-/

namespace PklAnalysis

/-- The types that a typing gives for trees that their modules have are faithful. -/
structure Typing.IsFaithful (q : [Session.Bounds] → Typing) : Prop where
  infer : ∀ V t n, Faithful V t → Session.Faithfully V (q.infer t n)
  typed : ∀ V d, Session.Faithfully V (q.typed d)

namespace Session

variable {V : World}

/-! ## Objects -/

theorem faithful_dynamicType : Faithful V dynamicType := .plain (by simp [BaseTypes.plainDecls])

section Objects

variable {q : [Bounds] → Typing} (hq : Typing.IsFaithful q)
include hq

theorem faithful_propertyOn? {receiver : Ty} (h : Faithful V receiver) (name : String) :
    Faithfully V (propertyOn? q receiver name) := by
  unfold propertyOn?
  refine (faithful_memberOfType? h name .property).bind fun U m hU _ => ?_
  cases m with
  | none => exact .pure .none
  | some m =>
    refine (hq.typed U _).bind fun U' declared hU' hdeclared => ?_
    exact (faithful_memberTypeOn (h.mono (hU.trans hU')) m.owner hdeclared).bind
      fun _ type _ htype => .pure htype.some

theorem faithful_objectType {t : Tree} (ht : Faithful V t) (body : Nat) :
    Faithfully V (objectType q t body) := by
  have hpick (U : World) (declared : Option Ty) (h : Faithful U declared) :
      Faithfully U fun [Bounds] =>
        (pure ((declared.map nonNull).getD dynamicType) : Query Ty) :=
    .pure ((h.map fun a ha => faithful_nonNull ha).getD faithful_dynamicType)
  induction body using Nat.strongRecOn generalizing V with
  | ind body ih =>
    unfold objectType
    split
    · exact .pure Faithful.unknown
    · next p _ =>
      split
      · exact hq.infer V t _ ht
      · exact hq.infer V t _ ht
      · exact (faithful_declaredPropertyType? ht _).bind fun U declared _ => hpick U declared
      · simp only
        split
        · exact ((faithful_resolveType ht _ _).map fun _ _ _ ha => ha.some).bind
            fun U declared _ => hpick U declared
        · split
          · exact (Faithfully.pure .none).bind fun U declared _ => hpick U declared
          · next outer _ =>
            have hbefore : outer.val < body := Nat.lt_trans outer.isLt p.isLt
            refine (ih outer hbefore ht).bind fun U type _ htype => ?_
            exact (faithful_propertyOn? hq htype _).bind fun U' declared _ => hpick U' declared
      · split
        · exact .pure Faithful.unknown
        · exact hq.infer V t _ ht
      · split
        · exact .pure Faithful.unknown
        · exact hq.infer V t _ ht
      · exact .pure Faithful.unknown

theorem faithful_objectMemberType? {t : Tree} (ht : Faithful V t) (member : Nat) (name : String) :
    Faithfully V (objectMemberType? q t member name) := by
  unfold objectMemberType?
  split
  · exact .pure .none
  · exact (faithful_objectType hq ht _).bind fun _ type _ htype =>
      faithful_propertyOn? hq htype name

end Objects

/-! ## Names without a receiver -/

section Trees

variable {t : Tree} (ht : Faithful V t)
include ht

theorem faithful_typeDeclared? (name : String) : Faithful V (typeDeclared? t name) := by
  intro d hd
  obtain ⟨n, hn, hd⟩ := Option.bind_eq_some_iff.mp hd
  have hname := List.find?_some hn
  obtain rfl := Option.some.inj hd
  -- the node that is found declares a class or a type alias of the name
  split at hname
  · next hkind =>
    simp only [hkind]
    exact ht.atNode hkind (by simp [Tree.namesOf, of_decide_eq_true hname])
  · next hkind =>
    simp only [hkind]
    exact ht.atNode hkind (by simp [Tree.namesOf, of_decide_eq_true hname])
  · cases hname

theorem faithful_exportedType? (name : String) : Faithful V (exportedType? t name) :=
  (faithful_typeDeclared? ht name).filter _

theorem faithful_parameter? (scope child : Nat) (name : String) :
    Faithful V (parameter? t scope child name) := by
  intro d hd
  rw [parameter?] at hd
  split at hd
  · cases hd
  · obtain ⟨n, hn, rfl⟩ := Option.map_eq_some_iff.mp hd
    have hname := List.find?_some hn
    split at hname
    · next hkind => exact ht.atNode hkind (by simp [Tree.namesOf, of_decide_eq_true hname])
    · cases hname

/-- A node binds a name for its second child if the name is one of those that it declares. -/
theorem faithful_bound? {scope : Nat} {k : NodeKind} (hkind : t.kind? scope = some k)
    {kind : DeclarationKind} {names : List String}
    (hnames : ∀ name ∈ names, (kind, name) ∈ t.namesOf k) (child : Nat) (name : String) :
    Faithful V (bound? t scope child kind name names) := by
  rw [bound?]
  split
  · next hbound =>
    rw [Bool.and_eq_true, List.contains_iff_mem] at hbound
    exact .some (ht.atNode hkind (hnames name hbound.1))
  · exact .none

theorem faithful_import? (name : String) (kind : MemberKind) :
    Faithful V (import? t name kind) := by
  cases kind with
  | method => exact .none
  | property =>
    intro d hd
    obtain ⟨⟨n, i⟩, hfound, rfl⟩ := Option.map_eq_some_iff.mp hd
    have hname := List.find?_some hfound
    obtain ⟨c, -, hc⟩ := List.mem_filterMap.mp (List.mem_of_find?_eq_some hfound)
    split at hc
    · next hkind =>
      obtain ⟨rfl, rfl⟩ := Prod.mk.inj (Option.some.inj hc)
      exact ht.atNode hkind (by simp [Tree.namesOf, of_decide_eq_true hname])
    · cases hc

theorem faithful_exportedMember? (name : String) (kind : MemberKind) :
    Faithful V (exportedMember? t name kind) := by
  intro d hd
  obtain ⟨n, hn, rfl⟩ := Option.map_eq_some_iff.mp hd
  have hshows := List.find?_some hn
  split at hshows
  · next hkind =>
    rw [Bool.and_eq_true] at hshows
    exact ht.atNode hkind (by simp [Tree.namesOf, Declared.kindOf, of_decide_eq_true hshows.2])
  · next hkind =>
    rw [Bool.and_eq_true] at hshows
    exact ht.atNode hkind (by simp [Tree.namesOf, Declared.kindOf, of_decide_eq_true hshows.2])
  · cases hshows

end Trees

/-- What is found among members that are left over by a test is one of them. -/
theorem faithful_filterMember {m : Option MemberDef} (hm : Faithful V m) (p : MemberDef → Bool) :
    Faithful V ((m.filter p).map Declared.ofMember) :=
  (hm.filter p).map fun _ h => h.ofMember

theorem faithful_declaredMember? (d : DeclRef) (name : String) (kind : MemberKind) :
    Faithfully V (declaredMember? d name kind) :=
  (faithful_memberOfClass? d name kind).bind fun _ _ _ hm => .pure (hm.map fun _ h => h.ofMember)

theorem faithful_inModule? {t : Tree} (ht : Faithful V t) (name : String) (kind : MemberKind) :
    Faithfully V (inModule? t name kind) := by
  unfold inModule?
  refine (faithful_declaredMember? (moduleDecl t) name kind).bind fun U found hU hfound => ?_
  cases found with
  | some found => exact .pure hfound
  | none =>
    simp only
    split
    · exact .pure .none
    · next hdeclared => exact .pure (hdeclared ▸ faithful_typeDeclared? (ht.mono hU) name)
    · exact (faithful_supermodules t).bind fun _ ms _ hms =>
        .pure (.findSome? fun m hm => faithful_exportedType? (hms m hm) name)

section Names

variable {q : [Bounds] → Typing} (hq : Typing.IsFaithful q)
include hq

theorem faithful_inObject? {t : Tree} (ht : Faithful V t) (body : Nat) (name : String)
    (kind : MemberKind) : Faithfully V (inObject? q t body name kind) := by
  unfold inObject?
  simp only
  split
  · next n hown =>
    have hname := List.find?_some hown
    split at hname
    · next hkind =>
      exact .pure (.some (ht.atNode hkind (by simp [Tree.namesOf, of_decide_eq_true hname])))
    · cases hname
  · refine (faithful_objectType hq ht body).bind fun U type _ htype => ?_
    exact (faithful_memberOfType? htype name _).bind fun _ m _ hm =>
      .pure (hm.map fun _ h => h.ofMember)

theorem faithful_inScope? {t : Tree} (ht : Faithful V t) (scope child : Nat) (name : String)
    (kind : MemberKind) : Faithfully V (inScope? q t scope child name kind) := by
  unfold inScope?
  split
  · next hkind => exact .pure (faithful_bound? ht hkind (by simp [Tree.namesOf]) child name)
  · exact .pure (faithful_parameter? ht scope child name)
  · exact .pure (faithful_parameter? ht scope child name)
  · next hkind => exact .pure (faithful_bound? ht hkind (by simp [Tree.namesOf]) child name)
  · exact faithful_inObject? hq ht scope name _
  · split
    · exact faithful_declaredMember? _ name _
    · exact .pure .none
  · exact .pure .none

theorem faithful_inScopes? {t : Tree} (ht : Faithful V t) (name : String) (kind : MemberKind)
    (child : Nat) (scopes : List Nat) : Faithfully V (inScopes? q t name kind child scopes) := by
  induction scopes generalizing V child with
  | nil => exact .pure .none
  | cons scope scopes ih =>
    refine (faithful_inScope? hq ht scope child name kind).bind fun U found hU hfound => ?_
    cases found with
    | some found => exact .pure hfound
    | none => exact ih (ht.mono hU) scope

theorem faithful_unqualified? {t : Tree} (ht : Faithful V t) (n : Nat) (name : String)
    (kind : MemberKind) : Faithfully V (unqualified? q t n name kind) := by
  unfold unqualified?
  refine (faithful_inScopes? hq ht name kind n _).bind fun U found hU hfound => ?_
  have ht := ht.mono hU
  split
  · exact .pure hfound
  · refine (faithful_inModule? ht name kind).bind fun U' found hU' hfound => ?_
    split
    · exact .pure hfound
    · split
      · next himport => exact .pure (himport ▸ faithful_import? (ht.mono hU') name kind)
      · exact faithful_inModule? .base name kind

end Names

/-! ## Names after a receiver -/

theorem faithful_topLevel? {t : Tree} (ht : Faithful V t) (name : String) (kind : MemberKind) :
    Faithfully V (topLevel? t name kind) := by
  unfold topLevel?
  simp only
  split
  · next hfound =>
    refine .pure (hfound ▸ (faithful_exportedMember? ht name kind).or ?_)
    cases kind with
    | property => exact faithful_exportedType? ht name
    | method => exact .none
  · exact (faithful_memberOfClass? (moduleDecl t) name kind).bind fun _ m _ hm =>
      .pure (faithful_filterMember hm _)

theorem faithful_inImported? (importer : Tree) (uri name : String) (kind : MemberKind) :
    Faithfully V (inImported? importer uri name kind) := by
  unfold inImported?
  refine (faithful_resolveModule? importer uri).bind fun U found _ hfound => ?_
  cases found with
  | some t => exact faithful_topLevel? hfound.of_some name kind
  | none => exact .pure .none

theorem faithful_onReceiver? (t : Tree) {receiver : Ty} (h : Faithful V receiver) (name : String)
    (kind : MemberKind) : Faithfully V (onReceiver? t receiver name kind) :=
  (faithful_memberOfType? h name kind).bind fun _ _ _ hm => .pure (faithful_filterMember hm _)

theorem faithful_afterImport? (d : Declared) (name : String) (kind : MemberKind) :
    Faithfully V (afterImport? d name kind) := by
  unfold afterImport?
  refine (faithful_tree? d.site.module).bind fun U found _ _ => ?_
  cases found with
  | none => exact .pure .none
  | some importer =>
    simp only
    split
    · exact faithful_inImported? importer _ name kind
    · exact .pure .none

/-- A module is declared under its name by its first node. -/
theorem faithful_moduleDeclared? (importer : Tree) (uri : String) :
    Faithfully V (moduleDeclared? importer uri) := by
  refine (faithful_resolveModule? importer uri).bind fun U found _ hfound => .pure ?_
  refine hfound.map fun t ht => ?_
  obtain ⟨name, isOpen, hroot⟩ := ht.rooted
  exact ht.atNode hroot (List.mem_singleton_self _)

section Receivers

variable {q : [Bounds] → Typing} (hq : Typing.IsFaithful q)
include hq

theorem faithful_afterModule? {t : Tree} (ht : Faithful V t) (receiver : Nat) (name : String)
    (kind : MemberKind) : Faithfully V (afterModule? q t receiver name kind) := by
  have hwrap {U : World} {x : [Bounds] → Query (Option Declared)} (hx : Faithfully U x) :
      Faithfully U (some <$> x) := hx.map fun _ _ _ h => h.some
  unfold afterModule?
  split
  · exact hwrap (faithful_declaredMember? _ name kind)
  · exact hwrap (faithful_inImported? t _ name kind)
  · refine (faithful_unqualified? hq ht receiver _ .property).bind fun U found _ _ => ?_
    cases found with
    | none => exact .pure .none
    | some d =>
      simp only
      split
      · exact hwrap (faithful_afterImport? d name kind)
      · exact .pure .none
  · exact .pure .none

theorem faithful_qualified? {t : Tree} (ht : Faithful V t) (receiver : Nat) (name : String)
    (kind : MemberKind) : Faithfully V (qualified? q t receiver name kind) := by
  unfold qualified?
  refine (faithful_afterModule? hq ht receiver name kind).bind fun U found hU hfound => ?_
  cases found with
  | some found => exact .pure hfound.of_some
  | none =>
    exact (hq.infer U t receiver (ht.mono hU)).bind fun _ type _ htype =>
      faithful_onReceiver? t htype name kind

/-- What a reference resolves to is declared under its name in the tree of its module. -/
theorem faithful_resolveIn {t : Tree} (ht : Faithful V t) (n : Nat) :
    Faithfully V (resolveIn q t n) := by
  unfold resolveIn
  split
  · exact faithful_unqualified? hq ht n _ _
  · exact faithful_unqualified? hq ht n _ _
  · split
    · exact faithful_qualified? hq ht _ _ _
    · exact .pure .none
  · split
    · exact faithful_qualified? hq ht _ _ _
    · exact .pure .none
  · exact faithful_moduleDeclared? t _
  · exact faithful_moduleDeclared? t _
  · exact faithful_moduleDeclared? t _
  · exact .pure .none

end Receivers

end Session

end PklAnalysis
