import PklAnalysis.Proofs.Resolution.SteadyRelations
import PklAnalysis.Resolution.Scope

/-!
# References are resolved steadily

What a name means is found steadily if types are.  Declarations are places in the trees that a scope
is asked about, or in those of the types that are found on the way.
-/

namespace PklAnalysis

/-- The types that a typing gives do not show what a session remembers. -/
structure Typing.IsSteady (q : Typing) : Prop where
  infer : ∀ {T t} (n : Nat), Grounded T t → Session.Steady T (q.infer t n)
  typed : ∀ {T d}, Grounded T d → Session.Steady T (q.typed d)

namespace Session

variable {T : Set Tree}

theorem grounded_dynamicType : Grounded T dynamicType := .plainBase (by simp)

section Objects

variable {q : Typing} (hq : q.IsSteady)
include hq

theorem steady_propertyOn? {receiver : Ty} (h : Grounded T receiver) (name : String) :
    Steady T (propertyOn? q receiver name) := by
  unfold propertyOn?
  refine (steady_memberOfType? h name .property).bind fun U m hU hm => ?_
  cases m with
  | none => exact .pure .none
  | some m =>
    refine (hq.typed hm.of_some.ofMember).bind fun V declared hV hdeclared => ?_
    exact (steady_memberTypeOn (h.mono (hU.trans hV)) m.owner hdeclared).bind
      fun X type _ htype => .pure htype.some

theorem steady_objectType {t : Tree} (ht : Grounded T t) (body : Nat) :
    Steady T (objectType q t body) := by
  have hpick : ∀ (U : Set Tree) (declared : Option Ty), Grounded U declared →
      Steady U (pure ((declared.map nonNull).getD dynamicType) : Query Ty) :=
    fun U declared h => .pure ((h.map fun a ha => grounded_nonNull ha).getD grounded_dynamicType)
  induction body using Nat.strongRecOn with
  | ind body ih =>
    unfold objectType
    split
    · exact .pure .unknown
    · next p _ =>
      split
      · exact hq.infer _ ht
      · exact hq.infer _ ht
      · exact (steady_declaredPropertyType? ht _).bind fun U type _ => hpick U type
      · simp only
        split
        · exact ((steady_resolveType ht _ _).map fun U a _ ha => ha.some).bind
            fun U declared _ => hpick U declared
        · split
          · exact (Steady.pure .none).bind fun U declared _ => hpick U declared
          · next outer _ =>
            have hbefore : outer.val < body := Nat.lt_trans outer.isLt p.isLt
            refine (ih outer hbefore).bind fun U type hU htype => ?_
            exact (steady_propertyOn? hq htype _).bind fun V declared _ => hpick V declared
      · split
        · exact .pure .unknown
        · exact hq.infer _ ht
      · split
        · exact .pure .unknown
        · exact hq.infer _ ht
      · exact .pure .unknown

theorem steady_objectMemberType? {t : Tree} (ht : Grounded T t) (member : Nat) (name : String) :
    Steady T (objectMemberType? q t member name) := by
  unfold objectMemberType?
  split
  · exact .pure .none
  · exact (steady_objectType hq ht _).bind fun U type _ htype => steady_propertyOn? hq htype name

end Objects

/-! ## Names without a receiver -/

theorem steady_declaredMember? {d : DeclRef} (hd : Grounded T d) (name : String)
    (kind : MemberKind) : Steady T (declaredMember? d name kind) :=
  (steady_memberOfClass? hd name kind).bind fun _ _ _ hm =>
    .pure (hm.map fun _ h => h.ofMember)

theorem grounded_typeDeclared? {t : Tree} (ht : Grounded T t) (name : String) :
    Grounded T (typeDeclared? t name) := by
  intro d hd
  obtain ⟨n, -, hd⟩ := Option.bind_eq_some_iff.mp hd
  exact Option.some.inj hd ▸ ht.atNode n _ name

theorem grounded_exportedType? {t : Tree} (ht : Grounded T t) (name : String) :
    Grounded T (exportedType? t name) :=
  fun d hd => grounded_typeDeclared? ht name d (Option.mem_filter_iff.mp hd).1

theorem grounded_parameter? {t : Tree} (ht : Grounded T t) (scope child : Nat) (name : String) :
    Grounded T (parameter? t scope child name) := by
  intro d hd
  rw [parameter?] at hd
  split at hd
  · exact nomatch hd
  · obtain ⟨n, -, rfl⟩ := Option.map_eq_some_iff.mp hd
    exact ht.atNode n _ name

theorem grounded_bound? {t : Tree} (ht : Grounded T t) (scope child : Nat)
    (kind : DeclarationKind) (name : String) (names : List String) :
    Grounded T (bound? t scope child kind name names) := by
  rw [bound?]
  split
  · exact .some (ht.atNode scope kind name)
  · exact .none

theorem grounded_import? {t : Tree} (ht : Grounded T t) (name : String) (kind : MemberKind) :
    Grounded T (import? t name kind) := by
  cases kind with
  | method => exact .none
  | property =>
    intro d hd
    obtain ⟨⟨n, i⟩, -, rfl⟩ := Option.map_eq_some_iff.mp hd
    exact ht.atNode n _ name

/-- What is found among members that are left over by a test is one of them. -/
theorem grounded_filterMember {m : Option MemberDef} (hm : Grounded T m) (p : MemberDef → Bool) :
    Grounded T ((m.filter p).map Declared.ofMember) := by
  intro d hd
  obtain ⟨m, hm', rfl⟩ := Option.map_eq_some_iff.mp hd
  exact (hm m (Option.mem_filter_iff.mp hm').1).ofMember

section Names

variable {q : Typing} (hq : q.IsSteady)

theorem steady_inModule? {t : Tree} (ht : Grounded T t) (name : String) (kind : MemberKind) :
    Steady T (inModule? t name kind) := by
  unfold inModule?
  refine (steady_declaredMember? ht.moduleDecl name kind).bind fun U found hU hfound => ?_
  cases found with
  | some found => exact .pure hfound
  | none =>
    simp only
    split
    · exact .pure .none
    · next hdeclared => exact .pure (hdeclared ▸ grounded_typeDeclared? (ht.mono hU) name)
    · exact (steady_supermodules (ht.mono hU)).bind fun V ms _ hms =>
        .pure (.findSome? fun m hm => grounded_exportedType? (hms m hm) name)

include hq

theorem steady_inObject? {t : Tree} (ht : Grounded T t) (body : Nat) (name : String)
    (kind : MemberKind) : Steady T (inObject? q t body name kind) := by
  unfold inObject?
  simp only
  split
  · exact .pure (.some (ht.atNode _ _ name))
  · refine (steady_objectType hq ht body).bind fun U type _ htype => ?_
    exact (steady_memberOfType? htype name _).bind fun V m _ hm =>
      .pure (hm.map fun _ h => h.ofMember)

theorem steady_inScope? {t : Tree} (ht : Grounded T t) (scope child : Nat) (name : String)
    (kind : MemberKind) : Steady T (inScope? q t scope child name kind) := by
  unfold inScope?
  split
  · exact .pure (grounded_bound? ht scope child _ name _)
  · exact .pure (grounded_parameter? ht scope child name)
  · exact .pure (grounded_parameter? ht scope child name)
  · exact .pure (grounded_bound? ht scope child _ name _)
  · exact steady_inObject? hq ht scope name _
  · split
    · next d hd => exact steady_declaredMember? (ht.declOf? scope d hd) name _
    · exact .pure .none
  · exact .pure .none

theorem steady_inScopes? {t : Tree} (ht : Grounded T t) (name : String) (kind : MemberKind)
    (child : Nat) (scopes : List Nat) : Steady T (inScopes? q t name kind child scopes) := by
  induction scopes generalizing T child with
  | nil => exact .pure .none
  | cons scope scopes ih =>
    refine (steady_inScope? hq ht scope child name kind).bind fun U found hU hfound => ?_
    cases found with
    | some found => exact .pure hfound
    | none => exact ih (ht.mono hU) scope

theorem steady_unqualified? {t : Tree} (ht : Grounded T t) (n : Nat) (name : String)
    (kind : MemberKind) : Steady T (unqualified? q t n name kind) := by
  unfold unqualified?
  refine (steady_inScopes? hq ht name kind n _).bind fun U found hU hfound => ?_
  have ht := ht.mono hU
  split
  · exact .pure hfound
  · refine (steady_inModule? ht name kind).bind fun V found hV hfound => ?_
    split
    · exact .pure hfound
    · split
      · next himport => exact .pure (himport ▸ grounded_import? (ht.mono hV) name kind)
      · exact steady_inModule? .base name kind

end Names

/-! ## Names after a receiver -/

theorem grounded_exportedMember? {t : Tree} (ht : Grounded T t) (name : String)
    (kind : MemberKind) : Grounded T (exportedMember? t name kind) := by
  intro d hd
  obtain ⟨n, -, rfl⟩ := Option.map_eq_some_iff.mp hd
  exact ht.atNode n _ name

theorem steady_topLevel? {t : Tree} (ht : Grounded T t) (name : String) (kind : MemberKind) :
    Steady T (topLevel? t name kind) := by
  unfold topLevel?
  simp only
  split
  · next hfound =>
    refine .pure (hfound ▸ (grounded_exportedMember? ht name kind).or ?_)
    cases kind with
    | property => exact grounded_exportedType? ht name
    | method => exact .none
  · exact (steady_memberOfClass? ht.moduleDecl name kind).bind fun U m _ hm =>
      .pure (grounded_filterMember hm _)

theorem steady_inImported? {importer : Tree} (himporter : Grounded T importer) {n : Nat}
    {uri : String} (huri : uriAt? importer n = some uri) (name : String) (kind : MemberKind) :
    Steady T (inImported? importer uri name kind) := by
  unfold inImported?
  refine (steady_resolveModule? himporter huri).bind fun U found _ hfound => ?_
  cases found with
  | some t => exact steady_topLevel? hfound.of_some name kind
  | none => exact .pure .none

theorem steady_onReceiver? (t : Tree) {receiver : Ty} (h : Grounded T receiver) (name : String)
    (kind : MemberKind) : Steady T (onReceiver? t receiver name kind) :=
  (steady_memberOfType? h name kind).bind fun _ _ _ hm => .pure (grounded_filterMember hm _)

theorem steady_afterImport? {d : Declared} (hd : Grounded T d) (name : String)
    (kind : MemberKind) : Steady T (afterImport? d name kind) := by
  unfold afterImport?
  refine (steady_tree? hd).bind fun U found _ hfound => ?_
  cases found with
  | none => exact .pure .none
  | some importer =>
    simp only
    split
    · next i hi =>
      have huri : uriAt? importer d.site.node = some i.uri := by rw [uriAt?, hi]
      exact steady_inImported? hfound.of_some huri name kind
    · exact .pure .none

theorem steady_moduleDeclared? {importer : Tree} (himporter : Grounded T importer) {n : Nat}
    {uri : String} (huri : uriAt? importer n = some uri) :
    Steady T (moduleDeclared? importer uri) :=
  (steady_resolveModule? himporter huri).bind fun _ _ _ hfound =>
    .pure (hfound.map fun _ ht => ht.atNode _ _ _)

section Receivers

variable {q : Typing} (hq : q.IsSteady)
include hq

theorem steady_afterModule? {t : Tree} (ht : Grounded T t) (receiver : Nat) (name : String)
    (kind : MemberKind) : Steady T (afterModule? q t receiver name kind) := by
  have hwrap : ∀ {U : Set Tree} {x : Query (Option Declared)}, Steady U x →
      Steady U (some <$> x) := fun hx => hx.map fun _ _ _ h => h.some
  unfold afterModule?
  split
  · exact hwrap (steady_declaredMember? ht.moduleDecl name kind)
  · next i hi =>
    have huri : uriAt? t receiver = some i.uri := by rw [uriAt?, hi]
    exact hwrap (steady_inImported? ht huri name kind)
  · refine (steady_unqualified? hq ht receiver _ .property).bind fun U found _ hfound => ?_
    cases found with
    | none => exact .pure .none
    | some d =>
      simp only
      split
      · exact hwrap (steady_afterImport? hfound.of_some name kind)
      · exact .pure .none
  · exact .pure .none

theorem steady_qualified? {t : Tree} (ht : Grounded T t) (receiver : Nat) (name : String)
    (kind : MemberKind) : Steady T (qualified? q t receiver name kind) := by
  unfold qualified?
  refine (steady_afterModule? hq ht receiver name kind).bind fun U found hU hfound => ?_
  cases found with
  | some found => exact .pure hfound.of_some
  | none =>
    exact (hq.infer receiver (ht.mono hU)).bind fun V type _ htype =>
      steady_onReceiver? t htype name kind

theorem steady_resolveIn {t : Tree} (ht : Grounded T t) (n : Nat) :
    Steady T (resolveIn q t n) := by
  unfold resolveIn
  split
  · exact steady_unqualified? hq ht n _ _
  · exact steady_unqualified? hq ht n _ _
  · split
    · exact steady_qualified? hq ht _ _ _
    · exact .pure .none
  · split
    · exact steady_qualified? hq ht _ _ _
    · exact .pure .none
  · next i hi => exact steady_moduleDeclared? ht (by rw [uriAt?, hi])
  · next i hi => exact steady_moduleDeclared? ht (by rw [uriAt?, hi])
  · next kind uri hi => exact steady_moduleDeclared? ht (by rw [uriAt?, hi])
  · exact .pure .none

end Receivers

end Session

end PklAnalysis
